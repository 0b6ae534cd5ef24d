import Fasco.Theory.Allocation

/-!
# Which Coroutines Have a Context and a Stack

`McoCreate` makes the `McoContext` of a coroutine and leaves its `ctx` as it
is; the `Mcontext` and the `McoStack` are made by `InitMcoContext`, which
`McoResume` calls for a coroutine that has not been started, and `MainMco`.
From then on the coroutine has both, until it is freed, and is marked as
started or, in the end, as finished.

This holds in every state of every run, on any number of threads and with
coroutines freed wherever they wait.

## Main definitions

* `Ready`: A coroutine has a context and a stack if it has been started.

## Theorems

* `ready_init`, `ready_step`: The invariant.
-/

namespace Fasco

open World

/-- `c` has a context and a stack, or neither, and it has them if it has been
    started. -/
structure Ready (w : World) (c : McoRef) : Prop where
  stacked : (w.shape c).isSome = true ↔ w.ctxs c = some true
  begun : ∀ r, w.flags c = some r → (w.shape c).isSome = true → r.start = true ∨ r.finished = true
  used : ∀ r, w.flags c = some r → (r.start = true ∨ r.finished = true) ∨ r.running = true →
    (w.shape c).isSome = true

section Ready

variable {w w' : World} {t : Tid} {c d s : McoRef} {r : McoRoutine}

/-- Being ready depends on these three views of the coroutine. -/
theorem Ready.congr (h : Ready w d) (hx : w'.ctxs d = w.ctxs d) (hs : w'.shape d = w.shape d)
    (hf : w'.flags d = w.flags d) : Ready w' d := by
  refine ⟨?_, fun r hr => ?_, fun r hr => ?_⟩
  · rw [hx, hs]
    exact h.stacked
  · rw [hs]
    exact h.begun r (hf.symm.trans hr)
  · rw [hs]
    exact h.used r (hf.symm.trans hr)

/-- Nothing has been created. -/
theorem ready_init (h : Init w) (c : McoRef) : Ready w c := by
  have hs : w.shape c = none := by rw [shape, h.stack c, Option.map_none]
  have hf : w.flags c = none := by rw [World.flags, h.co c, Option.map_none]
  have hx : w.ctxs c = none := by rw [World.ctxs, h.co c, Option.map_none]
  refine ⟨?_, fun r hr => ?_, fun r hr => ?_⟩
  · rw [hs, hx]
    decide
  · rw [hf] at hr
    cases hr
  · rw [hf] at hr
    cases hr

/-- A change of a record that keeps these flags. -/
theorem ready_setCo {v : McoRoutine} (h : ∀ d, Ready w d) (hr : w.co c = some r)
    (hctx : v.coctx.ctx.isSome = r.coctx.ctx.isSome) (hst : v.start = r.start)
    (hfin : v.finished = r.finished) (hrun : v.running = r.running) (d : McoRef) :
    Ready (w.setCo c v) d := by
  have hx := setCo_ctxs_same hr hctx
  by_cases hd : d = c
  · rw [hd]
    have hf : ∀ r1, (w.setCo c v).flags c = some r1 → r1 = bare v := by
      intro r1 hr1
      rw [setCo_flags, Function.update_self] at hr1
      injection hr1 with hr1
      exact hr1.symm
    refine ⟨?_, fun r1 hr1 hs => ?_, fun r1 hr1 hu => ?_⟩
    · rw [hx]
      exact (h c).stacked
    · rw [hf r1 hr1]
      change v.start = true ∨ v.finished = true
      rw [hst, hfin]
      exact (h c).begun (bare r) (flags_of_co hr) hs
    · rw [hf r1 hr1] at hu
      change (v.start = true ∨ v.finished = true) ∨ v.running = true at hu
      rw [hst, hfin, hrun] at hu
      exact (h c).used (bare r) (flags_of_co hr) hu
  · exact (h d).congr (congrFun hx d) rfl (by rw [setCo_flags, Function.update_of_ne hd])

/-- Giving up control clears `start` only when the callback has ended, and then
    the coroutine is finished. -/
theorem ready_tookOff (h : ∀ d, Ready w d) (hr : w.co c = some r) (hrun : r.running = true)
    (ht : TookOff w w' t c s r) (d : McoRef) : Ready w' d := by
  refine ⟨?_, fun r' hr' hs => ?_, fun r' hr' hu => ?_⟩
  · rw [ht.shape, ht.ctxs]
    exact (h d).stacked
  · rcases ht.inherits hr hr' with ⟨r0, hr0, hin⟩
    rw [ht.shape] at hs
    exact hin.begun ((h d).begun r0 hr0 hs)
  · rw [ht.shape]
    rcases ht.record hr' with ⟨hds, _⟩ | ⟨_, hdc, _⟩ | ⟨_, _, hr0⟩
    · rw [hds]
      exact ht.stacked
    · rw [hdc]
      exact (h c).used _ (flags_of_co hr) (Or.inr hrun)
    · exact (h d).used r' hr0 hu

/-- Coming on top of a call stack needs a context and a stack, and `start`. -/
theorem ready_putOn (h : ∀ d, d ≠ c → Ready w d) (hst : r.start = true)
    (hctx : r.coctx.ctx.isSome = true) (hp : PutOn w w' t c s r) (d : McoRef) : Ready w' d := by
  by_cases hd : d = c
  · rw [hd]
    have hstacked : (w'.shape c).isSome = true := by
      rw [hp.shape]
      exact hp.stacked
    refine ⟨?_, fun r' hr' _ => ?_, fun _ _ _ => hstacked⟩
    · rw [hp.ctxs, Function.update_self, hctx]
      exact ⟨fun _ => rfl, fun _ => hstacked⟩
    · rcases hp.inherits hr' with ⟨_, hin⟩ | ⟨hbad, _⟩
      · exact hin.begun (Or.inl hst)
      · exact absurd rfl hbad
  · refine ⟨?_, fun r' hr' hs => ?_, fun r' hr' hu => ?_⟩
    · rw [hp.shape, hp.ctxs, Function.update_of_ne hd]
      exact (h d hd).stacked
    · rcases hp.inherits hr' with ⟨hbad, _⟩ | ⟨_, r0, hr0, hin⟩
      · exact absurd hbad hd
      · rw [hp.shape] at hs
        exact hin.begun ((h d hd).begun r0 hr0 hs)
    · rw [hp.shape]
      rcases hp.flags with ⟨rs, hrs, hfl⟩
      rw [hfl] at hr'
      -- The coroutine below is no longer running, and what else counts as use is as before.
      by_cases hds : d = s
      · rw [← hds, Function.update_of_ne hd] at hrs
        rw [hds, Function.update_self] at hr'
        injection hr' with hr'
        refine (h d hd).used rs hrs (Or.inl ?_)
        rw [← hr'] at hu
        rcases hu with hu | hu
        · exact hu
        · cases hu
      · rw [Function.update_of_ne hds, Function.update_of_ne hd] at hr'
        exact (h d hd).used r' hr' hu

/-- `MainMco` makes the context and the stack, and sets `start`. -/
theorem ready_mainMco {e : CallSite} (h : ∀ d, Ready w d) (d : McoRef) :
    Ready (w.mainMco t e).1 d := by
  by_cases h0 : (w.callstack t).index = 0
  · have hb := mainMco_booted w t e h0
    rcases hb.ctl with ⟨size, sp, hctl⟩
    by_cases hd : d = e.main
    · rcases hb.shape_main with ⟨a, b, q, hs⟩
      have hsome : ((w.mainMco t e).1.shape d).isSome = true := by
        rw [hd, hs]
        rfl
      refine ⟨?_, fun r hr _ => ?_, fun _ _ _ => hsome⟩
      · rw [ctxs_ctl, hctl, hd, Function.update_self, ← hd]
        exact ⟨fun _ => rfl, fun _ => hsome⟩
      · rw [flags_ctl, hctl, hd, Function.update_self, Option.map_some] at hr
        injection hr with hr
        rw [← hr]
        exact Or.inl rfl
    · refine (h d).congr ?_ (hb.shape d hd) ?_
      · rw [ctxs_ctl, ctxs_ctl, hctl, Function.update_of_ne hd]
      · rw [flags_ctl, flags_ctl, hctl, Function.update_of_ne hd]
  · rw [mainMco_of_nonempty h0]
    exact h d

/-- `McoCreate` makes neither. -/
theorem ready_created (h : ∀ d, Ready w d) (c : McoRef) (p : Bool) (d : McoRef) :
    Ready (w.mcoCreate c p) d := by
  by_cases hd : d = c
  · have hs : (w.mcoCreate c p).shape d = none := by
      rw [hd]
      simp only [shape, mcoCreate, Function.update_self, Option.map_none]
    refine ⟨?_, fun r _ hbad => ?_, fun r hr hu => ?_⟩
    · rw [hs, hd, ctxs_ctl, mcoCreate_ctl, Function.update_self]
      exact ⟨fun hbad => (by cases hbad), fun hbad => (by cases hbad)⟩
    · rw [hs] at hbad
      cases hbad
    -- A new coroutine has no stack, and has not been used.
    · rw [hd, flags_ctl, mcoCreate_ctl, Function.update_self, Option.map_some] at hr
      injection hr with hr
      rw [← hr] at hu
      rcases hu with (hu | hu) | hu <;> cases hu
  · refine (h d).congr ?_ ?_ ?_
    · rw [ctxs_ctl, mcoCreate_ctl, Function.update_of_ne hd, ← ctxs_ctl]
    · simp only [shape, mcoCreate, Function.update_of_ne hd]
    · rw [flags_ctl, mcoCreate_ctl, Function.update_of_ne hd, ← flags_ctl]

/-- `InitMcoContext` on `c` leaves the others as they are. -/
theorem ready_started {blk : Nat} (h : Ready w d) (hd : d ≠ c) :
    Ready (w.started t c r blk).1 d := by
  refine h.congr ?_ ?_ ?_
  · simp only [World.ctxs, World.started, initMcoContext, setCo, setStack, Function.update_of_ne hd]
  · simp only [shape, World.started, initMcoContext, setCo, setStack, Function.update_of_ne hd]
  · simp only [World.flags, World.started, initMcoContext, setCo, setStack,
      Function.update_of_ne hd]

/-- With a coroutine its context and its stack go. -/
theorem ready_freed {u : Tid} {co : Option McoRef} (h : ∀ d, Ready w d)
    (hf : w.mcoFree u co = .ok w') (d : McoRef) : Ready w' d := by
  rcases mcoFree_cases hf with ⟨_, rfl⟩ | ⟨c, r, _, hr, _, rfl⟩ | ⟨c, r, _, _, _, rfl⟩
  · exact h d
  · exact ready_setCo (v := { r with shouldClose := true }) h hr rfl rfl rfl rfl d
  · by_cases hd : d = c
    · rw [hd]
      refine ⟨?_, fun r' hr' => ?_, fun r' hr' => ?_⟩
      · rw [ctxs_ctl, mcoFree_ctl, Function.update_self]
        simp only [shape, Function.update_self, Option.map_none]
        decide
      · rw [flags_ctl, mcoFree_ctl, Function.update_self] at hr'
        cases hr'
      · rw [flags_ctl, mcoFree_ctl, Function.update_self] at hr'
        cases hr'
    · refine (h d).congr ?_ ?_ ?_
      · rw [ctxs_ctl, mcoFree_ctl, Function.update_of_ne hd, ← ctxs_ctl]
      · simp only [shape, Function.update_of_ne hd]
      · rw [flags_ctl, mcoFree_ctl, Function.update_of_ne hd, ← flags_ctl]

/-- `McoYield` takes one coroutine off the call stack, or does nothing. -/
theorem ready_yield {co : Option McoRef} {sp : Nat} (h : ∀ d, Ready w d)
    (hy : w.mcoYield t co sp = .ok w') (d : McoRef) : Ready w' d := by
  rcases mcoYield_flags hy with ⟨rfl, _⟩ | ⟨c, r, s, _, hr, hrun, _, htook⟩
  · exact h d
  · exact ready_tookOff h hr hrun htook d

/-- `McoResume` puts on top what has been started before or is started now, or
    yields. -/
theorem ready_resume {co : Option McoRef} {e : CallSite} (h : ∀ d, Ready w d)
    (hfresh : w.FreshMain t e) (hy : w.mcoResume t co e = .ok w') (d : McoRef) : Ready w' d := by
  have hm : ∀ d, Ready (w.mainMco t e).1 d := ready_mainMco h
  rcases mcoResume_cases hy with ⟨rfl, _⟩ | ⟨c, r, cur, rcur, _, hr, _, _, _, _, ⟨_, hy⟩ |
    ⟨_, hst, hp⟩ | ⟨_, _, hp⟩⟩
  · exact h d
  · exact ready_yield hm hy d
  · rcases pushCallstack_flags hp with ⟨s, hput⟩
    have hrm := mainMco_co hfresh hr
    -- What has been started has a context.
    have hctx := (hm c).stacked.mp ((hm c).used _ (flags_of_co hrm) (Or.inl (Or.inl hst)))
    rw [ctxs_of_co hrm] at hctx
    injection hctx with hctx
    exact ready_putOn (fun d _ => hm d) hst hctx hput d
  · rcases pushCallstack_flags hp with ⟨s, hput⟩
    exact ready_putOn (fun d hd => ready_started (hm d) hd) rfl rfl hput d

/-- The end of a callback is a yield of a coroutine that is marked as done. -/
theorem ready_finish {sp : Nat} (h : ∀ d, Ready w d) (hf : w.coroutineRun t sp = .ok w')
    (d : McoRef) : Ready w' d := by
  rcases coroutineRun_flags hf with ⟨c, r, s, _, hr, hrun, hdy, htook⟩
  have hfin : ({ r with done := true } : McoRoutine).finished = r.finished := by
    simp only [McoRoutine.finished, hdy, Bool.and_false]
  -- `done` alone does not finish a coroutine, so nothing changes before the yield.
  have hend := ready_setCo (v := { r with done := true }) h hr rfl rfl hfin rfl
  exact ready_tookOff hend (Function.update_self _ _ _) hrun htook d

/-- Every operation keeps every coroutine ready. -/
theorem ready_step {a : Op} (h : ∀ d, Ready w d) (ha : Admissible w a) (hstep : w.step a = .ok w')
    (d : McoRef) : Ready w' d := by
  cases a with
  | create t c p =>
      injection hstep with hstep
      rw [← hstep]
      exact ready_created h c p d
  | mainMco t e =>
      injection hstep with hstep
      rw [← hstep]
      exact ready_mainMco h d
  | resume t co e => exact ready_resume h ha.2.2.2 hstep d
  | yield t co sp => exact ready_yield h hstep d
  | finish t sp => exact ready_finish h hstep d
  | free t co => exact ready_freed h hstep d
  | write t x b =>
      injection hstep with hstep
      rw [← hstep]
      exact (h d).congr rfl rfl rfl

end Ready

end Fasco
