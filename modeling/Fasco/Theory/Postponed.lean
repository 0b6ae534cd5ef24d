import Fasco.Theory.Bottom
import Fasco.Theory.Flags

/-!
# A Postponed Free

`McoFree` of a running coroutine sets `should_close` and returns. The flag is
there to be read by whatever takes the coroutine off the call stack later, and
nothing reads it: `McoYield` clears `running` and switches, and the end of a
callback goes through `McoYield` too. So a coroutine that has been asked to go
and then gives up control is left over, off the call stack, alive.

In a run of one thread this is the only way for it to be there. A request is
made of a running coroutine, a running one is on top of the call stack, and
one that was on top leaves the slots below the index only in `McoYield`. Where
a coroutine is in two slots, because it was resumed from further up, the first
`McoYield` leaves it in the lower one.

Any coroutine may be freed here, those that wait in the call stack included,
and any may be resumed.

## Main definitions

* `Honoured`: No request is left over.
* `LeavesHonoured`: No operation leaves one over.
* `KeepsRequested`: No coroutine with a request leaves the call stack.
* `OnTop`: A running coroutine is on top.

## Theorems

* `TookOff.honoured_iff`: What taking a coroutine off leaves over.
* `requested_step`: What an operation leaves over.
* `honoured_along_iff`: A whole run.
* `requested_left_over`: A coroutine that is asked to go and yields.
-/

namespace Fasco

open World

/-- Every live coroutine with `should_close` set is running or in the call
    stack. -/
def Honoured (w : World) (t : Tid) : Prop :=
  ∀ c r, w.co c = some r → r.shouldClose = true → r.running = true ∨ ∃ i, w.InSlot t i c

/-- The operation leaves no request over. -/
def LeavesHonoured (t : Tid) (w : World) (a : Op) : Prop :=
  ∀ w', w.step a = .ok w' → Honoured w' t

/-- If the operation makes a `McoYield` of a coroutine with `should_close`
    set, the coroutine is in a second slot further down. -/
def KeepsRequested (w : World) (a : Op) : Prop :=
  ∀ v c r, w.yieldOf a = some (v, c) → v.co c = some r → r.running = true →
    r.finished = false → r.shouldClose = true → v.Waits a.thread c

/-- Any operation of thread `t`. -/
def ByThread (t : Tid) (w : World) (a : Op) : Prop := a.thread = t ∧ Admissible w a

instance (t : Tid) (w : World) (a : Op) : Decidable (ByThread t w a) :=
  inferInstanceAs (Decidable (_ ∧ _))

/-- A coroutine that is running is on top of the call stack of `t`. -/
def OnTop (w : World) (t : Tid) : Prop :=
  ∀ c r, w.flags c = some r → r.running = true → w.top t = some c

theorem honoured_iff_flags {w : World} {t : Tid} :
    Honoured w t ↔ ∀ c r, w.flags c = some r → r.shouldClose = true →
      r.running = true ∨ ∃ i, w.InSlot t i c := by
  constructor
  · intro h c r hr hsc
    rcases co_of_flags hr with ⟨r', hr', rfl⟩
    exact h c r' hr' hsc
  · intro h c r hr hsc
    exact h c (bare r) (flags_of_co hr) hsc

/-- What is running or asked to go was so before. -/
def Older (w w' : World) : Prop :=
  ∀ d r', w'.flags d = some r' → (r'.running = false ∧ r'.shouldClose = false) ∨
    ∃ r, w.flags d = some r ∧ r.running = r'.running ∧ r.shouldClose = r'.shouldClose

section Effects

variable {w w' : World} {t : Tid} {c s : McoRef} {r : McoRoutine}

theorem OnTop.older (h : OnTop w t) (ho : Older w w') (hcs : w'.callstack = w.callstack) :
    OnTop w' t := by
  intro d r' hr' hrun
  rcases ho d r' hr' with ⟨hno, _⟩ | ⟨r, hr, hrr, _⟩
  · rw [hno] at hrun
    cases hrun
  · rw [World.top, hcs]
    exact h d r hr (hrr.trans hrun)

theorem Honoured.older (h : Honoured w t) (ho : Older w w') (hcs : w'.callstack = w.callstack) :
    Honoured w' t := by
  rw [honoured_iff_flags] at h ⊢
  intro d r' hr' hsc
  rcases ho d r' hr' with ⟨_, hno⟩ | ⟨r, hr, hrr, hss⟩
  · rw [hno] at hsc
    cases hsc
  · unfold InSlot
    rw [hcs, ← hrr]
    exact h d r hr (hss.trans hsc)

/-- One record changes, in neither of the two flags. -/
theorem older_setCo {r' : McoRoutine} (hr : w.co c = some r) (hrun : r'.running = r.running)
    (hsc : r'.shouldClose = r.shouldClose) : Older w (w.setCo c r') := by
  intro d rd hrd
  rw [setCo_flags] at hrd
  by_cases hd : d = c
  · rw [hd, Function.update_self] at hrd
    injection hrd with hrd
    rw [← hrd, hd]
    exact Or.inr ⟨bare r, flags_of_co hr, hrun.symm, hsc.symm⟩
  · rw [Function.update_of_ne hd] at hrd
    exact Or.inr ⟨rd, hrd, rfl, rfl⟩

namespace World

/-! ### Taking off -/

theorem TookOff.onTop (h : TookOff w w' t c s r) (hj : OnTop w t) (hr : w.co c = some r)
    (hrun : r.running = true) : OnTop w' t := by
  intro d r' hr' hrun'
  rcases h.record hr' with ⟨rfl, _⟩ | ⟨_, _, rfl⟩ | ⟨_, hdc, hd⟩
  · rw [World.top, h.callstack, Function.update_self]
    exact McoCallStack.pop_fromTop_one h.below
  · cases hrun'
  · exfalso
    have h1 := hj d r' hd hrun'
    have h2 := hj c (bare r) (flags_of_co hr) hrun
    rw [h1] at h2
    injection h2 with h2
    exact hdc h2

/-- The slots afterwards are those below the top. -/
theorem TookOff.inSlot_iff (h : TookOff w w' t c s r) {d : McoRef} :
    (∃ i, w'.InSlot t i d) ↔ w.Waits t d := by
  unfold InSlot World.Waits
  rw [h.callstack, Function.update_self]
  constructor
  · rintro ⟨i, hi, hd⟩
    have hi' : i < (w.callstack t).index - 1 := hi
    exact ⟨i, by omega, hd⟩
  · rintro ⟨i, hi, hd⟩
    exact ⟨i, show i < (w.callstack t).index - 1 by omega, hd⟩

/-- A request of the coroutine that is taken off is left over, unless the
    coroutine is in a second slot. -/
theorem TookOff.honoured_iff (h : TookOff w w' t c s r) (hj : OnTop w t) (hh : Honoured w t)
    (hr : w.co c = some r) (hrun : r.running = true) :
    Honoured w' t ↔ (r.shouldClose = true → w.Waits t c) := by
  rw [honoured_iff_flags] at hh ⊢
  have hbelow := McoCallStack.fromTop_some h.below
  have hgive := r.giveUp_shouldClose
  constructor
  · intro hall hsc
    by_cases hcs : c = s
    · -- `c` was below itself.
      exact ⟨(w.callstack t).index - 2, by omega, by rw [hbelow.2, hcs]⟩
    · rcases h.flags with ⟨rs, _, hfl⟩
      have hc : w'.flags c = some (bare r.giveUp) := by
        rw [hfl, Function.update_of_ne hcs, Function.update_self]
      rcases hall c _ hc (hgive.trans hsc) with hbad | hslot
      · cases hbad
      · exact h.inSlot_iff.mp hslot
  · intro hw d r' hr' hsc
    rcases h.record hr' with ⟨_, hrun'⟩ | ⟨_, rfl, rfl⟩ | ⟨_, hdc, hd⟩
    · exact Or.inl hrun'
    · exact Or.inr (h.inSlot_iff.mpr (hw (hgive.symm.trans hsc)))
    · rcases hh d r' hd hsc with hrun' | ⟨i, hi, hslot⟩
      · exact Or.inl hrun'
      · refine Or.inr (h.inSlot_iff.mpr ⟨i, ?_, hslot⟩)
        -- The topmost slot is that of `c`.
        have htop := hj c (bare r) (flags_of_co hr) hrun
        have hne : i ≠ (w.callstack t).index - 1 := by
          rintro rfl
          rw [(McoCallStack.fromTop_some htop).2] at hslot
          injection hslot with hslot
          exact hdc hslot.symm
        omega

/-! ### Putting on -/

theorem PutOn.onTop (h : PutOn w w' t c s r) (hj : OnTop w t) : OnTop w' t := by
  intro d r' hr' hrun'
  rcases h.record hr' with ⟨_, hno⟩ | ⟨_, rfl, _⟩ | ⟨hds, _, hd⟩
  · rw [hno] at hrun'
    cases hrun'
  · rw [World.top, h.callstack, Function.update_self]
    exact McoCallStack.push_fromTop_one _ _
  · exfalso
    have h1 := hj d r' hd hrun'
    rw [h.below] at h1
    injection h1 with h1
    exact hds h1.symm

theorem PutOn.honoured (h : PutOn w w' t c s r) (hh : Honoured w t) : Honoured w' t := by
  rw [honoured_iff_flags] at hh ⊢
  -- Slots below the old index are still there.
  have hslot : ∀ i d, w.InSlot t i d → w'.InSlot t i d := by
    rintro i d ⟨hi, hd⟩
    unfold InSlot
    rw [h.callstack, Function.update_self, McoCallStack.push_index, McoCallStack.push_slot,
      if_neg (by omega)]
    exact ⟨by omega, hd⟩
  intro d r' hr' hsc
  rcases h.record hr' with ⟨rfl, _⟩ | ⟨_, _, hrun⟩ | ⟨hds, _, hd⟩
  · have hb := McoCallStack.fromTop_some h.below
    exact Or.inr ⟨_, hslot _ _ ⟨by omega, hb.2⟩⟩
  · exact Or.inl hrun
  · rcases hh d r' hd hsc with hrun | ⟨i, hi⟩
    · exact Or.inl hrun
    · exact Or.inr ⟨i, hslot i d hi⟩

/-! ### The main coroutine -/

theorem mainMco_requested {e : CallSite} (hj : OnTop w t) (hh : Honoured w t) :
    OnTop (w.mainMco t e).1 t ∧ Honoured (w.mainMco t e).1 t := by
  by_cases h0 : (w.callstack t).index = 0
  · -- Nothing is on the call stack, so nothing runs or is asked to go.
    have hrun : ∀ d r, w.flags d = some r → r.running = false := by
      intro d r hr
      rw [← Bool.not_eq_true]
      intro hrun
      have hbad := (McoCallStack.fromTop_some (hj d r hr hrun)).1
      omega
    rcases mainMco_flags h0 with ⟨size, sp, hfl⟩
    have hcs := (mainMco_booted w t e h0).callstack
    rw [honoured_iff_flags] at hh ⊢
    refine ⟨fun d r hr hd => ?_, fun d r hr hsc => ?_⟩
    · rw [hfl] at hr
      by_cases hdm : d = e.main
      · rw [World.top, hcs, Function.update_self, hdm]
        exact McoCallStack.push_fromTop_one _ _
      · rw [Function.update_of_ne hdm] at hr
        rw [hrun d r hr] at hd
        cases hd
    · rw [hfl] at hr
      by_cases hdm : d = e.main
      · rw [hdm, Function.update_self] at hr
        injection hr with hr
        rw [← hr] at hsc
        cases hsc
      · rw [Function.update_of_ne hdm] at hr
        rcases hh d r hr hsc with hbad | ⟨i, hi, _⟩
        · rw [hrun d r hr] at hbad
          cases hbad
        · omega
  · rw [mainMco_of_nonempty h0]
    exact ⟨hj, hh⟩

/-! ### A call of `McoYield` -/

/-- What a `McoYield` leaves over. -/
theorem mcoYield_requested {sp : Nat} (hj : OnTop w t) (hh : Honoured w t)
    (h : w.mcoYield t (some c) sp = .ok w') :
    OnTop w' t ∧ (Honoured w' t ↔ ∀ r, w.co c = some r → r.running = true →
      r.finished = false → r.shouldClose = true → w.Waits t c) := by
  rcases mcoYield_flags h with ⟨rfl, hq⟩ | ⟨d, r, s, hd, hr, hrun, hfin, htook⟩
  · refine ⟨hj, fun _ r hr hrun hfin _ => ?_, fun _ => hh⟩
    exfalso
    rcases hq c rfl with ⟨r', hr', hbad⟩
    rw [hr] at hr'
    injection hr' with hr'
    rw [← hr', hrun, hfin] at hbad
    rcases hbad with hbad | hbad
    · cases hbad
    · cases hbad
  · injection hd with hd
    rw [← hd] at hr htook
    refine ⟨htook.onTop hj hr hrun, (htook.honoured_iff hj hh hr hrun).trans ?_⟩
    constructor
    · intro hw r' hr' _ _ hsc
      rw [hr] at hr'
      injection hr' with hr'
      rw [← hr'] at hsc
      exact hw hsc
    · intro hw hsc
      exact hw r hr hrun hfin hsc

/-- A `McoFree` makes a request of a running coroutine, or destroys one that
    is not running. -/
theorem mcoFree_requested {u : Tid} {co : Option McoRef} (hj : OnTop w t) (hh : Honoured w t)
    (h : w.mcoFree u co = .ok w') : OnTop w' t ∧ Honoured w' t := by
  rcases mcoFree_cases h with ⟨_, rfl⟩ | ⟨c, r, _, hr, hrun, rfl⟩ | ⟨c, r, _, _, _, hw'⟩
  · exact ⟨hj, hh⟩
  · have hfl := setCo_flags w c { r with shouldClose := true }
    rw [honoured_iff_flags] at hh ⊢
    refine ⟨fun d rd hrd hd => ?_, fun d rd hrd hsc => ?_⟩
    · rw [hfl] at hrd
      by_cases hdc : d = c
      · rw [hdc]
        exact hj c (bare r) (flags_of_co hr) hrun
      · rw [Function.update_of_ne hdc] at hrd
        exact hj d rd hrd hd
    · rw [hfl] at hrd
      by_cases hdc : d = c
      · rw [hdc, Function.update_self] at hrd
        injection hrd with hrd
        rw [← hrd]
        exact Or.inl hrun
      · rw [Function.update_of_ne hdc] at hrd
        exact hh d rd hrd hsc
  · have hcs : w'.callstack = w.callstack := by
      rw [hw']
      by_cases ho : (w.mgr u).commonOccupy = some c
      · simp only [if_pos ho, setCommonOccupy]
      · simp only [if_neg ho]
    have hold : Older w w' := by
      intro d r' hr'
      rw [flags_ctl, hw', mcoFree_ctl] at hr'
      by_cases hd : d = c
      · rw [hd, Function.update_self] at hr'
        cases hr'
      · rw [Function.update_of_ne hd, ← flags_ctl] at hr'
        exact Or.inr ⟨r', hr', rfl, rfl⟩
    exact ⟨hj.older hold hcs, hh.older hold hcs⟩

end World

end Effects

/-! ### Operations -/

theorem keepsRequested_iff {w v : World} {a : Op} {c : McoRef} (hy : w.yieldOf a = some (v, c)) :
    KeepsRequested w a ↔ ∀ r, v.co c = some r → r.running = true → r.finished = false →
      r.shouldClose = true → v.Waits a.thread c := by
  constructor
  · intro h r
    exact h v c r hy
  · intro h v' c' r hy'
    rw [hy] at hy'
    injection hy' with hy'
    injection hy' with h1 h2
    rw [← h1, ← h2]
    exact h r

theorem keepsRequested_of_none {w : World} {a : Op} (hy : w.yieldOf a = none) :
    KeepsRequested w a := by
  intro v c r hy'
  rw [hy] at hy'
  cases hy'

/-- An operation that returns leaves a request over exactly if it takes a
    coroutine with a request off the call stack. -/
theorem requested_step {w w' : World} {t : Tid} {a : Op} (hj : OnTop w t) (hh : Honoured w t)
    (ha : ByThread t w a) (h : w.step a = .ok w') :
    OnTop w' t ∧ (Honoured w' t ↔ KeepsRequested w a) := by
  rcases ha with ⟨ht, _, hsup⟩
  -- Most operations take nobody off.
  have hquiet : ∀ {b : Op} {v' : World}, w.yieldOf b = none → OnTop v' t → Honoured v' t →
      OnTop v' t ∧ (Honoured v' t ↔ KeepsRequested w b) :=
    fun hy hj' hh' => ⟨hj', fun _ => keepsRequested_of_none hy, fun _ => hh'⟩
  cases a with
  | create u c p =>
      injection h with h
      rw [← h]
      have hold : Older w (w.mcoCreate c p) := by
        intro d r' hr'
        rw [flags_ctl, mcoCreate_ctl] at hr'
        by_cases hd : d = c
        · rw [hd, Function.update_self] at hr'
          injection hr' with hr'
          rw [← hr']
          exact Or.inl ⟨rfl, rfl⟩
        · rw [Function.update_of_ne hd, ← flags_ctl] at hr'
          exact Or.inr ⟨r', hr', rfl, rfl⟩
      exact hquiet rfl (hj.older hold rfl) (hh.older hold rfl)
  | mainMco u e =>
      change u = t at ht
      rw [ht] at h ⊢
      injection h with h
      rw [← h]
      exact hquiet rfl (mainMco_requested hj hh).1 (mainMco_requested hj hh).2
  | resume u co e =>
      change u = t at ht
      rw [ht] at h ⊢
      rcases mainMco_requested (e := e) hj hh with ⟨hjm, hhm⟩
      rcases mcoResume_cases h with ⟨rfl, hq⟩ | ⟨c, r, cur, rcur, rfl, hr, hrun, hfin, htop, hrcur,
        hcase⟩
      · cases hy : w'.yieldOf (.resume t co e) with
        | none => exact hquiet hy hj hh
        | some x =>
            -- The guard of `McoResume` lets through what is neither running nor finished.
            rcases yieldOf_resume.mp hy with ⟨_, _, c, r, hc, hr, hrun, hfin, _⟩
            rcases hq c hc with ⟨r', hr', hbad⟩
            rw [hr] at hr'
            injection hr' with hr'
            rw [← hr', hrun, hfin] at hbad
            rcases hbad with hbad | hbad
            · cases hbad
            · cases hbad
      · have hpush : rcur.sink ≠ some c → w.yieldOf (.resume t (some c) e) = none := by
          intro hsink
          rw [Option.eq_none_iff_forall_ne_some]
          rintro ⟨v, x⟩ hy
          rcases yieldOf_resume.mp hy with ⟨rfl, hx, d, _, hd, _, _, _, rx, hrx, hsx⟩
          have hxx : some x = some cur := hx.symm.trans htop
          injection hxx with hxx
          rw [hxx, hrcur] at hrx
          injection hrx with hrx
          rw [← hrx, ← hd] at hsx
          exact hsink hsx
        rcases hcase with ⟨hsink, hy⟩ | ⟨hsink, _, hp⟩ | ⟨hsink, _, hp⟩
        · have hof : w.yieldOf (.resume t (some c) e) = some ((w.mainMco t e).1, cur) :=
            yieldOf_resume.mpr ⟨rfl, htop, c, r, rfl, hr, hrun, hfin, rcur, hrcur, hsink⟩
          rw [keepsRequested_iff hof]
          exact mcoYield_requested hjm hhm hy
        · rcases pushCallstack_flags hp with ⟨s, hput⟩
          exact hquiet (hpush hsink) (hput.onTop hjm) (hput.honoured hhm)
        · -- The coroutine is started first.
          rw [ht] at hsup
          have hmain := mainMco_co hsup.2.2 hr
          have hold : Older (w.mainMco t e).1 ((w.mainMco t e).1.started t c r e.blk).1 :=
            older_setCo (w := (w.mainMco t e).1.setStack c _) hmain rfl rfl
          rcases pushCallstack_flags hp with ⟨s, hput⟩
          exact hquiet (hpush hsink) (hput.onTop (hjm.older hold rfl))
            (hput.honoured (hhm.older hold rfl))
  | yield u co sp =>
      change u = t at ht
      rw [ht] at h ⊢
      cases co with
      | none =>
          injection h with h
          rw [← h]
          exact hquiet rfl hj hh
      | some c =>
          rw [keepsRequested_iff (v := w) (c := c) rfl]
          exact mcoYield_requested hj hh h
  | finish u sp =>
      change u = t at ht
      rw [ht] at h ⊢
      rcases coroutineRun_cases h with ⟨c, r, hx, hr, _, _, hy⟩
      have hof : w.yieldOf (.finish t sp) = some (w.setCo c { r with done := true }, c) := by
        simp only [yieldOf, hx, hr, Option.bind_eq_bind, Option.bind_some]
      have hold : Older w (w.setCo c { r with done := true }) := older_setCo hr rfl rfl
      rw [keepsRequested_iff hof]
      exact mcoYield_requested (hj.older hold rfl) (hh.older hold rfl) hy
  | free u co => exact hquiet rfl (mcoFree_requested hj hh h).1 (mcoFree_requested hj hh h).2
  | write u x b =>
      injection h with h
      rw [← h]
      exact hquiet rfl hj hh

/-- In a run of operations of one thread, every coroutine that was asked to go
    while it was running is running, in the call stack or gone all along,
    exactly if no coroutine with a request is taken off the call stack. -/
theorem honoured_along_iff {w w' : World} {t : Tid} {as : List Op} (hinit : Init w)
    (hrun : Fallible.Runs World.step (ByThread t) w as w') :
    Fallible.Along World.step (LeavesHonoured t) w as ↔
      Fallible.Along World.step KeepsRequested w as := by
  refine Fallible.along_congr (I := fun v => OnTop v t ∧ Honoured v t) ?_ ?_ as w ?_ hrun.returns
  · rintro v a v' ⟨hj, hh⟩ ⟨ha, _⟩ hk hstep
    rcases requested_step hj hh ha hstep with ⟨hj', hiff⟩
    exact ⟨hj', hiff.mpr hk⟩
  · rintro v a ⟨hj, hh⟩ ⟨ha, v', hstep⟩
    have hiff := (requested_step hj hh ha hstep).2
    constructor
    · intro hl
      exact hiff.mp (hl v' hstep)
    · intro hk v'' hstep'
      rw [hstep] at hstep'
      injection hstep' with heq
      rw [← heq]
      exact hiff.mpr hk
  · have hnone : ∀ c, w.co c = none := hinit.co
    refine ⟨fun c r hr _ => ?_, fun c r hr _ => ?_⟩
    · rw [flags, hnone c] at hr
      cases hr
    · rw [hnone c] at hr
      cases hr

/-- A coroutine is asked to go while it runs. It is resumed from further up,
    leaves the upper slot, and is still in the lower one. -/
theorem honoured_along_iff_second_slot :
    let e : CallSite := { sp := 0x10fe0, main := 1, mainBlk := 0x7000, blk := 0 }
    let as : List Op := [.create 0 10 false, .create 0 11 false, .create 0 12 false,
      .resume 0 (some 10) e, .free 0 (some 10), .resume 0 (some 11) e, .resume 0 (some 12) e,
      .resume 0 (some 10) e, .yield 0 (some 10) 0x10fe0]
    Fallible.Along World.step (LeavesHonoured 0) World.blank as ↔
      Fallible.Along World.step KeepsRequested World.blank as :=
  honoured_along_iff blank_init (Fallible.Checks.runs (by decide))

/-- A coroutine is asked to go while it runs, and yields. It is alive with its
    request, not running and in no slot. The same after its callback has
    ended. -/
theorem requested_left_over :
    let e : CallSite := { sp := 0x10fe0, main := 1, mainBlk := 0x7000, blk := 0 }
    let as : List Op := [.create 0 10 false, .resume 0 (some 10) e, .free 0 (some 10),
      .yield 0 (some 10) 0x10fe0]
    let bs : List Op := [.create 0 10 false, .resume 0 (some 10) e, .free 0 (some 10),
      .finish 0 0x10fe0]
    (Fallible.Checks World.step (ByThread 0) World.blank as ∧
      ¬ Honoured (Fallible.after World.step World.blank as) 0) ∧
    (Fallible.Checks World.step (ByThread 0) World.blank bs ∧
      ¬ Honoured (Fallible.after World.step World.blank bs) 0) := by
  refine ⟨⟨by decide, fun h => ?_⟩, by decide, fun h => ?_⟩
  · rcases h 10 _ rfl rfl with hrun | ⟨i, hi, hslot⟩
    · cases hrun
    · -- Slot 0 holds the main coroutine.
      have h0 : i = 0 := Nat.lt_one_iff.mp hi
      rw [h0] at hslot
      exact absurd hslot (by decide)
  · rcases h 10 _ rfl rfl with hrun | ⟨i, hi, hslot⟩
    · cases hrun
    · have h0 : i = 0 := Nat.lt_one_iff.mp hi
      rw [h0] at hslot
      exact absurd hslot (by decide)

end Fasco
