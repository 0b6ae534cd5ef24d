import Fasco.Lib.Marks
import Fasco.Lib.Slots
import Fasco.Theory.Transition

/-!
# Who Is Running

The part of the bookkeeping that survives every use of `McoResume` on one
thread, however the call stack is abused: the coroutine on top of a thread's
call stack is the one the thread executes, it is the only one marked running,
and the context of every coroutine that is not running leads back into its own
code.

`Steady` is that invariant, over the lists of coroutines the call stacks hold.
Pushing keeps it always; popping keeps it when the coroutine below is not
itself running. It says nothing about the entries further down being distinct,
or about `sink`: those are facts about callers that behave.

## Main definitions

* `Sound`: What holds of each coroutine's own record.
* `Frames`: What each call stack holds, topmost first.
* `Steady`: Running flags, executing code and saved positions agree with the
  tops of the call stacks.
* `Poppable`: A thread that pops only its own coroutines, back to one that is
  not running.
* `booted`: The call stacks after `MainMco`.

## Theorems

* `Sound.resumed`, `Sound.parked`, `Sound.yielded`: A coroutine's record stays
  sound through what happens to it.
* `Steady.switched`: A thread goes over to another call stack.
* `Steady.mainMco`, `Steady.pushed`, `Steady.popped`, `Steady.created`,
  `Steady.freed`, `Steady.flagged`: Each effect keeps the invariant.
* `Steady.resume_moved`, `Steady.yield_moved`, `Steady.finish_moved`: Under
  the invariant each operation has one of the effects.
* `poppable_of_solo`: A lone thread can always pop.
-/

namespace Fasco

open World

/-- What holds of each coroutine's own record: a saved position leads back
    into the coroutine, a started one has a context and has not given up
    control for good, and the callback is called once, at the start. -/
structure Sound (c : McoRef) (r : McoRoutine) : Prop where
  regs : ∀ m, r.coctx.ctx = some m → r.running = false → m.regs = .inSwap (some c)
  begun : r.start = true → r.coctx.ctx.isSome ∧ r.doneYield = false
  calls : r.coctx.coruns ≤ 1
  fresh : r.start = false → r.doneYield = false → r.coctx.coruns = 0
  done : r.done = r.doneYield

theorem Sound.unfinished {c : McoRef} {r : McoRoutine} (h : Sound c r) :
    r.finished = false ↔ r.doneYield = false := by
  rw [McoRoutine.finished, h.done, Bool.and_self]

theorem Sound.main (t : Tid) (m : McoRef) (size sp : Nat) : Sound m (mainRecord t m size sp) where
  regs := fun _ _ hrun => by cases hrun
  begun := fun _ => ⟨rfl, rfl⟩
  calls := Nat.zero_le 1
  fresh := fun hst => by cases hst
  done := rfl

/-- A resume keeps a record sound. -/
theorem Sound.resumed {t : Tid} {cur c : McoRef} {r r' : McoRoutine} (h : Sound c r)
    (hfin : r.finished = false) (hres : Resumed t cur r r') : Sound c r' := by
  have hdy : r.doneYield = false := h.unfinished.mp hfin
  refine ⟨?_, ?_, ?_, ?_, ?_⟩
  · intro m _ hrun
    rw [hres.running] at hrun
    cases hrun
  · intro _
    exact ⟨hres.ctx, by rw [hres.doneYield, hdy]⟩
  · rw [hres.coruns]
    cases hst : r.start with
    | true =>
        rw [if_pos rfl]
        exact h.calls
    | false => rw [if_neg (by decide), h.fresh hst hdy]
  · intro hst
    rw [hres.start] at hst
    cases hst
  · rw [hres.done, hres.doneYield, h.done]

/-- So does the switch away from its coroutine. -/
theorem Sound.parked {c : McoRef} {r : McoRoutine} (h : Sound c r) :
    Sound c (parked (some c) { r with running := false }) := by
  refine ⟨?_, ?_, h.calls, h.fresh, h.done⟩
  · intro m hm _
    rcases Option.map_eq_some_iff.mp hm with ⟨m0, _, hm0⟩
    rw [← hm0]
  · intro hst
    refine ⟨?_, (h.begun hst).2⟩
    simp only [World.parked, Option.isSome_map]
    exact (h.begun hst).1

/-- So does a yield, or the end. -/
theorem Sound.yielded {c : McoRef} {r r' : McoRoutine} {ended : Bool} (h : Sound c r)
    (hy : Yielded c (r.ending ended) r') : Sound c r' := by
  rcases hy.ctx with ⟨m, hm, hregs⟩
  have hstart : r'.start = if (r.ending ended).done then false else r.start := hy.start
  have hdy : r'.doneYield = if (r.ending ended).done then true else r.doneYield := hy.doneYield
  have hcalls : r'.coctx.coruns = r.coctx.coruns := hy.coruns
  have hpos : ∀ m', r'.coctx.ctx = some m' → r'.running = false → m'.regs = .inSwap (some c) := by
    intro m' hm' _
    rw [hm] at hm'
    injection hm' with hm'
    rw [← hm']
    exact hregs
  cases hd : (r.ending ended).done with
  | true =>
      -- The callback has ended: the coroutine can no longer be started or switched to.
      rw [hd, if_pos rfl] at hstart hdy
      refine ⟨hpos, fun hst => ?_, by rw [hcalls]; exact h.calls, fun _ hf => ?_, ?_⟩
      · rw [hstart] at hst
        cases hst
      · rw [hdy] at hf
        cases hf
      · rw [hy.done, hd, hdy]
  | false =>
      rw [hd, if_neg (by decide)] at hstart hdy
      refine ⟨hpos, fun hst => ⟨by rw [hm]; rfl, ?_⟩, by rw [hcalls]; exact h.calls,
        fun hst hf => ?_, ?_⟩
      · rw [hstart] at hst
        rw [hdy]
        exact (h.begun hst).2
      · rw [hstart] at hst
        rw [hdy] at hf
        rw [hcalls]
        exact h.fresh hst hf
      · have hdone : r.done = false := by
          change (r.done || ended) = false at hd
          rw [Bool.or_eq_false_iff] at hd
          exact hd.1
        rw [hy.done, hd, hdy, ← h.done, hdone]

theorem Sound.regained {c : McoRef} {r : McoRoutine} (h : Sound c r) :
    Sound c { r with running := true } where
  regs := fun _ _ hrun => by cases hrun
  begun := h.begun
  calls := h.calls
  fresh := h.fresh
  done := h.done

theorem Sound.flagged {c : McoRef} {r : McoRoutine} (h : Sound c r) :
    Sound c { r with shouldClose := true } :=
  ⟨h.regs, h.begun, h.calls, h.fresh, h.done⟩

namespace World

/-- Whether a live coroutine is marked running. -/
def runs (w : World) (c : McoRef) : Option Bool := (w.ctl c).map (fun r => r.running)

/-- The coroutine is live and has a context. -/
def HasCtx (w : World) (c : McoRef) : Prop := ∃ r, w.ctl c = some r ∧ r.coctx.ctx.isSome

theorem runs_of_ctl {w : World} {c : McoRef} {r : McoRoutine} (h : w.ctl c = some r) :
    w.runs c = some r.running := by
  rw [runs, h, Option.map_some]

theorem ctl_of_runs {w : World} {c : McoRef} {b : Bool} (h : w.runs c = some b) :
    ∃ r, w.ctl c = some r ∧ r.running = b := Option.map_eq_some_iff.mp h

end World

/-- What each call stack holds, topmost first. -/
abbrev Frames := Tid → List McoRef

/-- The call stacks after `MainMco` on thread `t`, when the main coroutine it
    makes is at address `m`. -/
def booted (f : Frames) (t : Tid) (m : McoRef) : Frames :=
  if f t = [] then Function.update f t [m] else f

/-- Running flags, executing code and saved positions agree with the tops of
    the call stacks. -/
structure Steady (w : World) (f : Frames) : Prop where
  holds : ∀ t, Slots.Holds (w.callstack t).slot (w.callstack t).index (f t)
  exec : ∀ t, w.exec t = (f t).head?
  marks : Marks.Agrees (fun t => (f t).head?) w.runs
  ready : ∀ t c, c ∈ f t → w.HasCtx c
  apart : ∀ t, (f t).IsChain (· ≠ ·)
  sound : ∀ c r, w.ctl c = some r → Sound c r

/-- On thread `t` a running coroutine that passes the assertion of `McoYield`
    is the topmost, and the one below the topmost is not running. -/
structure Poppable (w : World) (f : Frames) (t : Tid) : Prop where
  owner : ∀ c r s, w.ctl c = some r → r.running = true → r.sink = some s →
    (w.callstack t).fromTop 2 = some s → (f t).head? = some c
  below : ∀ c s l, f t = c :: s :: l → w.runs s = some false

theorem booted_of_nonempty {f : Frames} {t : Tid} {m : McoRef} (h : f t ≠ []) :
    booted f t m = f := if_neg h

/-- A thread has a coroutine after `MainMco`. -/
theorem booted_ne_nil (f : Frames) (t : Tid) (m : McoRef) : booted f t m t ≠ [] := by
  unfold booted
  by_cases hnil : f t = []
  · rw [if_pos hnil, Function.update_self]
    exact List.cons_ne_nil _ _
  · rw [if_neg hnil]
    exact hnil

theorem steady_init {w : World} (h : Init w) : Steady w (fun _ => []) := by
  have hctl : ∀ c, w.ctl c = none := fun c => ctl_eq_none.mpr (h.co c)
  refine ⟨?_, ?_, ?_, ?_, ?_, ?_⟩
  · intro t
    rw [h.callstack t]
    trivial
  · intro t
    rw [h.exec t]
    rfl
  · refine ⟨fun c b hb => ?_, fun t u c ht => ?_⟩
    · rw [runs, hctl c] at hb
      cases hb
    · cases ht
  · intro t c hc
    cases hc
  · intro t
    exact List.IsChain.nil
  · intro c r hr
    rw [hctl c] at hr
    cases hr

namespace Steady

variable {w w' : World} {f : Frames} {t : Tid}

/-- The index is zero when nothing is in the call stack. -/
theorem empty_iff (hs : Steady w f) (t : Tid) : (w.callstack t).index = 0 ↔ f t = [] := by
  rw [← (hs.holds t).length, List.length_eq_zero_iff]

theorem fromTop_one (hs : Steady w f) (t : Tid) : (w.callstack t).fromTop 1 = (f t).head? := by
  unfold McoCallStack.fromTop
  by_cases h : 1 ≤ (w.callstack t).index
  · rw [if_pos h]
    exact (hs.holds t).top (by omega)
  · have h0 : f t = [] := (hs.empty_iff t).mp (by omega)
    rw [if_neg h, h0]
    rfl

theorem fromTop_two (hs : Steady w f) (t : Tid) :
    (w.callstack t).fromTop 2 = (f t).tail.head? := by
  unfold McoCallStack.fromTop
  have hlen := (hs.holds t).length
  by_cases h : 2 ≤ (w.callstack t).index
  · rw [if_pos h]
    exact (hs.holds t).second (by omega)
  · rw [if_neg h]
    have h0 : (f t).tail = [] := by
      apply List.eq_nil_of_length_eq_zero
      rw [List.length_tail]
      omega
    rw [h0]
    rfl

theorem fresh_not_mem (hs : Steady w f) {m : McoRef} (hm : w.ctl m = none) (u : Tid) :
    m ∉ f u := by
  intro hmem
  rcases hs.ready u m hmem with ⟨r, hr, _⟩
  rw [hm] at hr
  cases hr

/-- What is on top runs. -/
theorem head_runs (hs : Steady w f) {c : McoRef} (hc : (f t).head? = some c) :
    w.runs c = some true := by
  rcases hs.ready t c (List.mem_of_head? hc) with ⟨r, hr, _⟩
  have hrun := (hs.marks.mark_iff c _ (runs_of_ctl hr)).mpr ⟨t, hc⟩
  rw [runs_of_ctl hr, hrun]

/-- Where one thread is alone in using coroutines, what runs is on top of its
    call stack. -/
theorem head_of_solo (hs : Steady w f) (halone : ∀ u, u ≠ t → f u = []) {c : McoRef}
    (hrun : w.runs c = some true) : (f t).head? = some c := by
  rcases (hs.marks.mark_iff c _ hrun).mp rfl with ⟨u, hu⟩
  by_cases hut : u = t
  · rw [← hut, hu]
  · rw [halone u hut] at hu
    cases hu

/-- Only a topmost coroutine runs, so a thread that is alone in using
    coroutines pops its own, back to one that is not running. -/
theorem poppable_of_solo (hs : Steady w f) (halone : ∀ u, u ≠ t → f u = []) : Poppable w f t := by
  have hhead : ∀ c, w.runs c = some true → (f t).head? = some c :=
    fun c hrun => hs.head_of_solo halone hrun
  refine ⟨fun c r s hr hrun _ _ => hhead c (by rw [runs_of_ctl hr, hrun]), fun c s l hf => ?_⟩
  rcases hs.ready t s (by rw [hf]; exact List.mem_cons_of_mem c List.mem_cons_self) with ⟨r, hr, _⟩
  rw [runs_of_ctl hr]
  cases hrun : r.running with
  | false => rfl
  | true =>
      exfalso
      have hcs := hhead s (by rw [runs_of_ctl hr, hrun])
      have hne := hs.apart t
      rw [hf] at hcs hne
      injection hcs with hcs
      exact (List.isChain_cons_cons.mp hne).1 hcs

/-- A coroutine that is not running leads into its own code. -/
theorem leadsTo (hs : Steady w f) {s : McoRef} (hrun : w.runs s = some false)
    (hctx : w.HasCtx s) :
    ∃ r m, w.ctl s = some r ∧ r.coctx.ctx = some m ∧ m.regs = .inSwap (some s) := by
  rcases hctx with ⟨r, hr, hsome⟩
  rcases Option.isSome_iff_exists.mp hsome with ⟨m, hm⟩
  have hrf : r.running = false := by
    rw [runs_of_ctl hr] at hrun
    injection hrun
  exact ⟨r, m, hr, hm, (hs.sound s r hr).regs m hm hrf⟩

/-! ### Each effect keeps the invariant -/

theorem quiet (hs : Steady w f) (h : SameControl w w') : Steady w' f := by
  have hruns : w'.runs = w.runs := by
    funext c
    rw [runs, runs, h.ctl]
  refine ⟨?_, ?_, ?_, ?_, hs.apart, ?_⟩
  · rw [h.callstack]
    exact hs.holds
  · rw [h.exec]
    exact hs.exec
  · rw [hruns]
    exact hs.marks
  · intro u c hc
    unfold HasCtx
    rw [h.ctl]
    exact hs.ready u c hc
  · rw [h.ctl]
    exact hs.sound

/-- Thread `t` goes over to the call stack `l`. What there is to prove for the
    other threads is that their coroutines still have a context. -/
theorem switched (hs : Steady w f) {l : List McoRef} {cs : McoCallStack}
    (hcs : w'.callstack = Function.update w.callstack t cs)
    (hex : w'.exec = Function.update w.exec t l.head?)
    (hholds : Slots.Holds cs.slot cs.index l)
    (hmarks : Marks.Agrees (Function.update (fun u => (f u).head?) t l.head?) w'.runs)
    (hself : ∀ c ∈ l, w'.HasCtx c) (hother : ∀ u, u ≠ t → ∀ c ∈ f u, w'.HasCtx c)
    (hapart : l.IsChain (· ≠ ·)) (hsound : ∀ c r, w'.ctl c = some r → Sound c r) :
    Steady w' (Function.update f t l) := by
  refine ⟨?_, ?_, ?_, ?_, ?_, hsound⟩
  · intro u
    by_cases hu : u = t
    · rw [hu, hcs, Function.update_self, Function.update_self]
      exact hholds
    · rw [hcs, Function.update_of_ne hu, Function.update_of_ne hu]
      exact hs.holds u
  · intro u
    by_cases hu : u = t
    · rw [hu, hex, Function.update_self, Function.update_self]
    · rw [hex, Function.update_of_ne hu, Function.update_of_ne hu]
      exact hs.exec u
  · refine hmarks.congr (fun u => ?_) (fun _ => rfl)
    by_cases hu : u = t
    · rw [hu, Function.update_self, Function.update_self]
    · rw [Function.update_of_ne hu, Function.update_of_ne hu]
  · intro u c hc
    by_cases hu : u = t
    · rw [hu, Function.update_self] at hc
      exact hself c hc
    · rw [Function.update_of_ne hu] at hc
      exact hother u hu c hc
  · intro u
    by_cases hu : u = t
    · rw [hu, Function.update_self]
      exact hapart
    · rw [Function.update_of_ne hu]
      exact hs.apart u

/-- The main coroutine of a new thread is alone in its call stack. -/
theorem booted_steady (hs : Steady w f) {m : McoRef} (hm : w.ctl m = none)
    (h : Booted w w' t m) : Steady w' (Function.update f t [m]) := by
  rcases h.ctl with ⟨size, sp, hctl⟩
  have hempty : f t = [] := (hs.empty_iff t).mp h.empty
  have hself : w'.ctl m = some (mainRecord t m size sp) := by rw [hctl, Function.update_self]
  have hother : ∀ d, d ≠ m → w'.ctl d = w.ctl d := fun d hd => by
    rw [hctl, Function.update_of_ne hd]
  refine hs.switched h.callstack h.exec ?_ ?_ ?_ ?_ (List.IsChain.singleton m) ?_
  · have h0 := hs.holds t
    rw [h.empty, hempty] at h0
    rw [McoCallStack.push_index, h.empty]
    refine h0.push ?_ (fun i hi => absurd hi (Nat.not_lt_zero i))
    rw [McoCallStack.push_slot, if_pos h.empty.symm]
  · refine hs.marks.take (t := t) (x := m) (by rw [hempty]; rfl) ?_ rfl (runs_of_ctl hself) ?_
    · intro u hu
      exact hs.fresh_not_mem hm u (List.mem_of_head? hu)
    · intro d hd
      rw [runs, runs, hother d hd]
  · intro c hc
    rw [List.mem_singleton] at hc
    rw [hc]
    exact ⟨_, hself, rfl⟩
  · intro u _ c hc
    rcases hs.ready u c hc with ⟨r, hr, hctx⟩
    -- The address of the main coroutine was not in use.
    have hne : c ≠ m := by
      rintro rfl
      rw [hm] at hr
      cases hr
    exact ⟨r, by rw [hother c hne]; exact hr, hctx⟩
  · intro c r hr
    by_cases hc : c = m
    · rw [hc, hself] at hr
      injection hr with hr
      rw [← hr, hc]
      exact Sound.main t m size sp
    · rw [hother c hc] at hr
      exact hs.sound c r hr

/-- `MainMco`, whether or not it has anything to do. -/
theorem mainMco (hs : Steady w f) {e : CallSite} (hfresh : w.FreshMain t e) :
    Steady (w.mainMco t e).1 (booted f t e.main) := by
  by_cases h0 : (w.callstack t).index = 0
  · have hempty : f t = [] := (hs.empty_iff t).mp h0
    rw [booted, if_pos hempty]
    exact hs.booted_steady (ctl_eq_none.mpr (hfresh h0)) (mainMco_booted w t e h0)
  · have hne : f t ≠ [] := fun hc => h0 ((hs.empty_iff t).mpr hc)
    rw [mainMco_of_nonempty h0, booted_of_nonempty hne]
    exact hs

/-- Pushing a coroutine that is neither running nor finished. -/
theorem pushed (hs : Steady w f) {cur c : McoRef} {l : List McoRef} {r : McoRoutine}
    (hf : f t = cur :: l) (hr : w.ctl c = some r) (hrun : r.running = false)
    (hfin : r.finished = false) (h : Pushed w w' t cur c) :
    Steady w' (Function.update f t (c :: cur :: l)) := by
  rcases h.ctl_from with ⟨rc, hrc, hrc'⟩
  rcases h.ctl_to with ⟨r0, r', hr0, hr', hres⟩
  rw [hr] at hr0
  injection hr0 with hr0
  rw [← hr0] at hres
  -- Every entry still has a context: `c` has just been switched to, and `cur`'s was saved.
  have hkeep : ∀ d, w.HasCtx d → w'.HasCtx d := by
    intro d hd
    rcases hd with ⟨rd, hrd, hctx⟩
    by_cases hdc : d = c
    · rw [hdc]
      exact ⟨r', hr', hres.ctx⟩
    · by_cases hdcur : d = cur
      · rw [hdcur] at hrd ⊢
        rw [hrc] at hrd
        injection hrd with hrd
        refine ⟨_, hrc', ?_⟩
        simp only [World.parked, Option.isSome_map, hrd, hctx]
      · exact ⟨rd, by rw [h.ctl_other d hdcur hdc]; exact hrd, hctx⟩
  refine hs.switched h.callstack h.exec ?_ ?_ ?_ (fun u _ d hd => hkeep d (hs.ready u d hd)) ?_ ?_
  · rw [← hf]
    refine (hs.holds t).push ?_ (fun i hi => ?_)
    · rw [McoCallStack.push_slot, if_pos rfl]
    · rw [McoCallStack.push_slot, if_neg (by omega)]
  · refine hs.marks.handover (t := t) (a := cur) (x := c) (by rw [hf]; rfl) ?_ rfl ?_ ?_ ?_
    · rw [runs_of_ctl hr, hrun]
    · rw [runs_of_ctl hrc']
      rfl
    · rw [runs_of_ctl hr', hres.running]
    · intro d hd1 hd2
      rw [runs, runs, h.ctl_other d hd1 hd2]
  · intro d hd
    rw [← hf] at hd
    rcases List.mem_cons.mp hd with rfl | hd
    · exact ⟨r', hr', hres.ctx⟩
    · exact hkeep d (hs.ready t d hd)
  · have hchain := hs.apart t
    rw [hf] at hchain
    exact List.IsChain.cons_cons h.ne.symm hchain
  · intro d rd hrd
    by_cases hdc : d = c
    · rw [hdc, hr'] at hrd
      injection hrd with hrd
      rw [← hrd, hdc]
      exact (hs.sound c r hr).resumed hfin hres
    · by_cases hdcur : d = cur
      · rw [hdcur, hrc'] at hrd
        injection hrd with hrd
        rw [← hrd, hdcur]
        exact (hs.sound cur rc hrc).parked
      · rw [h.ctl_other d hdcur hdc] at hrd
        exact hs.sound d rd hrd

/-- Taking the topmost coroutine off, back to one that is not running. -/
theorem popped (hs : Steady w f) {c s : McoRef} {l : List McoRef} {ended : Bool}
    (hf : f t = c :: s :: l) (hrun : w.runs s = some false) (h : Popped w w' t c s ended) :
    Steady w' (Function.update f t (s :: l)) := by
  rcases h.ctl_from with ⟨rc, rc', hrc, hsink, hrc', hy⟩
  rcases h.ctl_to with ⟨rs, hrs, hrs'⟩
  -- Here `c` has the context it gave up control with, and `s` the one it had.
  have hkeep : ∀ d, w.HasCtx d → w'.HasCtx d := by
    intro d hd
    rcases hd with ⟨rd, hrd, hctx⟩
    by_cases hdc : d = c
    · rcases hy.ctx with ⟨m, hm, _⟩
      rw [hdc]
      exact ⟨rc', hrc', by rw [hm]; rfl⟩
    · by_cases hds : d = s
      · rw [hds] at hrd ⊢
        rw [hrs] at hrd
        injection hrd with hrd
        exact ⟨_, hrs', by rw [← hrd] at hctx; exact hctx⟩
      · exact ⟨rd, by rw [h.ctl_other d hdc hds]; exact hrd, hctx⟩
  refine hs.switched h.callstack h.exec ?_ ?_ ?_ (fun u _ d hd => hkeep d (hs.ready u d hd)) ?_ ?_
  · have hpop := (hs.holds t).pop
    rw [hf] at hpop
    exact hpop
  · refine hs.marks.handover (t := t) (a := c) (x := s) (by rw [hf]; rfl) hrun rfl ?_ ?_ ?_
    · rw [runs_of_ctl hrc', hy.running]
    · rw [runs_of_ctl hrs']
    · intro d hd1 hd2
      rw [runs, runs, h.ctl_other d hd1 hd2]
  · intro d hd
    refine hkeep d (hs.ready t d ?_)
    rw [hf]
    exact List.mem_cons_of_mem c hd
  · have hchain := hs.apart t
    rw [hf] at hchain
    exact hchain.tail
  · intro d rd hrd
    by_cases hdc : d = c
    · rw [hdc, hrc'] at hrd
      injection hrd with hrd
      rw [← hrd, hdc]
      exact (hs.sound c rc hrc).yielded hy
    · by_cases hds : d = s
      · rw [hds, hrs'] at hrd
        injection hrd with hrd
        rw [← hrd, hds]
        exact (hs.sound s rs hrs).regained
      · rw [h.ctl_other d hdc hds] at hrd
        exact hs.sound d rd hrd

/-- A coroutine's record changes, or the coroutine comes into being, without
    anyone being switched to. -/
theorem recorded (hs : Steady w f) {c : McoRef} {r : McoRoutine}
    (hctl : w'.ctl = Function.update w.ctl c (some r)) (hcs : w'.callstack = w.callstack)
    (hex : w'.exec = w.exec) (hsound : Sound c r)
    (hold : (∃ r0, w.ctl c = some r0 ∧ r0.running = r.running ∧
        r0.coctx.ctx.isSome = r.coctx.ctx.isSome) ∨
      (w.ctl c = none ∧ r.running = false)) : Steady w' f := by
  have hself : w'.ctl c = some r := by rw [hctl, Function.update_self]
  have hother : ∀ d, d ≠ c → w'.ctl d = w.ctl d := fun d hd => by
    rw [hctl, Function.update_of_ne hd]
  refine ⟨?_, ?_, ?_, ?_, hs.apart, ?_⟩
  · rw [hcs]
    exact hs.holds
  · rw [hex]
    exact hs.exec
  · have hruns : ∀ d, d ≠ c → w'.runs d = w.runs d := fun d hd => by
      rw [runs, runs, hother d hd]
    rcases hold with ⟨r0, hr0, hrun, _⟩ | ⟨hnone, hrun⟩
    · refine hs.marks.congr (fun _ => rfl) (fun d => ?_)
      by_cases hd : d = c
      · rw [hd, runs_of_ctl hself, runs_of_ctl hr0, hrun]
      · exact hruns d hd
    · refine hs.marks.insert (x := c) (fun u hu => ?_) ?_ hruns
      · exact hs.fresh_not_mem hnone u (List.mem_of_head? hu)
      · rw [runs_of_ctl hself, hrun]
  · intro u d hd
    rcases hs.ready u d hd with ⟨rd, hrd, hctx⟩
    by_cases hdc : d = c
    · rw [hdc] at hrd ⊢
      rcases hold with ⟨r0, hr0, _, hsome⟩ | ⟨hnone, _⟩
      · rw [hr0] at hrd
        injection hrd with hrd
        exact ⟨r, hself, by rw [← hsome, hrd]; exact hctx⟩
      · rw [hnone] at hrd
        cases hrd
    · exact ⟨rd, by rw [hother d hdc]; exact hrd, hctx⟩
  · intro d rd hrd
    by_cases hdc : d = c
    · rw [hdc, hself] at hrd
      injection hrd with hrd
      rw [← hrd, hdc]
      exact hsound
    · rw [hother d hdc] at hrd
      exact hs.sound d rd hrd

/-- A new coroutine is in no call stack. -/
theorem created (hs : Steady w f) {c : McoRef} {p : Bool} (hc : w.co c = none) :
    Steady (w.mcoCreate c p) f := by
  have hctl := World.mcoCreate_ctl w c p
  refine hs.recorded hctl rfl rfl ?_ (Or.inr ⟨ctl_eq_none.mpr hc, rfl⟩)
  refine ⟨fun m hm _ => ?_, fun hst => ?_, Nat.zero_le 1, fun _ _ => rfl, rfl⟩
  · cases hm
  · cases hst

theorem flagged (hs : Steady w f) {c : McoRef} {r : McoRoutine} (hr : w.co c = some r) :
    Steady (w.setCo c { r with shouldClose := true }) f := by
  have hc := ctl_of_co hr
  refine hs.recorded (setCo_ctl w c _) rfl rfl ?_ (Or.inl ⟨_, hc, rfl, rfl⟩)
  exact (hs.sound c _ hc).flagged

/-- A coroutine that is in no call stack goes away. -/
theorem freed (hs : Steady w f) {c : McoRef} (hnot : ∀ u, c ∉ f u)
    (hctl : w'.ctl = Function.update w.ctl c none) (hcs : w'.callstack = w.callstack)
    (hex : w'.exec = w.exec) : Steady w' f := by
  have hother : ∀ d, d ≠ c → w'.ctl d = w.ctl d := fun d hd => by
    rw [hctl, Function.update_of_ne hd]
  have hself : w'.ctl c = none := by rw [hctl, Function.update_self]
  refine ⟨?_, ?_, ?_, ?_, hs.apart, ?_⟩
  · rw [hcs]
    exact hs.holds
  · rw [hex]
    exact hs.exec
  · refine hs.marks.erase (x := c) (by rw [runs, hself]; rfl) (fun d hd => ?_)
    rw [runs, runs, hother d hd]
  · intro u d hd
    have hdc : d ≠ c := by
      rintro rfl
      exact hnot u hd
    rcases hs.ready u d hd with ⟨rd, hrd, hctx⟩
    exact ⟨rd, by rw [hother d hdc]; exact hrd, hctx⟩
  · intro d rd hrd
    by_cases hdc : d = c
    · rw [hdc, hself] at hrd
      cases hrd
    · rw [hother d hdc] at hrd
      exact hs.sound d rd hrd

/-! ### Which effect each operation has -/

/-- A yield does nothing, or takes the coroutine on top off. -/
theorem yield_moved {co : Option McoRef} {sp : Nat} (hs : Steady w f) (hp : Poppable w f t)
    (h : w.mcoYield t co sp = .ok w') :
    (w' = w ∧ ∀ c, co = some c →
      ∃ r, w.co c = some r ∧ (r.running = false ∨ r.finished = true)) ∨
    ∃ c s l, co = some c ∧ f t = c :: s :: l ∧ w.runs s = some false ∧
      Popped w w' t c s false := by
  rcases mcoYield_cases h with hq | ⟨c, r, s, hco, hr, hrun, _, hsink, hbelow, w1, h1, h2⟩
  · exact Or.inl hq
  · right
    have hhead := hp.owner c (forget r) s (ctl_of_co hr) hrun hsink hbelow
    rw [hs.fromTop_two t] at hbelow
    rcases List.head?_eq_some_iff.mp hhead with ⟨l, hl⟩
    rw [hl, List.tail_cons] at hbelow
    rcases List.head?_eq_some_iff.mp hbelow with ⟨l', hl'⟩
    rw [hl'] at hl
    have hne : c ≠ s := by
      have := hs.apart t
      rw [hl] at this
      exact (List.isChain_cons_cons.mp this).1
    have hrs := hp.below c s l' hl
    have hctx : w.HasCtx s :=
      hs.ready t s (by rw [hl]; exact List.mem_cons_of_mem c List.mem_cons_self)
    refine ⟨c, s, l', hco, hl, hrs, ?_⟩
    refine mcoYield_popped ?_ hne hr hsink ?_ (hs.leadsTo hrs hctx) h1 h2
    · rw [hs.exec t, hhead]
    · rw [hs.fromTop_two t, hl]
      rfl

/-- The end of a coroutine takes it off. -/
theorem finish_moved {sp : Nat} (hs : Steady w f) (hp : Poppable w f t)
    (h : w.coroutineRun t sp = .ok w') :
    ∃ c s l, f t = c :: s :: l ∧ w.runs s = some false ∧ Popped w w' t c s true := by
  rcases coroutineRun_cases h with ⟨c, r, hx, hr, hrun, hdy, h1⟩
  have hhead : (f t).head? = some c := by rw [← hs.exec t, hx]
  rcases mcoYield_cases h1 with ⟨_, hq⟩ | ⟨c', r', s, hco, hr', _, _, hsink, hbelow, w1, h2, h3⟩
  · rcases hq c rfl with ⟨r1, hr1, hbad⟩
    simp only [setCo, Function.update_self] at hr1
    injection hr1 with hr1
    rcases hbad with hbad | hbad
    · rw [← hr1] at hbad
      rw [hrun] at hbad
      cases hbad
    · rw [← hr1, McoRoutine.finished] at hbad
      simp only [hdy, Bool.and_false] at hbad
      cases hbad
  · injection hco with hco
    rw [← hco] at hr' h2 h3
    have hsink0 : r.sink = some s := by
      simp only [setCo, Function.update_self] at hr'
      injection hr' with hr'
      rw [← hr'] at hsink
      exact hsink
    have hb0 : (w.callstack t).fromTop 2 = some s := hbelow
    rw [hs.fromTop_two t] at hb0
    rcases List.head?_eq_some_iff.mp hhead with ⟨l, hl⟩
    rw [hl, List.tail_cons] at hb0
    rcases List.head?_eq_some_iff.mp hb0 with ⟨l', hl'⟩
    rw [hl'] at hl
    have hne : c ≠ s := by
      have := hs.apart t
      rw [hl] at this
      exact (List.isChain_cons_cons.mp this).1
    have hrs := hp.below c s l' hl
    have hctx : w.HasCtx s :=
      hs.ready t s (by rw [hl]; exact List.mem_cons_of_mem c List.mem_cons_self)
    rcases hs.leadsTo hrs hctx with ⟨rs, m, hrs', hm, hregs⟩
    refine ⟨c, s, l', hl, hrs, ?_⟩
    refine Popped.ended hr ?_
    refine mcoYield_popped ?_ hne hr' hsink hbelow ⟨rs, m, ?_, hm, hregs⟩ h2 h3
    · exact hx
    · rw [setCo_ctl, Function.update_of_ne hne.symm]
      exact hrs'

/-- The caller of `McoResume` has not finished, nor has a new main coroutine. -/
theorem mainMco_unfinished {e : CallSite} {cur : McoRef} {r : McoRoutine} (hs : Steady w f)
    (hcode : w.InCode t) (hhead : (booted f t e.main t).head? = some cur)
    (hr : (w.mainMco t e).1.co cur = some r) : r.finished = false := by
  by_cases h0 : (w.callstack t).index = 0
  · have hempty : f t = [] := (hs.empty_iff t).mp h0
    rw [booted, if_pos hempty, Function.update_self, List.head?_cons] at hhead
    injection hhead with hhead
    rcases (mainMco_booted w t e h0).ctl with ⟨size, sp, hctl⟩
    have hc := ctl_of_co hr
    rw [hctl, hhead, Function.update_self] at hc
    injection hc with hc
    change (forget r).finished = false
    rw [← hc]
    rfl
  · have hne : f t ≠ [] := fun hc => h0 ((hs.empty_iff t).mpr hc)
    rw [booted_of_nonempty hne] at hhead
    rw [mainMco_of_nonempty h0] at hr
    exact hcode cur r (by rw [hs.exec t, hhead]) hr

/-- A `McoResume` of a live coroutine that returns did nothing, since it was
    running or finished, or popped the caller, or pushed the coroutine. -/
theorem resume_moved {co : Option McoRef} {e : CallSite} (hs : Steady w f) (hcode : w.InCode t)
    (hfresh : w.FreshMain t e) (h : w.mcoResume t co e = .ok w') :
    (w' = w ∧ ∀ c, co = some c →
      ∃ r, w.co c = some r ∧ (r.running = true ∨ r.finished = true)) ∨
    ∃ c r cur l, co = some c ∧ w.co c = some r ∧ (w.mainMco t e).1.co c = some r ∧
      r.running = false ∧ r.finished = false ∧ booted f t e.main t = cur :: l ∧
      ((((w.mainMco t e).1.callstack t).fromTop 2 = some c ∧
          (w.mainMco t e).1.mcoYield t (some cur) e.sp = .ok w' ∧
          Popped (w.mainMco t e).1 w' t cur c false) ∨
        ((∃ rcur, (w.mainMco t e).1.co cur = some rcur ∧ rcur.sink ≠ some c) ∧
          ((r.start = true ∧ (w.mainMco t e).1.pushCallstack t c r e.sp = .ok w') ∨
           (r.start = false ∧ ((w.mainMco t e).1.started t c r e.blk).1.pushCallstack t c
              ((w.mainMco t e).1.started t c r e.blk).2 e.sp = .ok w')) ∧
          Pushed (w.mainMco t e).1 w' t cur c)) := by
  rcases mcoResume_cases h with hq | ⟨c, r, cur, rcur, hco, hr, hrun, hfin, htop, hrcur, hcase⟩
  · exact Or.inl hq
  · right
    have hb := hs.mainMco hfresh
    have hrb : (w.mainMco t e).1.co c = some r := mainMco_co hfresh hr
    have hhead : (booted f t e.main t).head? = some cur := by
      rw [← hb.fromTop_one t]
      exact htop
    have hx : (w.mainMco t e).1.exec t = some cur := by rw [hb.exec t, hhead]
    have hrunb : (w.mainMco t e).1.runs c = some false := by
      rw [runs_of_ctl (ctl_of_co hrb), ← hrun]
      rfl
    have hne : cur ≠ c := by
      rintro rfl
      rw [hb.head_runs hhead] at hrunb
      cases hrunb
    rcases List.head?_eq_some_iff.mp hhead with ⟨l, hl⟩
    refine ⟨c, r, cur, l, hco, hr, hrb, hrun, hfin, hl, ?_⟩
    rcases hcase with ⟨hsink, hy⟩ | ⟨hsink, hst, hpush⟩ | ⟨hsink, hst, hpush⟩
    · left
      rcases mcoYield_cases hy with ⟨rfl, hq⟩ | ⟨c', r', s, hco', hr', _, _, hsink', hbelow, w1,
        h1, h2⟩
      · -- `cur` is running, and the code of a finished coroutine makes no calls.
        exfalso
        rcases hq cur rfl with ⟨r1, hr1, hbad⟩
        rw [hrcur] at hr1
        injection hr1 with hr1
        rw [← hr1] at hbad
        rcases hbad with hbad | hbad
        · have hruns := hb.head_runs hhead
          rw [runs_of_ctl (ctl_of_co hrcur)] at hruns
          injection hruns with hruns
          change rcur.running = true at hruns
          rw [hbad] at hruns
          cases hruns
        · rw [hs.mainMco_unfinished hcode hhead hrcur] at hbad
          cases hbad
      · injection hco' with hco'
        rw [← hco', hrcur] at hr'
        injection hr' with hr'
        rw [← hr', hsink] at hsink'
        injection hsink' with hsink'
        rw [← hsink'] at hbelow h1 h2
        rw [← hco', ← hr'] at h1
        rw [← hco'] at h2
        refine ⟨hbelow, hy, ?_⟩
        have hmem : c ∈ booted f t e.main t := by
          rw [hb.fromTop_two t] at hbelow
          exact List.mem_of_mem_tail (List.mem_of_head? hbelow)
        exact mcoYield_popped hx hne hrcur hsink hbelow
          (hb.leadsTo hrunb (hb.ready t c hmem)) h1 h2
    · right
      refine ⟨⟨rcur, hrcur, hsink⟩, Or.inl ⟨hst, hpush⟩, ?_⟩
      have hbegun := ((hb.sound c _ (ctl_of_co hrb)).begun hst).1
      rcases Option.isSome_iff_exists.mp hbegun with ⟨m, hm⟩
      exact pushCallstack_pushed htop hx hne hrb hst hm
        ((hb.sound c _ (ctl_of_co hrb)).regs m hm hrun) hpush
    · right
      exact ⟨⟨rcur, hrcur, hsink⟩, Or.inr ⟨hst, hpush⟩,
        pushCallstack_started htop hx hne hrb hst hpush⟩

end Steady

end Fasco
