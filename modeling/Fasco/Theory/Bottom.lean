import Fasco.Core.Asserts
import Fasco.Theory.Contents

/-!
# The Bottom of the Call Stack

The main coroutine is put in slot 0 of an empty call stack, and everything
else goes on top of it. It has no coroutine to give control back to, and
nothing in `McoYield` says so: the function looks at `running`, which a main
coroutine is marked with whenever the thread's own code executes, and then
subtracts two from the index.

While another coroutine is on top, the one that yields is that one, so that
the index is two or more. The subscripts wrap only if the main coroutine is
alone and a `McoYield` of it is made. There are two ways to that. `MainMco`
gives the main coroutine out, and `McoYield` accepts it. And `McoResume` turns
into a `McoYield` of the running coroutine when its `sink` is the argument: a
main coroutine that has once been resumed from further up keeps the `sink` it
got there.

The assertions of `McoCallStack` are compiled out here, that of `McoYield` is
not.

## Main definitions

* `Subscript`: A subscript computed from the index.
* `World.yieldOf`: The `McoYield` an operation makes.
* `World.subscripts`: What an operation computes.
* `KeepsBottom`: An operation stays above the bottom.
* `LeavesMain`: No `McoYield` of the main coroutine while it is alone.
* `Grounded`: The invariant.

## Theorems

* `grounded_step`: The invariant is kept, and slot 0 as it is.
* `keepsBottom_iff`: One operation.
* `keepsBottom_along_iff`: A whole run.
* `yield_of_main`: The index goes to zero.
-/

namespace Fasco

open World

/-- `index - back`, computed when the index is `index`. -/
structure Subscript where
  index : Nat
  back : Nat
  deriving DecidableEq, Repr

/-- In `[0, index)`. A difference that wraps is not. -/
def Subscript.Inside (s : Subscript) : Prop := sizeSub s.index s.back < s.index

instance (s : Subscript) : Decidable s.Inside := inferInstanceAs (Decidable (_ < _))

theorem inside_of_le {i k : Nat} (hk : 0 < k) (hi : k ≤ i) : Subscript.Inside ⟨i, k⟩ := by
  simp only [Subscript.Inside, sizeSub, if_pos hi]
  omega

theorem not_inside_one : ¬ Subscript.Inside ⟨1, 2⟩ := by decide

namespace World

/-- The call of `McoYield` an operation makes: the state it is made in, and
    its argument. -/
def yieldOf (w : World) : Op → Option (World × McoRef)
  | .yield _ co _ => co.map (fun c => (w, c))
  | .resume t co e => do
    let c ← co
    let r ← w.co c
    if r.running || r.finished then none
    else
      let w := (w.mainMco t e).1
      let cur ← w.top t
      let rcur ← w.co cur
      if rcur.sink = some c then some (w, cur) else none
  | .finish t _ => do
    let c ← w.exec t
    let r ← w.co c
    some (w.setCo c { r with done := true }, c)
  | _ => none

/-- What `McoYield(c)` computes, up to its switch and in `getCurMco` after
    it. -/
def yieldSubscripts (w : World) (t : Tid) (c : McoRef) : List Subscript :=
  match w.co c with
  | none => []
  | some r =>
    let i := (w.callstack t).index
    if !r.running || r.finished then []
    else if r.sink ≠ (w.callstack t).fromTop 2 then [⟨i, 2⟩]
    else [⟨i, 2⟩, ⟨sizeSub i 1, 1⟩]

/-- What `McoResume(c)` computes itself, and in `getCurMco` if it switches to
    a coroutine that has been started before. -/
def resumeSubscripts (w : World) (t : Tid) (c : McoRef) (e : CallSite) : List Subscript :=
  match w.co c with
  | none => []
  | some r =>
    if r.running || r.finished then []
    else
      let i := ((w.mainMco t e).1.callstack t).index
      if (w.yieldOf (.resume t (some c) e)).isSome then [⟨i, 1⟩]
      else if r.start then [⟨i, 1⟩, ⟨i + 1, 2⟩, ⟨i + 1, 1⟩]
      else [⟨i, 1⟩, ⟨i + 1, 2⟩]

/-- The subscripts an operation computes. -/
def subscripts (w : World) (a : Op) : List Subscript :=
  (match a with
    | .resume t (some c) e => w.resumeSubscripts t c e
    | _ => []) ++
  match w.yieldOf a with
  | none => []
  | some (v, c) => v.yieldSubscripts a.thread c

end World

/-- The operation stays above the bottom of the call stack of `t`: the main
    coroutine stays where it is, no subscript is out of bounds, a `McoYield`
    that gets as far as that has a coroutine to switch to, and one that has
    nobody to return to does nothing. -/
structure KeepsBottom (t : Tid) (w : World) (a : Op) : Prop where
  main : ∀ m w', w.InSlot t 0 m → w.step a = .ok w' → w'.InSlot t 0 m
  inside : ∀ s ∈ w.subscripts a, s.Inside
  sink : ∀ v c r, w.yieldOf a = some (v, c) → v.co c = some r → r.running = true →
    r.finished = false → (v.callstack t).fromTop 2 = r.sink → r.sink.isSome
  nobody : ∀ c sp, a = .yield t (some c) sp → (w.callstack t).index < 2 ∨ w.sinkOf c = none →
    w.step a = .ok w

/-- The main coroutine, alone in the call stack, is not given to `McoYield`,
    nor is its `sink` to `McoResume`. -/
def LeavesMain (w : World) : Op → Prop
  | .yield t (some c) _ => (w.callstack t).index = 1 → (w.callstack t).slot 0 ≠ some c
  | .resume t (some c) _ => (w.callstack t).index = 1 →
      (∃ r, w.co c = some r ∧ r.running = false ∧ r.finished = false) →
      ∀ m, (w.callstack t).slot 0 = some m → w.sinkOf m ≠ some c
  | _ => True

/-- The operation is a `McoFree`. -/
def Op.frees : Op → Bool
  | .free _ _ => true
  | _ => false

/-- An operation of thread `t` other than `McoFree`, with any live coroutine
    as its argument. -/
def Switches (t : Tid) (w : World) (a : Op) : Prop :=
  a.thread = t ∧ Admissible w a ∧ a.frees = false

instance (t : Tid) (w : World) (a : Op) : Decidable (Switches t w a) :=
  inferInstanceAs (Decidable (_ ∧ _ ∧ _))

/-! ### The invariant -/

/-- On thread `t`, the only one to use coroutines, a main coroutine is at the
    bottom, and each coroutine above it has a `sink`. -/
structure Grounded (w : World) (t : Tid) (f : Frames) : Prop where
  steady : Steady w f
  alone : ∀ u, u ≠ t → f u = []
  base : ∀ c, (f t).getLast? = some c → w.mainOf c = some true
  sinks : ∀ c, c ∈ (f t).dropLast → (w.sinkOf c).isSome

theorem grounded_init {w : World} (h : Init w) (t : Tid) : Grounded w t (fun _ => []) :=
  ⟨steady_init h, fun _ _ => rfl, fun _ hc => (by cases hc), fun _ hc => (by cases hc)⟩

namespace Grounded

variable {w w' : World} {f : Frames} {t : Tid}

theorem poppable (hg : Grounded w t f) : Poppable w f t := hg.steady.poppable_of_solo hg.alone

/-- Only the topmost coroutine runs. -/
theorem head_of_running (hg : Grounded w t f) {c : McoRef} {r : McoRoutine} (hr : w.co c = some r)
    (hrun : r.running = true) : (f t).head? = some c := by
  refine hg.steady.head_of_solo hg.alone ?_
  rw [runs_of_ctl (ctl_of_co hr)]
  exact congrArg some hrun

theorem inSlot_zero (hg : Grounded w t f) {m : McoRef} :
    w.InSlot t 0 m ↔ (f t).getLast? = some m := by
  have hh := hg.steady.holds t
  constructor
  · rintro ⟨hpos, hm⟩
    rw [← hh.bottom hpos, hm]
  · intro hm
    have hpos := hh.pos (List.mem_of_getLast? hm)
    exact ⟨hpos, by rw [hh.bottom hpos, hm]⟩

theorem kept (hg : Grounded w t f) (hs : Steady w' f)
    (hctl : ∀ c, c ∈ f t → w'.mainOf c = w.mainOf c ∧ w'.sinkOf c = w.sinkOf c) :
    Grounded w' t f := by
  refine ⟨hs, hg.alone, fun c hc => ?_, fun c hc => ?_⟩
  · rw [(hctl c (List.mem_of_getLast? hc)).1]
    exact hg.base c hc
  · rw [(hctl c (List.dropLast_subset _ hc)).2]
    exact hg.sinks c hc

theorem mainMco (hg : Grounded w t f) {e : CallSite} (hfresh : w.FreshMain t e) :
    Grounded (w.mainMco t e).1 t (booted f t e.main) := by
  have hs := hg.steady.mainMco hfresh
  by_cases hnil : f t = []
  · have h0 := (hg.steady.empty_iff t).mpr hnil
    rcases (mainMco_booted w t e h0).ctl with ⟨size, sp, hctl⟩
    rw [booted, if_pos hnil] at hs ⊢
    refine ⟨hs, fun u hu => ?_, fun c hc => ?_, fun c hc => ?_⟩
    · rw [Function.update_of_ne hu, hg.alone u hu]
    · rw [Function.update_self, List.getLast?_singleton] at hc
      injection hc with hc
      rw [← hc, World.mainOf, hctl, Function.update_self]
      rfl
    · rw [Function.update_self] at hc
      cases hc
  · have hw : (w.mainMco t e).1 = w :=
      mainMco_of_nonempty (fun h0 => hnil ((hg.steady.empty_iff t).mp h0))
    rw [hw, booted_of_nonempty hnil]
    exact hg

theorem pushed (hg : Grounded w t f) {cur c : McoRef} {l : List McoRef} {r : McoRoutine}
    (hf : f t = cur :: l) (hr : w.ctl c = some r) (hrun : r.running = false)
    (hfin : r.finished = false) (h : Pushed w w' t cur c) :
    Grounded w' t (Function.update f t (c :: cur :: l)) := by
  refine ⟨hg.steady.pushed hf hr hrun hfin h, fun u hu => ?_, fun d hd => ?_, fun d hd => ?_⟩
  · rw [Function.update_of_ne hu, hg.alone u hu]
  · rw [Function.update_self, List.getLast?_cons_cons, ← hf] at hd
    rw [h.mainOf d]
    exact hg.base d hd
  · rw [Function.update_self, List.dropLast_cons_cons, ← hf] at hd
    rw [h.sinkOf d]
    by_cases hdc : d = c
    · rw [if_pos hdc]
      rfl
    · rw [if_neg hdc]
      rcases List.mem_cons.mp hd with hd | hd
      · exact absurd hd hdc
      · exact hg.sinks d hd

theorem popped (hg : Grounded w t f) {c s : McoRef} {l : List McoRef} {ended : Bool}
    (hf : f t = c :: s :: l) (h : Popped w w' t c s ended) :
    Grounded w' t (Function.update f t (s :: l)) := by
  refine ⟨hg.steady.popped hf (hg.poppable.below c s l hf) h, fun u hu => ?_, fun d hd => ?_,
    fun d hd => ?_⟩
  · rw [Function.update_of_ne hu, hg.alone u hu]
  · rw [Function.update_self, ← List.getLast?_cons_cons (a := c), ← hf] at hd
    rw [h.mainOf d]
    exact hg.base d hd
  · rw [Function.update_self] at hd
    rw [h.sinkOf d]
    refine hg.sinks d ?_
    rw [hf, List.dropLast_cons_cons]
    exact List.mem_cons_of_mem c hd

end Grounded

/-- An operation that returns keeps the invariant, and what is at the
    bottom. -/
theorem grounded_step {w w' : World} {t : Tid} {a : Op} {f : Frames} (hg : Grounded w t f)
    (ha : Switches t w a) (h : w.step a = .ok w') :
    ∃ f', Grounded w' t f' ∧ (f t ≠ [] → (f' t).getLast? = (f t).getLast?) := by
  rcases ha with ⟨ht, ⟨hcode, hsup⟩, hfree⟩
  cases a with
  | create u c p =>
      injection h with h
      rw [← h]
      refine ⟨f, hg.kept (hg.steady.created hsup) (fun d hd => ?_), fun _ => rfl⟩
      have hne : d ≠ c := by
        rintro rfl
        exact hg.steady.fresh_not_mem (ctl_eq_none.mpr hsup) t hd
      have hctl : (w.mcoCreate c p).ctl d = w.ctl d := by
        rw [mcoCreate_ctl, Function.update_of_ne hne]
      exact ⟨by rw [World.mainOf, World.mainOf, hctl], by rw [World.sinkOf, World.sinkOf, hctl]⟩
  | mainMco u e =>
      change u = t at ht
      rw [ht] at hsup h
      injection h with h
      rw [← h]
      exact ⟨_, hg.mainMco hsup, fun hne => by rw [booted_of_nonempty hne]⟩
  | resume u co e =>
      change u = t at ht
      change w.InCode u at hcode
      rw [ht] at hcode hsup h
      have hb := hg.mainMco hsup.2.2
      have hlast : f t ≠ [] → (booted f t e.main t).getLast? = (f t).getLast? :=
        fun hne => by rw [booted_of_nonempty hne]
      rcases hg.steady.resume_moved hcode hsup.2.2 h with ⟨rfl, _⟩ | ⟨c, r, cur, l, _, _, hrb, hrun,
        hfin, hf, ⟨hbelow, _, hpop⟩ | ⟨_, _, hpush⟩⟩
      · exact ⟨f, hg, fun _ => rfl⟩
      · rw [hb.steady.fromTop_two t, hf, List.tail_cons] at hbelow
        rcases List.head?_eq_some_iff.mp hbelow with ⟨l', hl'⟩
        rw [hl'] at hf
        refine ⟨_, hb.popped hf hpop, fun hne => ?_⟩
        rw [Function.update_self, ← hlast hne, hf, List.getLast?_cons_cons]
      · refine ⟨_, hb.pushed hf (ctl_of_co hrb) hrun hfin hpush, fun hne => ?_⟩
        rw [Function.update_self, ← hlast hne, hf, List.getLast?_cons_cons]
  | yield u co sp =>
      change u = t at ht
      rw [ht] at h
      rcases hg.steady.yield_moved hg.poppable h with ⟨rfl, _⟩ | ⟨c, s, l, _, hf, _, hpop⟩
      · exact ⟨f, hg, fun _ => rfl⟩
      · refine ⟨_, hg.popped hf hpop, fun _ => ?_⟩
        rw [Function.update_self, hf, List.getLast?_cons_cons]
  | finish u sp =>
      change u = t at ht
      rw [ht] at h
      rcases hg.steady.finish_moved hg.poppable h with ⟨c, s, l, hf, _, hpop⟩
      refine ⟨_, hg.popped hf hpop, fun _ => ?_⟩
      rw [Function.update_self, hf, List.getLast?_cons_cons]
  | free _ _ => cases hfree
  | write u x b =>
      injection h with h
      rw [← h]
      exact ⟨f, hg.kept (hg.steady.quiet ⟨rfl, rfl, rfl, rfl, fun _ => ⟨rfl, rfl⟩⟩)
        (fun _ _ => ⟨rfl, rfl⟩), fun _ => rfl⟩

/-! ### One operation -/

/-- The `McoYield` in a `McoResume` is of the coroutine on top, whose `sink`
    is to be resumed. -/
theorem yieldOf_resume {w v : World} {t : Tid} {co : Option McoRef} {e : CallSite} {cur : McoRef} :
    w.yieldOf (.resume t co e) = some (v, cur) ↔
      v = (w.mainMco t e).1 ∧ v.top t = some cur ∧ ∃ c r, co = some c ∧ w.co c = some r ∧
        r.running = false ∧ r.finished = false ∧ ∃ rcur, v.co cur = some rcur ∧
        rcur.sink = some c := by
  constructor
  · intro h
    rcases Option.bind_eq_some_iff.mp h with ⟨c, hc, h⟩
    rcases Option.bind_eq_some_iff.mp h with ⟨r, hr, h⟩
    by_cases hign : (r.running || r.finished) = true
    · rw [if_pos hign] at h
      cases h
    · rw [if_neg hign] at h
      simp only [Bool.not_eq_true, Bool.or_eq_false_iff] at hign
      rcases Option.bind_eq_some_iff.mp h with ⟨x, hx, h⟩
      rcases Option.bind_eq_some_iff.mp h with ⟨rx, hrx, h⟩
      by_cases hsink : rx.sink = some c
      · rw [if_pos hsink] at h
        injection h with h
        injection h with h1 h2
        subst h1 h2
        exact ⟨rfl, hx, c, r, hc, hr, hign.1, hign.2, rx, hrx, hsink⟩
      · rw [if_neg hsink] at h
        cases h
  · rintro ⟨rfl, htop, c, r, rfl, hr, hrun, hfin, rcur, hrcur, hsink⟩
    simp only [yieldOf, Option.bind_eq_bind, Option.bind_some, hr, hrun, hfin, Bool.or_self,
      Bool.false_eq_true, if_false, htop, hrcur, if_pos hsink]

theorem yieldSubscripts_running {w : World} {t : Tid} {c : McoRef} {r : McoRoutine}
    (hr : w.co c = some r) (hrun : r.running = true) (hfin : r.finished = false) :
    (⟨(w.callstack t).index, 2⟩ : Subscript) ∈ w.yieldSubscripts t c := by
  simp only [yieldSubscripts, hr, hrun, hfin, Bool.not_true, Bool.or_self, Bool.false_eq_true,
    if_false]
  by_cases hs : r.sink ≠ (w.callstack t).fromTop 2
  · rw [if_pos hs]
    exact List.mem_cons_self
  · rw [if_neg hs]
    exact List.mem_cons_self

namespace Grounded

variable {w : World} {f : Frames} {t : Tid}

/-- The coroutine on top of a call stack of one is the one at the bottom. -/
theorem single (hg : Grounded w t f) {c : McoRef} (hhead : (f t).head? = some c)
    (h : ¬ 2 ≤ (w.callstack t).index) :
    f t = [c] ∧ (w.callstack t).index = 1 ∧ (w.callstack t).slot 0 = some c := by
  have hh := hg.steady.holds t
  rcases List.head?_eq_some_iff.mp hhead with ⟨l, hl⟩
  have hlen := hh.length
  rw [hl, List.length_cons] at hlen
  have hnil : l = [] := List.eq_nil_of_length_eq_zero (by omega)
  rw [hnil] at hl
  refine ⟨hl, by omega, ?_⟩
  rw [hh.bottom (by omega), hl]
  rfl

theorem head_of_single (hg : Grounded w t f) {c : McoRef} (hi : (w.callstack t).index = 1)
    (h0 : (w.callstack t).slot 0 = some c) : (f t).head? = some c := by
  rw [← (hg.steady.holds t).top (by omega), hi]
  exact h0

/-- The coroutine on top of the calling thread's call stack is running, and
    its code has not ended. -/
theorem top_runs (hg : Grounded w t f) (hcode : w.InCode t) {c : McoRef}
    (hhead : (f t).head? = some c) :
    ∃ r, w.co c = some r ∧ r.running = true ∧ r.finished = false := by
  rcases ctl_of_runs (hg.steady.head_runs hhead) with ⟨r', hr', hrun⟩
  rcases co_of_ctl hr' with ⟨r, hr, hforget⟩
  refine ⟨r, hr, ?_, hcode c r (by rw [hg.steady.exec t, hhead]) hr⟩
  rw [← hforget] at hrun
  exact hrun

/-- As long as the main coroutine is left alone, a coroutine that yields has
    another one below it. -/
theorem yieldOf_above {a : Op} (hg : Grounded w t f) (ha : Switches t w a) (hl : LeavesMain w a)
    {v : World} {c : McoRef} {r : McoRoutine} (hy : w.yieldOf a = some (v, c))
    (hr : v.co c = some r) (hrun : r.running = true) :
    2 ≤ (v.callstack t).index ∧ ((v.callstack t).fromTop 2).isSome := by
  rcases ha with ⟨ht, ⟨hcode, hsup⟩, _⟩
  -- What is below the top of two or more.
  have hbelow : ∀ {v : World} {g : Frames}, Steady v g → 2 ≤ (v.callstack t).index →
      2 ≤ (v.callstack t).index ∧ ((v.callstack t).fromTop 2).isSome := by
    intro v g hs h2
    rcases (hs.holds t).slot_some (i := (v.callstack t).index - 2) (by omega) with ⟨d, hd⟩
    refine ⟨h2, ?_⟩
    rw [McoCallStack.fromTop, if_pos h2, hd]
    rfl
  cases a with
  | yield u co sp =>
      change u = t at ht
      rcases Option.map_eq_some_iff.mp hy with ⟨d, hd, heq⟩
      injection heq with h1 h2
      rw [h2] at hd
      rw [← h1] at hr ⊢
      by_contra hlt
      -- Alone in the call stack it would be the main coroutine, which is left alone.
      rcases hg.single (hg.head_of_running hr hrun)
        (fun h2 => hlt (hbelow hg.steady h2)) with ⟨_, hi, h0⟩
      rw [hd, ht] at hl
      exact hl hi h0
  | resume u co e =>
      change u = t at ht
      rw [ht] at hy hl hsup
      rcases yieldOf_resume.mp hy with ⟨rfl, htop, d, rd, hco, hrd, hdrun, hdfin, rcur, hrcur,
        hsink⟩
      have hb := hg.mainMco hsup.2.2
      by_contra hlt
      have hhead : (booted f t e.main t).head? = some c := by
        rw [← hb.steady.fromTop_one t]
        exact htop
      rcases hb.single hhead (fun h2 => hlt (hbelow hb.steady h2)) with ⟨hf, hi, h0⟩
      by_cases hnil : f t = []
      · -- A main coroutine that has just been made has no `sink`.
        have h0 := (hg.steady.empty_iff t).mpr hnil
        rcases (mainMco_booted w t e h0).ctl with ⟨size, sp, hctl⟩
        rw [booted, if_pos hnil, Function.update_self] at hf
        injection hf with hf
        have hc := ctl_of_co hrcur
        rw [hctl, hf, Function.update_self] at hc
        injection hc with hc
        have hs : (mainRecord t c size sp).sink = rcur.sink := by
          rw [hc]
          rfl
        rw [hsink] at hs
        cases hs
      · have hw : (w.mainMco t e).1 = w :=
          mainMco_of_nonempty (fun h0 => hnil ((hg.steady.empty_iff t).mp h0))
        rw [hw] at hi h0 hrcur
        rw [hco] at hl
        exact hl hi ⟨rd, hrd, hdrun, hdfin⟩ c h0 (by
          rw [sinkOf_ctl (ctl_of_co hrcur)]
          exact hsink)
  | finish u sp =>
      change u = t at ht
      rw [ht] at hy hsup
      rcases Option.bind_eq_some_iff.mp hy with ⟨d, hd, h⟩
      rcases Option.bind_eq_some_iff.mp h with ⟨rd, hrd, h⟩
      injection h with h
      injection h with h1 h2
      rw [← h1]
      refine hbelow (v := w) hg.steady ?_
      by_contra hlt
      have hhead : (f t).head? = some d := by rw [← hg.steady.exec t, hd]
      -- The callback that ends is not a main coroutine's, and only that is alone.
      have hmain := hg.base d (by rw [(hg.single hhead hlt).1]; rfl)
      rcases hsup.1 with ⟨d', r', hd', hr', hm⟩
      rw [hd] at hd'
      injection hd' with hd'
      rw [← hd'] at hr'
      rw [World.mainOf, ctl_of_co hr'] at hmain
      injection hmain with hmain
      change r'.isMain = true at hmain
      rw [hm] at hmain
      cases hmain
  | create _ _ _ => cases hy
  | mainMco _ _ => cases hy
  | free _ _ => cases hy
  | write _ _ _ => cases hy

end Grounded

/-- What `McoYield` computes is in bounds if there is a coroutine below. -/
theorem yieldSubscripts_inside {v : World} {t : Tid} {c : McoRef}
    (h : ∀ r, v.co c = some r → r.running = true → 2 ≤ (v.callstack t).index) :
    ∀ s ∈ v.yieldSubscripts t c, s.Inside := by
  intro s hs
  unfold yieldSubscripts at hs
  cases hr : v.co c with
  | none =>
      rw [hr] at hs
      cases hs
  | some r =>
      rw [hr] at hs
      simp only [] at hs
      by_cases hign : (!r.running || r.finished) = true
      · rw [if_pos hign] at hs
        cases hs
      · rw [if_neg hign] at hs
        simp only [Bool.not_eq_true, Bool.or_eq_false_iff, Bool.not_eq_false'] at hign
        have h2 := h r hr hign.1
        -- Each subscript computed is less than the index.
        have hfirst := inside_of_le (k := 2) (by omega) h2
        by_cases hsink : r.sink ≠ (v.callstack t).fromTop 2
        · rw [if_pos hsink] at hs
          rw [List.mem_singleton.mp hs]
          exact hfirst
        · rw [if_neg hsink] at hs
          rcases List.mem_cons.mp hs with rfl | hs
          · exact hfirst
          · rw [List.mem_singleton.mp hs]
            refine inside_of_le (by omega) ?_
            rw [sizeSub, if_pos (by omega)]
            omega

/-- What `McoResume` computes itself is in bounds, once there is a main
    coroutine. -/
theorem resumeSubscripts_inside {w : World} {t : Tid} {c : McoRef} {e : CallSite}
    (h : 0 < ((w.mainMco t e).1.callstack t).index) :
    ∀ s ∈ w.resumeSubscripts t c e, s.Inside := by
  intro s hs
  have h1 := inside_of_le (k := 1) (by omega) h
  have h2 := inside_of_le (i := ((w.mainMco t e).1.callstack t).index + 1) (k := 2) (by omega)
    (by omega)
  have h3 := inside_of_le (i := ((w.mainMco t e).1.callstack t).index + 1) (k := 1) (by omega)
    (by omega)
  unfold resumeSubscripts at hs
  cases hr : w.co c with
  | none =>
      rw [hr] at hs
      cases hs
  | some r =>
      rw [hr] at hs
      simp only [] at hs
      split at hs
      · cases hs
      · split at hs
        · rw [List.mem_singleton.mp hs]
          exact h1
        · split at hs
          · simp only [List.mem_cons, List.not_mem_nil, or_false] at hs
            rcases hs with rfl | rfl | rfl
            · exact h1
            · exact h2
            · exact h3
          · simp only [List.mem_cons, List.not_mem_nil, or_false] at hs
            rcases hs with rfl | rfl
            · exact h1
            · exact h2

-- The index after `MainMco`.
theorem Grounded.mainMco_pos {w : World} {t : Tid} {f : Frames} {e : CallSite}
    (hg : Grounded w t f) (hfresh : w.FreshMain t e) :
    0 < ((w.mainMco t e).1.callstack t).index := by
  have hb := hg.mainMco hfresh
  refine Nat.pos_of_ne_zero (fun h0 => ?_)
  exact booted_ne_nil f t e.main ((hb.steady.empty_iff t).mp h0)

/-- A `McoYield` of a coroutine that has nobody to return to does nothing, the
    main coroutine apart. -/
theorem Grounded.yield_nobody {w : World} {t : Tid} {f : Frames} {c : McoRef} {sp : Nat}
    (hg : Grounded w t f) (ha : Switches t w (.yield t (some c) sp))
    (hl : LeavesMain w (.yield t (some c) sp))
    (hnobody : (w.callstack t).index < 2 ∨ w.sinkOf c = none) :
    w.step (.yield t (some c) sp) = .ok w := by
  rcases Option.isSome_iff_exists.mp (ha.2.1.2.1 c rfl) with ⟨r, hr⟩
  by_cases hign : (!r.running || r.finished) = true
  · simp only [World.step, mcoYield, hr, if_pos hign]
  · exfalso
    simp only [Bool.not_eq_true, Bool.or_eq_false_iff, Bool.not_eq_false'] at hign
    have hhead := hg.head_of_running hr hign.1
    have h2 := (hg.yieldOf_above ha hl (v := w) rfl hr hign.1).1
    rcases hnobody with hlt | hnone
    · omega
    · -- A coroutine on top of another has a `sink`.
      have hlen := (hg.steady.holds t).length
      rcases List.head?_eq_some_iff.mp hhead with ⟨l, hf⟩
      have hmem : c ∈ (f t).dropLast := by
        rw [hf] at hlen ⊢
        cases l with
        | nil =>
            rw [List.length_singleton] at hlen
            omega
        | cons d l =>
            rw [List.dropLast_cons_cons]
            exact List.mem_cons_self
      have hsome := hg.sinks c hmem
      rw [hnone] at hsome
      cases hsome

-- A `McoYield` of the main coroutine, alone in the call stack, computes a subscript that wraps.
theorem not_inside_of_alone {w v : World} {t : Tid} {f : Frames} {a : Op} {m : McoRef}
    (hg : Grounded v t f) (hcode : v.InCode t) (ht : a.thread = t)
    (hy : w.yieldOf a = some (v, m)) (hi : (v.callstack t).index = 1)
    (h0 : (v.callstack t).slot 0 = some m) : ¬ ∀ s ∈ w.subscripts a, s.Inside := by
  intro hin
  rcases hg.top_runs hcode (hg.head_of_single hi h0) with ⟨r, hr, hrun, hfin⟩
  have hmem := yieldSubscripts_running (t := t) hr hrun hfin
  rw [hi] at hmem
  refine not_inside_one (hin _ (List.mem_append_right _ ?_))
  rw [hy, ht]
  exact hmem

/-- An operation stays above the bottom exactly if it leaves the main
    coroutine alone. -/
theorem keepsBottom_iff {w : World} {t : Tid} {a : Op} (hg : ∃ f, Grounded w t f)
    (ha : Switches t w a) : KeepsBottom t w a ↔ LeavesMain w a := by
  rcases hg with ⟨f, hg⟩
  have hsw := ha
  rcases ha with ⟨ht, ⟨hcode, hsup⟩, _⟩
  constructor
  · intro hk
    cases a with
    | yield u co sp =>
        cases co with
        | none => trivial
        | some c =>
            change u = t at ht
            change w.InCode u at hcode
            rw [ht] at hcode hk ⊢
            intro hi h0
            exact not_inside_of_alone hg hcode rfl rfl hi h0 hk.inside
    | resume u co e =>
        cases co with
        | none => trivial
        | some c =>
            change u = t at ht
            change w.InCode u at hcode
            rw [ht] at hcode hk ⊢
            rintro hi ⟨r, hr, hrun, hfin⟩ m h0 hsink
            have hw : (w.mainMco t e).1 = w := mainMco_of_nonempty (by omega)
            rcases hg.top_runs hcode (hg.head_of_single hi h0) with ⟨rm, hrm, _⟩
            rw [sinkOf_ctl (ctl_of_co hrm)] at hsink
            have htop : w.top t = some m := by
              rw [World.top, hg.steady.fromTop_one t]
              exact hg.head_of_single hi h0
            have hy : w.yieldOf (.resume t (some c) e) = some (w, m) :=
              yieldOf_resume.mpr ⟨hw.symm, htop, c, r, rfl, hr, hrun, hfin, rm, hrm, hsink⟩
            -- The resume would be a yield of the main coroutine.
            exact not_inside_of_alone hg hcode rfl hy hi h0 hk.inside
    | create _ _ _ => trivial
    | mainMco _ _ => trivial
    | finish _ _ => trivial
    | free _ _ => trivial
    | write _ _ _ => trivial
  · intro hl
    refine ⟨fun m w' hm h => ?_, fun s hs => ?_, fun v c r hy hr hrun _ hsink => ?_,
      fun c sp heq hnobody => ?_⟩
    · rcases grounded_step hg hsw h with ⟨f', hg', hlast⟩
      have hm' := hg.inSlot_zero.mp hm
      refine hg'.inSlot_zero.mpr ?_
      rw [hlast (fun hnil => by rw [hnil] at hm'; cases hm'), hm']
    · rcases List.mem_append.mp hs with hs | hs
      · cases a with
        | resume u co e =>
            change u = t at ht
            rw [ht] at hs hsup
            cases co with
            | none => cases hs
            | some c => exact resumeSubscripts_inside (hg.mainMco_pos hsup.2.2) s hs
        | create _ _ _ => cases hs
        | mainMco _ _ => cases hs
        | yield _ _ _ => cases hs
        | finish _ _ => cases hs
        | free _ _ => cases hs
        | write _ _ _ => cases hs
      · cases hy : w.yieldOf a with
        | none =>
            rw [hy] at hs
            cases hs
        | some x =>
            rw [hy, ht] at hs
            exact yieldSubscripts_inside
              (fun r hr hrun => (hg.yieldOf_above hsw hl hy hr hrun).1) s hs
    · rw [← hsink]
      exact (hg.yieldOf_above hsw hl hy hr hrun).2
    · rw [heq] at hsw hl ⊢
      exact hg.yield_nobody hsw hl hnobody

/-- In a run of operations of one thread with any live coroutines as their
    arguments, the call stack keeps its bottom exactly as long as the main
    coroutine is left alone. -/
theorem keepsBottom_along_iff {w : World} {t : Tid} {as : List Op} (hinit : Init w)
    (hadm : Fallible.Along World.step (Switches t) w as) :
    Fallible.Along World.step (KeepsBottom t) w as ↔ Fallible.Along World.step LeavesMain w as := by
  refine Fallible.along_congr (I := fun v => ∃ f, Grounded v t f) ?_ ?_ as w
    ⟨_, grounded_init hinit t⟩ hadm
  · rintro v a v' ⟨f, hg⟩ ha _ hstep
    rcases grounded_step hg ha hstep with ⟨f', hg', _⟩
    exact ⟨f', hg'⟩
  · intro v a hg ha
    exact keepsBottom_iff hg ha

/-- A main coroutine that is resumed from further up, and goes on below. -/
theorem keepsBottom_along_iff_resumed :
    let e : CallSite := { sp := 0x10fe0, main := 1, mainBlk := 0x7000, blk := 0 }
    let as : List Op := [.create 0 10 false, .create 0 11 true, .mainMco 0 e, .resume 0 (some 10) e,
      .resume 0 (some 11) e, .resume 0 (some 1) e, .yield 0 (some 1) 0, .yield 0 (some 11) 0,
      .yield 0 (some 10) 0x10fe0, .resume 0 (some 10) e, .finish 0 0x10fe0]
    Fallible.Along World.step (KeepsBottom 0) World.blank as ↔
      Fallible.Along World.step LeavesMain World.blank as :=
  keepsBottom_along_iff blank_init (Fallible.Checks.along (by decide))

/-- A thread's own code calls `McoYield(MainMco())`: the subscript wraps, the
    assertion compares two null pointers, and the `sink` that is then used is
    null. And a main coroutine that was resumed from 11 has 11 as its `sink`
    when it goes on below; it resumes 11, which is suspended, and the assertion
    of `McoYield` fails. -/
theorem yield_of_main :
    let e : CallSite := { sp := 0x10fe0, main := 1, mainBlk := 0x7000, blk := 0 }
    let w := Fallible.after World.step World.blank [.mainMco 0 e]
    let as : List Op := [.create 0 10 false, .create 0 11 true, .resume 0 (some 10) e,
      .resume 0 (some 11) e, .resume 0 (some 1) e, .yield 0 (some 1) 0, .yield 0 (some 11) 0,
      .yield 0 (some 10) 0x10fe0]
    let v := Fallible.after World.step World.blank as
    (Fallible.Checks World.step (Switches 0) World.blank [.mainMco 0 e] ∧
      Switches 0 w (.yield 0 (some 1) 0) ∧ ¬ KeepsBottom 0 w (.yield 0 (some 1) 0) ∧
      w.step (.yield 0 (some 1) 0) = .error .badPointer) ∧
    (Fallible.Checks World.step (Switches 0) World.blank as ∧
      Switches 0 v (.resume 0 (some 11) e) ∧ ¬ KeepsBottom 0 v (.resume 0 (some 11) e) ∧
      v.step (.resume 0 (some 11) e) = .error .assertion) := by
  refine ⟨⟨by decide, by decide, fun h => ?_, rfl⟩, by decide, by decide, fun h => ?_, rfl⟩
  · exact absurd (h.inside ⟨1, 2⟩ (by decide)) not_inside_one
  · exact absurd (h.inside ⟨1, 2⟩ (by decide)) not_inside_one

end Fasco
