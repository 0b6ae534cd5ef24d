import Fasco.Core.Asserts
import Fasco.Theory.Transition

/-!
# The First Use of a Coroutine

What happens when a thread uses a coroutine for the first time, in the program
as it is written. Two things go wrong, and each before anything else can.

`InitMcoContext` takes the stack from `co->stackMgr`. The constructor of
`McoRoutine` sets that pointer to null, and nothing sets it to anything else,
so the start of any coroutine, the one `MainMco` makes first of all, uses a
null pointer. `start_dereferences_null` says so for every run.

If `stackMgr` is read as the manager of the calling thread instead, the next
obstacle is `assert(callStack_.size() == index_)` in `McoCallStack`.
`(*callstack)[index++] = co` passes the subscript by value, so the increment is
complete when `operator[]` compares: the index is one more than the size,
whatever they were before. With assertions no thread ever has a coroutine, and
the runs without a failed assertion are those `size_along_iff` describes.

## Main definitions

* `World.Unused`: No coroutine has run.
* `Op.Starts`: The call puts a coroutine on a call stack, in such a state.

## Theorems

* `stepA_calm`: What the other operations do, whatever is compiled in.
* `stepA_starts_size`, `stepA_starts_null`: How a start ends.
* `size_along_iff`: Where the call stack's assertions hold.
* `start_dereferences_null`: No start of a coroutine succeeds.
* `first_use_aborts`, `first_resume_faults`: The first `McoResume`.
-/

namespace Fasco

open Fallible

/-- No coroutine has run on any thread. -/
structure World.Unused (w : World) : Prop where
  callstack : ∀ t, (w.callstack t).index = 0 ∧ (w.callstack t).size = 0
  exec : ∀ t, w.exec t = none
  idle : ∀ c r, w.co c = some r → r.running = false ∧ r.done = false ∧ r.stackMgr = none

/-- The call puts a coroutine on a call stack, if no coroutine has run: it
    makes the one for the thread's own code, or resumes one. -/
def Op.Starts (w : World) : Op → Prop
  | .mainMco _ _ => True
  | .resume _ (some c) _ => ∃ r, w.co c = some r ∧ (r.running || r.finished) = false
  | _ => False

instance (w : World) : ∀ a, Decidable (Op.Starts w a)
  | .mainMco _ _ => isTrue trivial
  | .resume _ (some c) _ =>
    inferInstanceAs (Decidable (∃ r, w.co c = some r ∧ (r.running || r.finished) = false))
  | .resume _ none _ => isFalse id
  | .create _ _ _ => isFalse id
  | .yield _ _ _ => isFalse id
  | .finish _ _ => isFalse id
  | .free _ _ => isFalse id
  | .write _ _ _ => isFalse id

namespace World

variable {w w' : World} {a : Op}

theorem unused_init (h : Init w) : w.Unused := by
  refine ⟨fun t => ?_, h.exec, fun c r hr => ?_⟩
  · rw [h.callstack t]
    exact ⟨rfl, rfl⟩
  · rw [h.co c] at hr
    cases hr

-- Such a coroutine neither runs nor has finished.
theorem Unused.goes (hu : w.Unused) {c : McoRef} {r : McoRoutine} (hr : w.co c = some r) :
    (r.running || r.finished) = false := by
  rcases hu.idle c r hr with ⟨hrun, hdone, _⟩
  rw [McoRoutine.finished, hrun, hdone]
  rfl

theorem Unused.created (hu : w.Unused) (c : McoRef) (p : Bool) : (w.mcoCreate c p).Unused := by
  refine ⟨hu.callstack, hu.exec, fun d r hr => ?_⟩
  have hr' : Function.update w.co c _ d = some r := hr
  by_cases hd : d = c
  · rw [hd, Function.update_self] at hr'
    injection hr' with hr'
    rw [← hr']
    exact ⟨rfl, rfl, rfl⟩
  · rw [Function.update_of_ne hd] at hr'
    exact hu.idle d r hr'

theorem Unused.freed (hu : w.Unused) {t : Tid} {co : Option McoRef}
    (h : w.mcoFree t co = .ok w') : w'.Unused := by
  rcases mcoFree_cases h with ⟨_, rfl⟩ | ⟨c, r, _, hr, hrun, _⟩ | ⟨c, r, _, _, _, rfl⟩
  · exact hu
  -- Nobody runs, so nothing is postponed.
  · rw [(hu.idle c r hr).1] at hrun
    cases hrun
  · refine ⟨fun u => ?_, fun u => ?_, fun d q hq => ?_⟩
    · by_cases hoc : (w.mgr t).commonOccupy = some c
      · simp only [if_pos hoc]
        exact hu.callstack u
      · simp only [if_neg hoc]
        exact hu.callstack u
    · by_cases hoc : (w.mgr t).commonOccupy = some c
      · simp only [if_pos hoc]
        exact hu.exec u
      · simp only [if_neg hoc]
        exact hu.exec u
    · have hq' : Function.update w.co c none d = some q := by
        rw [← hq]
      by_cases hd : d = c
      · rw [hd, Function.update_self] at hq'
        cases hq'
      · rw [Function.update_of_ne hd] at hq'
        exact hu.idle d q hq'

/-- An operation that starts no coroutine comes to no assertion and starts no
    stack: it has the same outcome whatever is compiled in, and if it returns,
    still no coroutine has run. -/
theorem stepA_calm (hu : w.Unused) (hns : ¬ a.Starts w) :
    (∃ f, ∀ A, w.stepA A a = .error (.fault f)) ∨
    (∃ w' x, (∀ A, w.stepA A a = .ok (w', x)) ∧ w'.Unused) := by
  cases a with
  | create t c p => exact .inr ⟨_, _, fun _ => rfl, hu.created c p⟩
  | mainMco t e => exact absurd trivial hns
  | resume t co e =>
      cases co with
      | none => exact .inr ⟨_, _, fun _ => rfl, hu⟩
      | some c =>
          cases hco : w.co c with
          | none =>
              refine .inl ⟨.badPointer, fun A => ?_⟩
              simp only [stepA, mcoResumeA, hco]
              rfl
          -- A coroutine that exists would be started, which the operation does not do.
          | some r => exact absurd ⟨r, hco, hu.goes hco⟩ hns
  | yield t co sp =>
      cases co with
      | none => exact .inr ⟨_, _, fun _ => rfl, hu⟩
      | some c =>
          cases hco : w.co c with
          | none =>
              refine .inl ⟨.badPointer, fun A => ?_⟩
              simp only [stepA, mcoYieldA, hco]
              rfl
          | some r =>
              refine .inr ⟨w, none, fun A => ?_, hu⟩
              simp only [stepA, mcoYieldA, hco, (hu.idle c r hco).1, Bool.not_false,
                Bool.true_or, if_true]
              rfl
  -- There is no coroutine whose callback could end.
  | finish t sp =>
      refine .inl ⟨.badPointer, fun A => ?_⟩
      simp only [stepA, coroutineRunA, hu.exec t]
      rfl
  | free t co =>
      cases hf : w.mcoFree t co with
      | ok w1 =>
          refine .inr ⟨w1, none, fun A => ?_, hu.freed hf⟩
          simp only [stepA, hf]
          rfl
      | error f =>
          refine .inl ⟨f, fun A => ?_⟩
          simp only [stepA, hf]
          rfl
  | write t x b => exact .inr ⟨_, _, fun _ => rfl, hu.callstack, hu.exec, hu.idle⟩

/-- An operation that starts a coroutine begins with `MainMco`, and ends as
    that does. -/
theorem stepA_starts {A : Asserts} {f : Stop} (hu : w.Unused)
    (hmain : ∀ t e, w.mainMcoA A t e = .error f) (hst : a.Starts w) :
    w.stepA A a = .error f := by
  cases a with
  | mainMco t e => exact hmain t e
  | resume t co e =>
      cases co with
      | none => exact absurd hst id
      | some c =>
          rcases hst with ⟨r, hr, hgo⟩
          simp only [stepA, mcoResumeA, ensureMainA, hr, hgo, Bool.false_eq_true, if_false,
            (hu.callstack t).1, if_true, hmain]
          rfl
  | create t c p => exact absurd hst id
  | yield t co sp => exact absurd hst id
  | finish t sp => exact absurd hst id
  | free t co => exact absurd hst id
  | write t x b => exact absurd hst id

/-- `MainMco` puts the first entry on the call stack, and the comparison of
    index and size is made between the increment and the insertion. -/
theorem stepA_starts_size (hu : w.Unused) (hst : a.Starts w) :
    w.stepA (Build.asserts .debug) a = .error .size := by
  refine stepA_starts hu (fun t e => ?_) hst
  -- Index 1 is compared with size 0.
  rcases hu.callstack t with ⟨hindex, hsize⟩
  simp only [mainMcoA, hindex, if_true, mcoCreate, initMcoContextA, initMcoContext,
    Function.update_self, setStack, setCo, Option.isSome_some, ok_bind, McoCallStack.store,
    McoCallStack.checkSize, Build.asserts, hsize]
  rfl

/-- `MainMco` starts the coroutine it has created, whose `stackMgr` is null. -/
theorem stepA_starts_null {A : Asserts} (hA : A.ownMgr = false) (hu : w.Unused)
    (hst : a.Starts w) : w.stepA A a = .error (.fault .badPointer) := by
  refine stepA_starts hu (fun t e => ?_) hst
  simp only [mainMcoA, (hu.callstack t).1, if_true, mcoCreate, initMcoContextA, hA,
    Bool.false_eq_true, if_false, Function.update_self]
  rfl

theorem unused_step {A : Asserts} (hu : w.Unused) (hns : ¬ a.Starts w)
    (h : mute (stepA A) w a = .ok w') : w'.Unused := by
  rcases mute_eq_ok h with ⟨y, hy⟩
  rcases stepA_calm hu hns with ⟨f, hf⟩ | ⟨v, x, hv, hu'⟩
  · rw [hf] at hy
    cases hy
  · rw [hv] at hy
    injection hy with hy
    injection hy with hy _
    rw [← hy]
    exact hu'

end World

/-! ### The assertion of the call stack -/

/-- In every run the assertions of `McoCallStack` hold exactly as long as no
    thread makes a coroutine for its own code or resumes one. -/
theorem size_along_iff {w : World} {as : List Op} (hinit : Init w) :
    Along (mute (World.stepA (Build.asserts .debug)))
        (fun w a => w.stepA (Build.asserts .debug) a ≠ .error .size) w as ↔
      Along (mute (World.stepA (Build.asserts .debug))) (fun w a => ¬ a.Starts w) w as := by
  refine along_congr (I := World.Unused) ?_ ?_ as w (World.unused_init hinit) (along_true as w)
  · intro v a v' hu _ hns hstep
    exact World.unused_step hu hns hstep
  · intro v a hu _
    by_cases hst : a.Starts v
    · exact ⟨fun h => absurd (World.stepA_starts_size hu hst) h, fun h => absurd hst h⟩
    · refine ⟨fun _ => hst, fun _ => ?_⟩
      rcases World.stepA_calm hu hst with ⟨g, hg⟩ | ⟨v', x, hv, _⟩
      · rw [hg]
        intro hc
        cases hc
      · rw [hv]
        intro hc
        cases hc

/-- A coroutine is created and yields before it has run. -/
theorem size_along_iff_unused :
    let as : List Op := [.create 0 10 false, .yield 0 (some 10) 0]
    Along (mute (World.stepA (Build.asserts .debug)))
        (fun w a => w.stepA (Build.asserts .debug) a ≠ .error .size) World.blank as ↔
      Along (mute (World.stepA (Build.asserts .debug))) (fun w a => ¬ a.Starts w)
        World.blank as :=
  size_along_iff blank_init

/-- The first `McoResume` of a thread aborts the program. -/
theorem first_use_aborts :
    let e : CallSite := { sp := 0, main := 1, mainBlk := 0x7000, blk := 0 }
    let w := after (mute (World.stepA (Build.asserts .debug))) World.blank [.create 0 10 false]
    Admissible w (.resume 0 (some 10) e) ∧
      w.stepA (Build.asserts .debug) (.resume 0 (some 10) e) = .error .size := by
  exact ⟨by decide, rfl⟩

/-! ### The null pointer -/

/-- In the program as it is written, whatever assertions are compiled in, no
    run ever starts a coroutine: wherever a run leads, `MainMco` and the
    `McoResume` of any coroutine use the null pointer `stackMgr`, and so does
    `InitMcoContext` on every coroutine there is. -/
theorem start_dereferences_null {A : Asserts} {w₀ w : World} {as : List Op}
    (hA : A.ownMgr = false) (h₀ : Init w₀)
    (h : Runs (mute (World.stepA A)) Admissible w₀ as w) :
    (∀ t e, w.stepA A (.mainMco t e) = .error (.fault .badPointer)) ∧
    (∀ t c e, (w.co c).isSome → w.stepA A (.resume t (some c) e) = .error (.fault .badPointer)) ∧
    (∀ t c r blk, w.co c = some r →
      w.initMcoContextA A t c r blk = .error (.fault .badPointer)) := by
  have hu : w.Unused := by
    refine h.invariant (I := World.Unused) (fun v a v' hu _ hstep => ?_) (World.unused_init h₀)
    by_cases hst : a.Starts v
    · -- A start does not return.
      rcases mute_eq_ok hstep with ⟨y, hy⟩
      rw [World.stepA_starts_null hA hu hst] at hy
      cases hy
    · exact World.unused_step hu hst hstep
  refine ⟨fun t e => World.stepA_starts_null hA hu trivial, fun t c e hc => ?_,
    fun t c r blk hr => ?_⟩
  · rcases Option.isSome_iff_exists.mp hc with ⟨r, hr⟩
    exact World.stepA_starts_null hA hu ⟨r, hr, hu.goes hr⟩
  · simp only [World.initMcoContextA, hA, Bool.false_eq_true, if_false, (hu.idle c r hr).2.2]

/-- The program as it is written. -/
def Asserts.asWritten : Asserts := { size := true, sink := true, ownMgr := false }

/-- One thread creates a coroutine, and another is about to start it. -/
theorem start_dereferences_null_created :
    let w := after (mute (World.stepA .asWritten)) World.blank [.create 0 10 false]
    (∀ t e, w.stepA .asWritten (.mainMco t e) = .error (.fault .badPointer)) ∧
    (∀ t c e, (w.co c).isSome →
      w.stepA .asWritten (.resume t (some c) e) = .error (.fault .badPointer)) ∧
    (∀ t c r blk, w.co c = some r →
      w.initMcoContextA .asWritten t c r blk = .error (.fault .badPointer)) :=
  start_dereferences_null rfl blank_init (Checks.runs (by decide))

/-- The first `McoResume` of the program as it is written. -/
theorem first_resume_faults :
    let e : CallSite := { sp := 0, main := 1, mainBlk := 0x7000, blk := 0 }
    let w := after (mute (World.stepA .asWritten)) World.blank [.create 0 10 false]
    Admissible w (.resume 1 (some 10) e) ∧
      w.stepA .asWritten (.resume 1 (some 10) e) = .error (.fault .badPointer) :=
  ⟨by decide, rfl⟩

end Fasco
