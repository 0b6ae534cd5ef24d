import Mathlib.Data.List.Nodup
import Mathlib.Data.List.Perm.Subperm
import Mathlib.Data.List.TakeWhile

/-!
# Acquiring in Order, and Releasing

A loop that acquires resources one after another and stops at the first that
fails, and a loop that gives resources back.

What the first loop was answered is a list: `attempts` cuts it off after the
first failure, `takeWhile` before it. The two say everything about such a
loop. `attempts_filter` is that the successes among the attempts are the ones
before the first failure, and `length_takeWhile_iff` that there are as many
of them as there are resources exactly if nothing failed.

The second loop may not come to its end, because giving one resource back can
wait forever. `Settles` is therefore in two parts: never is anything given
back that was not acquired or that has been given back already, and when the
loop is through everything acquired has been given back. Of a loop that works
on a list, the resources given back are a prefix of the list, and
`settles_of_isPrefix` says that it is enough for the list to be the resources
acquired. `not_settles_of_length` is the other direction, by counting: a loop
that gives back more than was acquired cannot settle.

## Main definitions

* `attempts`: What is tried, up to the first failure.
* `Settles`: Everything acquired is given back once, and nothing else.

## Theorems

* `attempts_isPrefix`, `attempts_filter`: The attempts, and those that succeed.
* `attempts_goes_on`, `attempts_stops`: A loop goes on after a success only,
  and stops early after a failure only.
* `length_takeWhile_iff`: All succeed.
* `settles_of_isPrefix`: Giving back the list itself settles it.
* `not_settles_of_length`: Giving back more than that does not.
-/

namespace Attempts

variable {α : Type*} (ok : α → Bool)

/-- What is tried: everything up to the first failure, and that. -/
def attempts : List α → List α
  | [] => []
  | a :: as => if ok a then a :: attempts as else [a]

theorem attempts_cons_ok {a : α} (h : ok a = true) (as : List α) :
    attempts ok (a :: as) = a :: attempts ok as := by
  rw [attempts, if_pos h]

theorem attempts_cons_fail {a : α} (h : ¬ ok a = true) (as : List α) :
    attempts ok (a :: as) = [a] := by
  rw [attempts, if_neg h]

theorem attempts_isPrefix (l : List α) : attempts ok l <+: l := by
  induction l with
  | nil => exact List.prefix_refl _
  | cons a as ih =>
      by_cases h : ok a = true
      · rw [attempts_cons_ok ok h]
        exact (List.prefix_cons_inj a).mpr ih
      · rw [attempts_cons_fail ok h]
        exact ⟨as, rfl⟩

/-- The attempts that succeed are those before the first failure. -/
theorem attempts_filter (l : List α) : (attempts ok l).filter ok = l.takeWhile ok := by
  induction l with
  | nil => rfl
  | cons a as ih =>
      by_cases h : ok a = true
      · rw [attempts_cons_ok ok h, List.filter_cons_of_pos h, List.takeWhile_cons_of_pos h, ih]
      · rw [attempts_cons_fail ok h, List.filter_cons_of_neg h, List.takeWhile_cons_of_neg h]
        rfl

/-- A loop goes on only after a success. -/
theorem attempts_goes_on {l : List α} {i : Nat} {a : α} (hi : i + 1 < (attempts ok l).length)
    (ha : l[i]? = some a) : ok a = true := by
  induction l generalizing i with
  | nil =>
      rw [List.getElem?_nil] at ha
      cases ha
  | cons b bs ih =>
      by_cases h : ok b = true
      · cases i with
        | zero =>
            rw [List.getElem?_cons_zero] at ha
            injection ha with ha
            rw [← ha]
            exact h
        | succ i =>
            rw [attempts_cons_ok ok h, List.length_cons] at hi
            rw [List.getElem?_cons_succ] at ha
            exact ih (by omega) ha
      · -- A failure is the last attempt.
        rw [attempts_cons_fail ok h, List.length_singleton] at hi
        omega

/-- A loop that stops before the end of the list stops after a failure. -/
theorem attempts_stops {l : List α} (h : (attempts ok l).length < l.length) :
    ∃ i a, i + 1 = (attempts ok l).length ∧ l[i]? = some a ∧ ¬ ok a = true := by
  induction l with
  | nil => exact absurd h (Nat.lt_irrefl 0)
  | cons b bs ih =>
      by_cases hb : ok b = true
      · rw [attempts_cons_ok ok hb, List.length_cons, List.length_cons] at h
        obtain ⟨i, a, hi, ha, hf⟩ := ih (by omega)
        refine ⟨i + 1, a, ?_, ?_, hf⟩
        · rw [attempts_cons_ok ok hb, List.length_cons, hi]
        · rw [List.getElem?_cons_succ]
          exact ha
      · refine ⟨0, b, ?_, rfl, hb⟩
        rw [attempts_cons_fail ok hb]
        rfl

/-- They all succeed exactly if as many succeed as there are. -/
theorem length_takeWhile_iff (l : List α) :
    (l.takeWhile ok).length = l.length ↔ ∀ a ∈ l, ok a = true := by
  rw [← List.takeWhile_eq_self_iff]
  constructor
  · intro h
    exact (List.takeWhile_prefix ok).eq_of_length h
  · intro h
    rw [h]

/-! ### Giving back -/

section Settles

variable [DecidableEq α]

/-- Everything acquired is given back once, and nothing else. `through` says
    whether the loop that gives back has come to its end. -/
structure Settles (acquired released : List α) (through : Prop) : Prop where
  only : ∀ a ∈ released, a ∈ acquired
  once : ∀ a, released.count a ≤ 1
  each : through → ∀ a ∈ acquired, released.count a = 1

/-- Giving back the resources acquired, in their order, as far as the loop
    comes. -/
theorem settles_of_isPrefix {acquired released : List α} {through : Prop} (hd : acquired.Nodup)
    (hp : released <+: acquired) (ht : through → released = acquired) :
    Settles acquired released through where
  only := fun a ha => hp.subset ha
  once := fun a => List.nodup_iff_count_le_one.mp (hd.sublist hp.sublist) a
  each := by
    intro h a ha
    rw [ht h]
    exact List.count_eq_one_of_mem hd ha

/-- More cannot be given back than was acquired. -/
theorem not_settles_of_length {acquired released : List α} {through : Prop}
    (h : acquired.length < released.length) : ¬ Settles acquired released through := by
  intro hs
  have hd : released.Nodup := List.nodup_iff_count_le_one.mpr hs.once
  have hle : released.length ≤ acquired.length :=
    (List.subperm_of_subset hd (fun a ha => hs.only a ha)).length_le
  omega

end Settles

end Attempts
