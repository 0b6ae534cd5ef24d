import Mathlib.Logic.Function.Basic
import Mathlib.Data.List.Basic

/-!
# Counted Pointers

Places that each hold at most one pointer, and objects that count the pointers
to them, as `shared_ptr` does. `Counted` is what the counting must guarantee:
what a place holds exists, and an object's count is no less than the number of
places that hold it. Then an object that goes when its count reaches zero is
held by nobody (`Counted.drop`).

The count may be higher than the number of places. A pointer held by a place
that is not modelled makes no difference.

## Main definitions

* `AtMost`: No more than so many satisfy a property.
* `Counted`: The counts cover the places.

## Theorems

* `AtMost.add`, `AtMost.remove`, `AtMost.unique`: The number of satisfiers.
* `Counted.fresh`, `Counted.take`: A place gets a pointer to a new or an
  existing object.
* `Counted.drop`: A place lets go of its pointer, and the object goes with
  the last one.
* `Counted.pos`, `Counted.two`: Lower bounds on a count.
-/

namespace Shared

variable {κ ρ : Type*}

/-- No more than `n` satisfy `P`. -/
def AtMost (P : κ → Prop) (n : Nat) : Prop := ∃ l : List κ, (∀ k, P k → k ∈ l) ∧ l.length ≤ n

theorem AtMost.add {P Q : κ → Prop} {n : Nat} {a : κ} (h : AtMost P n)
    (hq : ∀ k, Q k → k = a ∨ P k) : AtMost Q (n + 1) := by
  rcases h with ⟨l, hl, hn⟩
  refine ⟨a :: l, fun k hk => ?_, by rw [List.length_cons]; omega⟩
  rcases hq k hk with rfl | hp
  · exact List.mem_cons_self
  · exact List.mem_cons_of_mem a (hl k hp)

theorem AtMost.remove [DecidableEq κ] {P Q : κ → Prop} {n : Nat} {a : κ} (h : AtMost P n)
    (ha : P a) (hq : ∀ k, Q k → k ≠ a ∧ P k) : AtMost Q (n - 1) := by
  rcases h with ⟨l, hl, hn⟩
  refine ⟨l.erase a, fun k hk => ?_, ?_⟩
  · rcases hq k hk with ⟨hka, hp⟩
    exact (List.mem_erase_of_ne hka).mpr (hl k hp)
  · rw [List.length_erase_of_mem (hl a ha)]
    omega

theorem AtMost.pos {P : κ → Prop} {n : Nat} {a : κ} (h : AtMost P n) (ha : P a) : 1 ≤ n := by
  rcases h with ⟨l, hl, hn⟩
  have := List.length_pos_of_mem (hl a ha)
  omega

/-- If there is at most one, two are the same. -/
theorem AtMost.unique {P : κ → Prop} {n : Nat} {a b : κ} (h : AtMost P n) (hn : n ≤ 1) (ha : P a)
    (hb : P b) : a = b := by
  rcases h with ⟨l, hl, hlen⟩
  have hla := hl a ha
  have hlb := hl b hb
  cases l with
  | nil => exact absurd hla List.not_mem_nil
  | cons x l =>
      have hnil : l = [] := by
        apply List.eq_nil_of_length_eq_zero
        rw [List.length_cons] at hlen
        omega
      rw [hnil, List.mem_singleton] at hla hlb
      rw [hla, hlb]

/-- What a place holds exists, and is counted. -/
structure Counted (held : κ → Option ρ) (count : ρ → Option Nat) : Prop where
  live : ∀ k r, held k = some r → (count r).isSome
  bound : ∀ r n, count r = some n → AtMost (fun k => held k = some r) n

namespace Counted

variable {held held' : κ → Option ρ} {count count' : ρ → Option Nat}

theorem pos (h : Counted held count) {k : κ} {r : ρ} {n : Nat} (hk : held k = some r)
    (hr : count r = some n) : 1 ≤ n := (h.bound r n hr).pos hk

theorem two (h : Counted held count) {j k : κ} {r : ρ} {n : Nat} (hjk : j ≠ k)
    (hj : held j = some r) (hk : held k = some r) (hr : count r = some n) : 2 ≤ n := by
  by_contra hn
  exact hjk ((h.bound r n hr).unique (by omega) hj hk)

theorem congr (h : Counted held count) (hh : ∀ k, held' k = held k)
    (hc : ∀ r, count' r = count r) : Counted held' count' := by
  rw [show held' = held from funext hh, show count' = count from funext hc]
  exact h

/-- Nobody holds an object that does not exist. -/
theorem not_held (h : Counted held count) {r : ρ} (hr : count r = none) (k : κ) :
    held k ≠ some r := by
  intro hk
  have := h.live k r hk
  rw [hr] at this
  cases this

section

variable [DecidableEq κ] [DecidableEq ρ]

/-- The place `k` gets a pointer to an existing object. -/
theorem take (h : Counted held count) {k : κ} {r : ρ} {n : Nat} (hr : count r = some n)
    (hheld : held' = Function.update held k (some r))
    (hcount : count' = Function.update count r (some (n + 1))) : Counted held' count' := by
  rw [hheld, hcount]
  constructor
  · intro j q hj
    by_cases hq : q = r
    · rw [hq, Function.update_self]
      rfl
    · rw [Function.update_of_ne hq]
      by_cases hjk : j = k
      · rw [hjk, Function.update_self] at hj
        injection hj with hj
        exact absurd hj.symm hq
      · rw [Function.update_of_ne hjk] at hj
        exact h.live j q hj
  · intro q m hm
    by_cases hq : q = r
    · rw [hq, Function.update_self] at hm
      injection hm with hm
      rw [hq, ← hm]
      refine (h.bound r n hr).add (a := k) (fun j hj => ?_)
      by_cases hjk : j = k
      · exact Or.inl hjk
      · rw [Function.update_of_ne hjk] at hj
        exact Or.inr hj
    · rw [Function.update_of_ne hq] at hm
      rcases h.bound q m hm with ⟨l, hl, hlen⟩
      refine ⟨l, fun j hj => ?_, hlen⟩
      change Function.update held k (some r) j = some q at hj
      by_cases hjk : j = k
      · rw [hjk, Function.update_self] at hj
        injection hj with hj
        exact absurd hj.symm hq
      · rw [Function.update_of_ne hjk] at hj
        exact hl j hj

/-- The place `k` gets the only pointer to a new object. -/
theorem fresh (h : Counted held count) {k : κ} {r : ρ} (hr : count r = none)
    (hheld : held' = Function.update held k (some r))
    (hcount : count' = Function.update count r (some 1)) : Counted held' count' := by
  -- An object that is made is one that exists with no pointers, taken.
  have h0 : Counted held (Function.update count r (some 0)) := by
    constructor
    · intro j q hj
      by_cases hq : q = r
      · rw [hq] at hj
        exact absurd hj (h.not_held hr j)
      · rw [Function.update_of_ne hq]
        exact h.live j q hj
    · intro q m hm
      by_cases hq : q = r
      · refine ⟨[], fun j hj => ?_, Nat.zero_le m⟩
        rw [hq] at hj
        exact absurd hj (h.not_held hr j)
      · rw [Function.update_of_ne hq] at hm
        exact h.bound q m hm
  refine h0.take (Function.update_self r (some 0) count) hheld ?_
  rw [hcount, Function.update_idem]

/-- The place `k` lets go. An object whose last pointer that was goes. -/
theorem drop (h : Counted held count) {k : κ} {r : ρ} {n : Nat} (hk : held k = some r)
    (hr : count r = some n) (hheld : held' = Function.update held k none)
    (hcount : count' = Function.update count r (if n ≤ 1 then none else some (n - 1))) :
    Counted held' count' := by
  rw [hheld, hcount]
  constructor
  · intro j q hj
    have hjk : j ≠ k := by
      rintro rfl
      rw [Function.update_self] at hj
      cases hj
    rw [Function.update_of_ne hjk] at hj
    by_cases hq : q = r
    · rw [hq] at hj
      have := h.two hjk hj hk hr
      rw [hq, Function.update_self, if_neg (by omega)]
      rfl
    · rw [Function.update_of_ne hq]
      exact h.live j q hj
  · intro q m hm
    by_cases hq : q = r
    · rw [hq, Function.update_self] at hm
      by_cases hn : n ≤ 1
      · rw [if_pos hn] at hm
        cases hm
      · rw [if_neg hn] at hm
        injection hm with hm
        rw [hq, ← hm]
        refine (h.bound r n hr).remove hk (fun j hj => ?_)
        have hjk : j ≠ k := by
          rintro rfl
          rw [Function.update_self] at hj
          cases hj
        rw [Function.update_of_ne hjk] at hj
        exact ⟨hjk, hj⟩
    · rw [Function.update_of_ne hq] at hm
      rcases h.bound q m hm with ⟨l, hl, hlen⟩
      refine ⟨l, fun j hj => ?_, hlen⟩
      change Function.update held k none j = some q at hj
      have hjk : j ≠ k := by
        rintro rfl
        rw [Function.update_self] at hj
        cases hj
      rw [Function.update_of_ne hjk] at hj
      exact hl j hj

end

end Counted

end Shared
