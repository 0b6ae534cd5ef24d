import Mathlib.Logic.Basic
import Mathlib.Tactic.ByContra

/-!
# Bit Masks

Sets of events as bits of a word. `Within x m` says that `x` has no bit that
`m` does not have; it is kept in the form in which code tests it, as the
emptiness of what is left of `x` without the bits of `m`.

## Main definitions

* `bit`: A bit of a word.
* `Within`: All bits of one word are bits of another.

## Theorems

* `eq_iff`, `within_iff`, `and_eq_zero_iff`: Words bit by bit.
* `Within.join`: A part of the mask may be enlarged.
* `Within.drop`: What a word does not have can be left out of the mask.
* `Within.eq_zero`: A word within a mask none of whose bits it has is empty.
* `not_and_and`: Bits that a mask does not have stay when it is cleared.
* `not_and_or`: What is left of a mask after a part of it has been cleared.
* `and_eq_zero_mono`: A word apart from a mask is apart from its parts.
-/

namespace Masks

def bit (x : UInt32) (i : Nat) : Bool := x.toBitVec.getLsbD i

/-- Every bit of `x` is a bit of `m`. -/
def Within (x m : UInt32) : Prop := x &&& ~~~m = 0

instance (x m : UInt32) : Decidable (Within x m) := inferInstanceAs (Decidable (_ = _))

variable {x y m r a b : UInt32} {i : Nat}

@[simp] theorem bit_zero : bit 0 i = false := by simp [bit]

@[simp] theorem bit_and : bit (x &&& y) i = (bit x i && bit y i) := by simp [bit]

@[simp] theorem bit_or : bit (x ||| y) i = (bit x i || bit y i) := by simp [bit]

theorem bit_not (hi : i < 32) : bit (~~~x) i = !bit x i := by simp [bit, hi]

theorem eq_iff : x = y ↔ ∀ i, i < 32 → bit x i = bit y i := by
  rw [← UInt32.toBitVec_inj]
  constructor
  · intro h i _
    rw [bit, bit, h]
  · intro h
    exact BitVec.eq_of_getLsbD_eq h

theorem within_iff : Within x m ↔ ∀ i, i < 32 → bit x i = true → bit m i = true := by
  rw [Within, eq_iff]
  refine forall_congr' fun i => forall_congr' fun hi => ?_
  rw [bit_and, bit_not hi, bit_zero]
  cases bit x i with
  | false => simp
  | true => simp

theorem and_eq_zero_iff : x &&& m = 0 ↔ ∀ i, i < 32 → bit x i = true → bit m i = false := by
  rw [eq_iff]
  refine forall_congr' fun i => forall_congr' fun _ => ?_
  rw [bit_and, bit_zero]
  cases bit x i with
  | false => simp
  | true => simp

/-- What the mask had of `m` it may have of anything that `m` is within. -/
theorem Within.join (h : Within x (m ||| a ||| b)) (hm : Within m r) :
    Within x (r ||| a ||| b) := by
  rw [within_iff] at h hm ⊢
  intro i hi hx
  have hx' := h i hi hx
  simp only [bit_or, Bool.or_eq_true] at hx' ⊢
  rcases hx' with (hx' | hx') | hx'
  · exact Or.inl (Or.inl (hm i hi hx'))
  · exact Or.inl (Or.inr hx')
  · exact Or.inr hx'

/-- Bits that `x` does not have are not needed. -/
theorem Within.drop (h : Within x (r ||| a ||| b)) (hab : x &&& (a ||| b) = 0) : Within x r := by
  rw [within_iff] at h ⊢
  rw [and_eq_zero_iff] at hab
  intro i hi hx
  have hx' := h i hi hx
  have hab' := hab i hi hx
  simp only [bit_or, Bool.or_eq_true, Bool.or_eq_false_iff] at hx' hab'
  -- `x` has the bit, so `a` and `b` do not, and it must come from `r`.
  simpa [hab'.1, hab'.2] using hx'

theorem Within.eq_zero (h : Within x r) (hr : Within r m) (hx : x &&& m = 0) : x = 0 := by
  rw [within_iff] at h hr
  rw [and_eq_zero_iff] at hx
  rw [eq_iff]
  intro i hi
  rw [bit_zero]
  by_contra hb
  rw [Bool.not_eq_false] at hb
  -- A bit of `x` would be one of the mask that `x` does not have.
  have hm := hr i hi (h i hi hb)
  rw [hx i hi hb] at hm
  cases hm

/-- Clearing the bits of `r` leaves those of a mask that is apart from it. -/
theorem not_and_and (h : r &&& m = 0) : (x &&& ~~~r) &&& m = x &&& m := by
  rw [and_eq_zero_iff] at h
  rw [eq_iff]
  intro i hi
  have hr := h i hi
  rw [bit_and, bit_and, bit_and, bit_not hi]
  cases hb : bit r i with
  | false => simp
  -- A bit that is cleared is not in the mask.
  | true => simp [hr hb]

/-- Of a mask in two parts, clearing one leaves the other. -/
theorem not_and_or (h : a &&& b = 0) : (x &&& ~~~a) &&& (a ||| b) = x &&& b := by
  rw [and_eq_zero_iff] at h
  rw [eq_iff]
  intro i hi
  have hb := h i hi
  rw [bit_and, bit_and, bit_and, bit_or, bit_not hi]
  cases ha : bit a i with
  | false => simp
  | true => simp [hb ha]

theorem and_eq_zero_mono (h : x &&& m = 0) (hr : Within r m) : x &&& r = 0 := by
  rw [and_eq_zero_iff] at h ⊢
  rw [within_iff] at hr
  intro i hi hx
  have hm := h i hi hx
  by_contra hb
  rw [Bool.not_eq_false] at hb
  rw [hr i hi hb] at hm
  cases hm

end Masks
