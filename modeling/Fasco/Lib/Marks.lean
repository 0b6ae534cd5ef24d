import Mathlib.Logic.Function.Basic

/-!
# Marked Holders

Several places, each holding at most one thing, and a mark on every thing that
is meant to say whether some place holds it. `Agrees` says that the marks are
right and that no thing is held in two places.

The point of the file is `Agrees.handover`: a place that lets go of one thing
and takes another, the marks of the two being changed to match, keeps the
agreement, provided the thing taken was not marked. The condition is what
stops a thing from being taken in two places at once, and it asks only about
the mark.

## Main definitions

* `Agrees`: The marks tell which things are held, and nothing is held twice.

## Theorems

* `held_taken_iff`, `taken_inj`: What is held when a place takes a thing.
* `Agrees.handover`: A place swaps the thing it holds for an unmarked one.
* `Agrees.take`: An empty place takes a thing that did not exist.
* `Agrees.insert`, `Agrees.erase`: Things nobody holds come and go.
* `Agrees.congr`: The agreement depends on marks and places only.
-/

namespace Marks

variable {τ κ : Type*}

/-- A thing is marked exactly when some place holds it, and no two places
    hold the same thing. Things without a mark do not exist. -/
structure Agrees (held : τ → Option κ) (mark : κ → Option Bool) : Prop where
  mark_iff : ∀ c b, mark c = some b → (b = true ↔ ∃ t, held t = some c)
  inj : ∀ t u c, held t = some c → held u = some c → t = u

theorem Agrees.not_held {held : τ → Option κ} {mark : κ → Option Bool} (h : Agrees held mark)
    {c : κ} (hc : mark c = some false) (t : τ) : held t ≠ some c := by
  intro ht
  have := (h.mark_iff c false hc).mpr ⟨t, ht⟩
  cases this

theorem Agrees.congr {held held' : τ → Option κ} {mark mark' : κ → Option Bool}
    (h : Agrees held mark) (hheld : ∀ t, held' t = held t) (hmark : ∀ c, mark' c = mark c) :
    Agrees held' mark' := by
  have h1 : held' = held := funext hheld
  have h2 : mark' = mark := funext hmark
  rw [h1, h2]
  exact h

variable [DecidableEq τ]

section Taken

variable {held : τ → Option κ} {t : τ} {x : κ}

/-- When `t` takes `x`, a thing that is neither `x` nor what `t` held is held
    as before. -/
theorem held_taken_iff {c : κ} (hcx : c ≠ x) (hct : held t ≠ some c) :
    (∃ u, Function.update held t (some x) u = some c) ↔ ∃ u, held u = some c := by
  constructor
  · rintro ⟨u, hu⟩
    have hut : u ≠ t := by
      rintro rfl
      rw [Function.update_self] at hu
      injection hu with hu
      exact hcx hu.symm
    exact ⟨u, by rw [Function.update_of_ne hut] at hu; exact hu⟩
  · rintro ⟨u, hu⟩
    have hut : u ≠ t := by
      rintro rfl
      exact hct hu
    exact ⟨u, by rw [Function.update_of_ne hut]; exact hu⟩

/-- A thing that nobody held is not held twice when `t` takes it. -/
theorem taken_inj (hinj : ∀ t u c, held t = some c → held u = some c → t = u)
    (hfree : ∀ u, held u ≠ some x) :
    ∀ u v c, Function.update held t (some x) u = some c →
      Function.update held t (some x) v = some c → u = v := by
  intro u v c hu hv
  by_cases hut : u = t <;> by_cases hvt : v = t
  · rw [hut, hvt]
  · rw [hut, Function.update_self] at hu
    injection hu with hu
    rw [Function.update_of_ne hvt, ← hu] at hv
    exact absurd hv (hfree v)
  · rw [hvt, Function.update_self] at hv
    injection hv with hv
    rw [Function.update_of_ne hut, ← hv] at hu
    exact absurd hu (hfree u)
  · rw [Function.update_of_ne hut] at hu
    rw [Function.update_of_ne hvt] at hv
    exact hinj u v c hu hv

end Taken

/-- The place `t` lets go of `a` and takes `x`, which was not marked. -/
theorem Agrees.handover {held held' : τ → Option κ} {mark mark' : κ → Option Bool}
    (h : Agrees held mark) {t : τ} {a x : κ} (ha : held t = some a) (hx : mark x = some false)
    (hheld : held' = Function.update held t (some x)) (ha' : mark' a = some false)
    (hx' : mark' x = some true) (hother : ∀ d, d ≠ a → d ≠ x → mark' d = mark d) :
    Agrees held' mark' := by
  subst hheld
  refine ⟨fun c b hb => ?_, taken_inj h.inj (h.not_held hx)⟩
  by_cases hcx : c = x
  · rw [hcx, hx'] at hb
    injection hb with hb
    rw [← hb, hcx]
    exact ⟨fun _ => ⟨t, Function.update_self ..⟩, fun _ => rfl⟩
  · by_cases hca : c = a
    · -- Nobody but `t` held `a`, and `t` has let go of it.
      rw [hca, ha'] at hb
      injection hb with hb
      rw [← hb]
      constructor
      · intro hf
        cases hf
      · rintro ⟨u, hu⟩
        by_cases hut : u = t
        · rw [hut, Function.update_self] at hu
          injection hu with hu
          exact absurd hu.symm hcx
        · rw [Function.update_of_ne hut, hca] at hu
          exact absurd (h.inj u t a hu ha) hut
    · rw [hother c hca hcx] at hb
      rw [h.mark_iff c b hb, held_taken_iff hcx]
      rw [ha]
      intro hac
      injection hac with hac
      exact hca hac.symm

/-- The empty place `t` takes `x`, which nobody held. -/
theorem Agrees.take {held held' : τ → Option κ} {mark mark' : κ → Option Bool}
    (h : Agrees held mark) {t : τ} {x : κ} (ht : held t = none) (hfree : ∀ u, held u ≠ some x)
    (hheld : held' = Function.update held t (some x)) (hx' : mark' x = some true)
    (hother : ∀ d, d ≠ x → mark' d = mark d) : Agrees held' mark' := by
  subst hheld
  refine ⟨fun c b hb => ?_, taken_inj h.inj hfree⟩
  by_cases hcx : c = x
  · rw [hcx, hx'] at hb
    injection hb with hb
    rw [← hb, hcx]
    exact ⟨fun _ => ⟨t, Function.update_self ..⟩, fun _ => rfl⟩
  · rw [hother c hcx] at hb
    rw [h.mark_iff c b hb, held_taken_iff hcx]
    rw [ht]
    exact fun hf => (by cases hf)

omit [DecidableEq τ] in
/-- A thing nobody holds may come into being unmarked. -/
theorem Agrees.insert {held : τ → Option κ} {mark mark' : κ → Option Bool}
    (h : Agrees held mark) {x : κ} (hfree : ∀ u, held u ≠ some x) (hx' : mark' x = some false)
    (hother : ∀ d, d ≠ x → mark' d = mark d) : Agrees held mark' := by
  refine ⟨fun c b hb => ?_, h.inj⟩
  by_cases hcx : c = x
  · rw [hcx, hx'] at hb
    injection hb with hb
    rw [← hb]
    constructor
    · intro hf
      cases hf
    · rintro ⟨u, hu⟩
      rw [hcx] at hu
      exact absurd hu (hfree u)
  · rw [hother c hcx] at hb
    exact h.mark_iff c b hb

omit [DecidableEq τ] in
/-- A thing may cease to be. -/
theorem Agrees.erase {held : τ → Option κ} {mark mark' : κ → Option Bool}
    (h : Agrees held mark) {x : κ} (hx' : mark' x = none)
    (hother : ∀ d, d ≠ x → mark' d = mark d) : Agrees held mark' := by
  refine ⟨fun c b hb => ?_, h.inj⟩
  by_cases hcx : c = x
  · rw [hcx, hx'] at hb
    cases hb
  · rw [hother c hcx] at hb
    exact h.mark_iff c b hb

end Marks
