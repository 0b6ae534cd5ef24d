import Mathlib.Data.List.Nodup
import Mathlib.Logic.Function.Basic

/-!
# Owners of Allocated Memory

Pointers that own what they point to, as a program without a collector has
them: places that each hold at most one pointer, and the addresses that are
allocated. `new` puts an address that is not in use in a place; `delete` makes
the address at a place free and the place empty, and does nothing at an empty
one.

`Exact` is what such a program has to keep: what is allocated is what some
place holds, and no two places hold the same. It is kept by `new` at an empty
place, and by every `delete`. Then distinct places may be deleted in any order
and nothing is freed twice (`Exact.distinct`).

## Main definitions

* `Ledger`: The places and the allocated addresses.
* `Call`: A `new` or a `delete`.
* `Ledger.run`: A sequence of them.
* `Ledger.Supplied`: Each `new` gets an address that is not in use.
* `Ledger.Tidy`: Each `new` is at an empty place.
* `Exact`: Every allocated address has one owner.

## Theorems

* `run_of_ne`: Other places are left alone.
* `Exact.run`: The invariant along a sequence.
* `Exact.distinct`: What distinct places hold is allocated, and distinct.
-/

namespace Owned

variable {π α : Type*}

/-- What each place holds, and whether an address is allocated. -/
structure Ledger (π α : Type*) where
  own : π → Option α
  live : α → Bool

inductive Call (π α : Type*) where
  /-- `p = new ...`, with the address `new` returns. -/
  | new (p : π) (a : α)
  /-- `delete p; p = nullptr`. -/
  | delete (p : π)

/-- The place a call is about. -/
def Call.place : Call π α → π
  | .new p _ => p
  | .delete p => p

/-- Every allocated address is held by a place, and by one only. -/
structure Exact (l : Ledger π α) : Prop where
  live : ∀ a, l.live a = true ↔ ∃ p, l.own p = some a
  inj : ∀ p q a, l.own p = some a → l.own q = some a → p = q

/-- What distinct places hold is distinct. -/
theorem Exact.distinct {l : Ledger π α} (h : Exact l) {ps : List π} (hps : ps.Nodup)
    (hsome : ∀ p ∈ ps, (l.own p).isSome) : (ps.map l.own).Nodup := by
  refine (List.nodup_map_iff_inj_on hps).mpr (fun p hp q hq heq => ?_)
  rcases Option.isSome_iff_exists.mp (hsome p hp) with ⟨a, ha⟩
  exact h.inj p q a ha (heq.symm.trans ha)

variable [DecidableEq π] [DecidableEq α]

namespace Ledger

def apply (l : Ledger π α) : Call π α → Ledger π α
  | .new p a => { own := Function.update l.own p (some a), live := Function.update l.live a true }
  | .delete p =>
    match l.own p with
    | none => l
    | some a =>
      { own := Function.update l.own p none, live := Function.update l.live a false }

/-- The ledger after a list of calls. -/
def run (l : Ledger π α) (cs : List (Call π α)) : Ledger π α := cs.foldl apply l

/-- `new` returns an address that is not in use. -/
def Supplied (l : Ledger π α) : List (Call π α) → Prop
  | [] => True
  | .new p a :: cs => l.live a = false ∧ (l.apply (.new p a)).Supplied cs
  | .delete p :: cs => (l.apply (.delete p)).Supplied cs

instance Supplied.decidable : ∀ (l : Ledger π α) (cs : List (Call π α)), Decidable (l.Supplied cs)
  | _, [] => isTrue trivial
  | l, .new p a :: cs =>
      have := Supplied.decidable (l.apply (.new p a)) cs
      inferInstanceAs (Decidable (_ ∧ _))
  | l, .delete p :: cs => Supplied.decidable (l.apply (.delete p)) cs

/-- `new` overwrites no pointer. -/
def Tidy (l : Ledger π α) : List (Call π α) → Prop
  | [] => True
  | .new p a :: cs => l.own p = none ∧ (l.apply (.new p a)).Tidy cs
  | .delete p :: cs => (l.apply (.delete p)).Tidy cs

/-- Calls in sequence. -/
theorem run_append (l : Ledger π α) (as bs : List (Call π α)) :
    l.run (as ++ bs) = (l.run as).run bs := List.foldl_append

/-- A sequence is tidy if its first part is, and its second part after that. -/
theorem tidy_append {l : Ledger π α} {as bs : List (Call π α)} :
    l.Tidy (as ++ bs) ↔ l.Tidy as ∧ (l.run as).Tidy bs := by
  induction as generalizing l with
  | nil => exact (iff_of_eq (true_and _)).symm
  | cons c as ih =>
      cases c with
      | new p a =>
          change (l.own p = none ∧ (l.apply (.new p a)).Tidy (as ++ bs)) ↔ _
          rw [ih, ← and_assoc]
          rfl
      | delete p =>
          change (l.apply (.delete p)).Tidy (as ++ bs) ↔ _
          rw [ih]
          rfl

/-- Deleting a null pointer does nothing. -/
theorem apply_delete_empty {l : Ledger π α} {p : π} (h : l.own p = none) :
    l.apply (.delete p) = l := by
  simp only [apply, h]

/-- Deleting a pointer clears it and ends what it points to. -/
theorem apply_delete_held {l : Ledger π α} {p : π} {a : α} (h : l.own p = some a) :
    l.apply (.delete p) =
      { own := Function.update l.own p none, live := Function.update l.live a false } := by
  simp only [apply, h]

theorem run_cons (l : Ledger π α) (c : Call π α) (cs : List (Call π α)) :
    l.run (c :: cs) = (l.apply c).run cs := rfl

theorem run_nil (l : Ledger π α) : l.run [] = l := rfl

theorem own_new (l : Ledger π α) (p : π) (a : α) :
    (l.apply (.new p a)).own = Function.update l.own p (some a) := rfl

/-- After a delete the place is empty, whatever it held. -/
theorem own_delete (l : Ledger π α) (p : π) :
    (l.apply (.delete p)).own = Function.update l.own p none := by
  cases h : l.own p with
  | none => rw [apply_delete_empty h, ← h, Function.update_eq_self]
  | some a => rw [apply_delete_held h]

/-- A call concerns its own place only. -/
theorem apply_of_ne {l : Ledger π α} {c : Call π α} {q : π} (h : c.place ≠ q) :
    (l.apply c).own q = l.own q := by
  have hq : q ≠ c.place := Ne.symm h
  cases c with
  | new p a =>
      rw [own_new]
      exact Function.update_of_ne hq _ _
  | delete p =>
      rw [own_delete]
      exact Function.update_of_ne hq _ _

/-- Places that no call is about hold what they held. -/
theorem run_of_ne {l : Ledger π α} {cs : List (Call π α)} {q : π} (h : ∀ c ∈ cs, c.place ≠ q) :
    (l.run cs).own q = l.own q := by
  induction cs generalizing l with
  | nil => rfl
  | cons c cs ih =>
      rw [run_cons, ih (fun d hd => h d (List.mem_cons_of_mem c hd)),
        apply_of_ne (h c List.mem_cons_self)]

end Ledger

/-- A new address goes to an empty place. -/
theorem Exact.new {l : Ledger π α} (h : Exact l) {p : π} {a : α} (hp : l.own p = none)
    (ha : l.live a = false) : Exact (l.apply (.new p a)) := by
  -- Nobody holds an address that is not allocated.
  have hfree : ∀ q, l.own q ≠ some a := by
    intro q hq
    rw [(h.live a).mpr ⟨q, hq⟩] at ha
    cases ha
  refine ⟨fun b => ?_, fun q q' b hq hq' => ?_⟩
  · change Function.update l.live a true b = true ↔ ∃ q, Function.update l.own p (some a) q = some b
    by_cases hb : b = a
    · rw [hb, Function.update_self]
      exact ⟨fun _ => ⟨p, Function.update_self _ _ _⟩, fun _ => rfl⟩
    · rw [Function.update_of_ne hb, h.live b]
      constructor
      · rintro ⟨q, hq⟩
        refine ⟨q, ?_⟩
        rw [Function.update_of_ne, hq]
        rintro rfl
        rw [hp] at hq
        cases hq
      · rintro ⟨q, hq⟩
        by_cases hqp : q = p
        · rw [hqp, Function.update_self] at hq
          injection hq with hq
          exact absurd hq.symm hb
        · rw [Function.update_of_ne hqp] at hq
          exact ⟨q, hq⟩
  -- A place holds the new address only if it is `p`.
  · have hcase : ∀ q, Function.update l.own p (some a) q = some b →
        (q = p ∧ b = a) ∨ (q ≠ p ∧ l.own q = some b) := by
      intro q hq
      by_cases hqp : q = p
      · rw [hqp, Function.update_self] at hq
        injection hq with hq
        exact Or.inl ⟨hqp, hq.symm⟩
      · rw [Function.update_of_ne hqp] at hq
        exact Or.inr ⟨hqp, hq⟩
    rcases hcase q hq with ⟨hqp, hba⟩ | ⟨_, h1⟩
    · rcases hcase q' hq' with ⟨hqp', _⟩ | ⟨_, h2⟩
      · rw [hqp, hqp']
      · rw [hba] at h2
        exact absurd h2 (hfree q')
    · rcases hcase q' hq' with ⟨_, hba⟩ | ⟨_, h2⟩
      · rw [hba] at h1
        exact absurd h1 (hfree q)
      · exact h.inj q q' b h1 h2

/-- A place is emptied, with what it held. -/
theorem Exact.delete {l : Ledger π α} (h : Exact l) (p : π) : Exact (l.apply (.delete p)) := by
  cases hp : l.own p with
  | none =>
      rw [Ledger.apply_delete_empty hp]
      exact h
  | some a =>
      rw [Ledger.apply_delete_held hp]
      -- What is held afterwards is what the other places held.
      have hother : ∀ q b, Function.update l.own p none q = some b ↔ q ≠ p ∧ l.own q = some b := by
        intro q b
        by_cases hqp : q = p
        · rw [hqp, Function.update_self]
          exact ⟨fun hbad => (by cases hbad), fun hbad => absurd rfl hbad.1⟩
        · rw [Function.update_of_ne hqp]
          exact ⟨fun hq => ⟨hqp, hq⟩, fun hq => hq.2⟩
      refine ⟨fun b => ?_, fun q q' b hq hq' => ?_⟩
      · change Function.update l.live a false b = true ↔
          ∃ q, Function.update l.own p none q = some b
        by_cases hb : b = a
        · -- Nobody else holds what has been freed.
          rw [hb, Function.update_self]
          refine ⟨fun hbad => (by cases hbad), ?_⟩
          rintro ⟨q, hq⟩
          rcases (hother q a).mp hq with ⟨hqp, hq'⟩
          exact absurd (h.inj q p a hq' hp) hqp
        · rw [Function.update_of_ne hb, h.live b]
          constructor
          · rintro ⟨q, hq⟩
            refine ⟨q, (hother q b).mpr ⟨?_, hq⟩⟩
            rintro rfl
            rw [hp] at hq
            injection hq with hq
            exact hb hq.symm
          · rintro ⟨q, hq⟩
            exact ⟨q, ((hother q b).mp hq).2⟩
      · exact h.inj q q' b ((hother q b).mp hq).2 ((hother q' b).mp hq').2

/-- Calls that overwrite no pointer keep one owner for every address. -/
theorem Exact.run {l : Ledger π α} (h : Exact l) {cs : List (Call π α)} (hs : l.Supplied cs)
    (ht : l.Tidy cs) : Exact (l.run cs) := by
  induction cs generalizing l with
  | nil => exact h
  | cons c cs ih =>
      cases c with
      | new p a => exact ih (h.new ht.1 hs.1) hs.2 ht.2
      | delete p => exact ih (h.delete p) hs ht

end Owned
