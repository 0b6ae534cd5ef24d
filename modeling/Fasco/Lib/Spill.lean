import Mathlib.Data.List.GetD
import Mathlib.Logic.Function.Basic

/-!
# Clients of One Block

One block of memory used by many clients in turn. Each client has a region of
the block, and the regions may overlap: only one client, the holder, has its
contents in place, and the contents of the others have been saved elsewhere.
Before the block changes hands the holder's region is saved; a client that
gets the block back has its region restored.

`content` is what a client would find in its region if it had the block. It is
the saved copy if there is one and the memory otherwise, and the theorems say
that it does not depend on who has the block: `occupy_content` when the block
changes hands and `restore_content` when a saved region is put back. `Fit` is
what they need. Every client but the holder has been saved, and a saved copy
is as long as its region.

## Main definitions

* `Client`, `Block`: A region with its saved copy; the block.
* `Block.content`: A client's region, and the bytes it owns wherever they are.
* `Block.occupy`, `Block.restore`: Handing the block over.
* `Block.mark`: A client's region is given a new start.
* `Block.Fit`: Every client's bytes are somewhere.
* `Block.Settled`: The holder's bytes are in place.

## Theorems

* `occupy_content`, `restore_content`: Handing over loses nothing.
* `write_content`: Only the holder's contents can be written.
* `occupy_fit`, `mark_fit`, `restore_fit`, `restore_settled`: Handing over
  keeps the invariant.
-/

namespace Spill

variable {κ β : Type*}

/-- A client's region `[lo, hi)` and the copy of it, if it has been saved. -/
structure Client (β : Type*) where
  lo : Nat
  hi : Nat
  saved : Option (List β)

structure Block (κ β : Type*) where
  client : κ → Option (Client β)
  holder : Option κ
  mem : Nat → β

/-- `n` cells from `a` on. -/
def read (mem : Nat → β) (a n : Nat) : List β := (List.range n).map (fun i => mem (a + i))

/-- The list is stored in the cells from `a` on. -/
def write (mem : Nat → β) (a : Nat) (l : List β) : Nat → β :=
  fun x => if a ≤ x then l.getD (x - a) (mem x) else mem x

@[simp] theorem read_length (mem : Nat → β) (a n : Nat) : (read mem a n).length = n := by
  simp only [read, List.length_map, List.length_range]

/-- What has been written is read back. -/
theorem read_write (mem : Nat → β) (a : Nat) (l : List β) :
    read (write mem a l) a l.length = l := by
  apply List.ext_getElem
  · rw [read_length]
  · intro i h1 h2
    simp only [read, List.getElem_map, List.getElem_range, write]
    rw [if_pos (by omega), show a + i - a = i by omega, List.getD_eq_getElem l _ h2]

/-- Equal parts of two memories are equal at each of their places. -/
theorem read_eq {mem mem' : Nat → β} {a n : Nat} (h : read mem a n = read mem' a n) (x : Nat)
    (h1 : a ≤ x) (h2 : x < a + n) : mem x = mem' x := by
  have hx : (read mem a n)[x - a]? = (read mem' a n)[x - a]? := by rw [h]
  have hlt : x - a < n := by omega
  simp only [read, List.getElem?_map, List.getElem?_range hlt, Option.map_some] at hx
  rw [show a + (x - a) = x by omega] at hx
  injection hx

namespace Client

/-- The bytes the client owns, when the block holds `mem`. -/
def content (k : Client β) (mem : Nat → β) : List β :=
  match k.saved with
  | some l => l
  | none => read mem k.lo (k.hi - k.lo)

/-- A saved copy is as long as the region. -/
def Sized (k : Client β) : Prop := ∀ l, k.saved = some l → l.length = k.hi - k.lo

def save (k : Client β) (mem : Nat → β) : Client β :=
  { k with saved := some (read mem k.lo (k.hi - k.lo)) }

/-- A client with a copy is described by the copy. -/
theorem content_saved {k : Client β} {l : List β} (h : k.saved = some l) (mem : Nat → β) :
    k.content mem = l := by
  simp only [content, h]

/-- And one without it by the block. -/
theorem content_unsaved {k : Client β} (h : k.saved = none) (mem : Nat → β) :
    k.content mem = read mem k.lo (k.hi - k.lo) := by
  simp only [content, h]

end Client

variable [DecidableEq κ]

namespace Block

/-- A client's region, and the bytes it owns wherever they are. -/
def content (B : Block κ β) (c : κ) : Option (Nat × Nat × List β) :=
  (B.client c).map (fun k => (k.lo, k.hi, k.content B.mem))

/-- `b` becomes the holder; the region of the old one is saved. -/
def occupy (B : Block κ β) (b : κ) : Block κ β :=
  match B.holder with
  | none => { B with holder := some b }
  | some o =>
      if o = b then { B with holder := some b }
      else
        { B with
          holder := some b
          client := Function.update B.client o ((B.client o).map (fun k => k.save B.mem)) }

/-- The saved copy of `b`, if there is one, is put in place. -/
def restore (B : Block κ β) (b : κ) : Block κ β :=
  match B.client b with
  | none => B
  | some k =>
      match k.saved with
      | none => B
      | some l =>
          { B with
            client := Function.update B.client b (some { k with saved := none })
            mem := write B.mem k.lo l }

/-- The region of `a` now starts at `lo`. -/
def mark (B : Block κ β) (a : κ) (lo : Nat) : Block κ β :=
  { B with client := Function.update B.client a ((B.client a).map (fun k => { k with lo := lo })) }

/-- Every client but `b` has its bytes in place or saved. -/
structure FitBut (B : Block κ β) (b : Option κ) : Prop where
  placed : ∀ c k, B.client c = some k → some c ≠ b → B.holder ≠ some c → k.saved.isSome
  sized : ∀ c k, B.client c = some k → k.Sized

/-- Every client has its bytes in place or saved. -/
abbrev Fit (B : Block κ β) : Prop := FitBut B none

/-- The holder's bytes are in place. -/
def Settled (B : Block κ β) : Prop :=
  ∀ c k, B.holder = some c → B.client c = some k → k.saved = none

omit [DecidableEq κ] in
/-- The contents of a client that is there. -/
theorem content_eq {B : Block κ β} {c : κ} {k : Client β} (h : B.client c = some k) :
    B.content c = some (k.lo, k.hi, k.content B.mem) := by
  rw [content, h, Option.map_some]

@[simp] theorem occupy_holder (B : Block κ β) (b : κ) : (B.occupy b).holder = some b := by
  unfold occupy
  cases B.holder with
  | none => rfl
  | some o =>
      simp only []
      split <;> rfl

/-- Handing the block over writes nothing to it. -/
@[simp] theorem occupy_mem (B : Block κ β) (b : κ) : (B.occupy b).mem = B.mem := by
  unfold occupy
  cases B.holder with
  | none => rfl
  | some o =>
      simp only []
      split <;> rfl

-- Handing over changes the record of the old holder only.
theorem occupy_client (B : Block κ β) (b c : κ) :
    (B.occupy b).client c =
      if B.holder = some c ∧ c ≠ b then (B.client c).map (fun k => k.save B.mem)
      else B.client c := by
  unfold occupy
  cases hh : B.holder with
  | none =>
      simp only []
      rw [if_neg (fun hc => by cases hc.1)]
  | some o =>
      simp only []
      by_cases hob : o = b
      · rw [if_pos hob, if_neg]
        rintro ⟨ho, hcb⟩
        injection ho with ho
        exact hcb (ho.symm.trans hob)
      · rw [if_neg hob]
        by_cases hc : c = o
        · rw [hc, if_pos ⟨rfl, hob⟩]
          simp only [Function.update_self]
        · simp only [Function.update_of_ne hc]
          rw [if_neg]
          rintro ⟨ho, _⟩
          injection ho with ho
          exact hc ho.symm

/-- Nobody's bytes are lost when the block changes hands. -/
theorem occupy_content {B : Block κ β} (hs : B.Settled) (b c : κ) :
    (B.occupy b).content c = B.content c := by
  unfold content
  rw [occupy_client, occupy_mem]
  by_cases hc : B.holder = some c ∧ c ≠ b
  · rw [if_pos hc, Option.map_map]
    cases hk : B.client c with
    | none => rfl
    | some k =>
        have hn := hs c k hc.1 hk
        simp only [Option.map_some, Function.comp_apply]
        rw [Client.content_unsaved hn]
        rfl
  · rw [if_neg hc]

/-- The old holder is copied out, and the new one, which need not have been fit,
    has the block. -/
theorem occupy_fit {B : Block κ β} {b : κ} (hf : B.FitBut (some b)) : (B.occupy b).Fit := by
  refine ⟨?_, ?_⟩
  · intro c k hk _ hh
    rw [occupy_holder] at hh
    have hcb : c ≠ b := fun hc => hh (by rw [hc])
    rw [occupy_client] at hk
    by_cases hc : B.holder = some c ∧ c ≠ b
    · rw [if_pos hc] at hk
      rcases Option.map_eq_some_iff.mp hk with ⟨k0, _, hk0⟩
      rw [← hk0]
      rfl
    · rw [if_neg hc] at hk
      refine hf.placed c k hk (fun he => ?_) (fun he => hc ⟨he, hcb⟩)
      injection he with he
      exact hcb he
  · intro c k hk
    rw [occupy_client] at hk
    by_cases hc : B.holder = some c ∧ c ≠ b
    · rw [if_pos hc] at hk
      rcases Option.map_eq_some_iff.mp hk with ⟨k0, _, hk0⟩
      rw [← hk0]
      intro l hl
      injection hl with hl
      rw [← hl, read_length]
      rfl
    · rw [if_neg hc] at hk
      exact hf.sized c k hk

/-- A mark moves for one client only. -/
theorem mark_content_of_ne (B : Block κ β) {a c : κ} (h : c ≠ a) (lo : Nat) :
    (B.mark a lo).content c = B.content c := by
  simp only [content, mark, Function.update_of_ne h]

/-- The holder's region may start anywhere: its bytes are in place. -/
theorem mark_fit {B : Block κ β} {a : κ} {b : Option κ} (hf : B.FitBut b) (hs : B.Settled)
    (ha : ∀ k, B.client a = some k → B.holder = some a) (lo : Nat) :
    (B.mark a lo).FitBut b ∧ (B.mark a lo).Settled := by
  have hself : ∀ k, (B.mark a lo).client a = some k → k.saved = none ∧ B.holder = some a := by
    intro k hk
    simp only [mark, Function.update_self] at hk
    rcases Option.map_eq_some_iff.mp hk with ⟨k0, hk0, hkk⟩
    have hh := ha k0 hk0
    rw [← hkk]
    exact ⟨hs a k0 hh hk0, hh⟩
  have hother : ∀ c, c ≠ a → (B.mark a lo).client c = B.client c := fun c hc => by
    simp only [mark, Function.update_of_ne hc]
  refine ⟨⟨?_, ?_⟩, ?_⟩
  · intro c k hk hb hh
    by_cases hca : c = a
    · rw [hca] at hk hh
      exact absurd (hself k hk).2 hh
    · rw [hother c hca] at hk
      exact hf.placed c k hk hb hh
  · intro c k hk l hl
    by_cases hca : c = a
    · rw [hca] at hk
      rw [(hself k hk).1] at hl
      cases hl
    · rw [hother c hca] at hk
      exact hf.sized c k hk l hl
  · intro c k hh hk
    by_cases hca : c = a
    · rw [hca] at hk
      exact (hself k hk).1
    · rw [hother c hca] at hk
      exact hs c k hh hk

@[simp] theorem restore_holder (B : Block κ β) (b : κ) : (B.restore b).holder = B.holder := by
  unfold restore
  cases B.client b with
  | none => rfl
  | some k => cases hk : k.saved <;> simp only [hk]

/-- Restoring a client concerns no other record. -/
theorem restore_client_of_ne (B : Block κ β) {b c : κ} (h : c ≠ b) :
    (B.restore b).client c = B.client c := by
  unfold restore
  cases B.client b with
  | none => rfl
  | some k =>
      cases hk : k.saved with
      | none => simp only [hk]
      | some l => simp only [hk, Function.update_of_ne h]

/-- The restored client has no copy any more. -/
theorem restore_client_self (B : Block κ β) (b : κ) :
    (B.restore b).client b = (B.client b).map (fun k => { k with saved := none }) := by
  unfold restore
  cases hb : B.client b with
  | none => simp only [hb, Option.map_none]
  | some k =>
      cases hk : k.saved with
      | none =>
          have hkk : ({ k with saved := none } : Client β) = k := by
            cases k
            simp only at hk
            rw [hk]
          simp only [hk, hb, Option.map_some, hkk]
      | some l => simp only [hk, Function.update_self, Option.map_some]

/-- Nobody's bytes are lost when the holder's saved copy is put in place. -/
theorem restore_content {B : Block κ β} {b : κ} (hf : B.Fit) (hb : B.holder = some b) (c : κ) :
    (B.restore b).content c = B.content c := by
  by_cases hcb : c = b
  · rw [hcb]
    unfold content
    rw [restore_client_self]
    cases hk : B.client b with
    | none => rfl
    | some k =>
        simp only [Option.map_some, Option.some.injEq]
        cases hsv : k.saved with
        | none =>
            have hmem : (B.restore b).mem = B.mem := by simp only [restore, hk, hsv]
            rw [hmem, Client.content_unsaved rfl, Client.content_unsaved hsv]
        | some l =>
            have hmem : (B.restore b).mem = write B.mem k.lo l := by simp only [restore, hk, hsv]
            rw [hmem, Client.content_unsaved rfl, Client.content_saved hsv,
              ← hf.sized b k hk l hsv, read_write]
  · unfold content
    rw [restore_client_of_ne B hcb]
    cases hk : B.client c with
    | none => rfl
    | some k =>
        -- `c` is not the holder, so its bytes are not in the block.
        have hsv := hf.placed c k hk (fun he => by cases he) (fun he => by
          rw [hb] at he
          injection he with he
          exact hcb he.symm)
        rcases Option.isSome_iff_exists.mp hsv with ⟨l, hl⟩
        simp only [Option.map_some, Client.content_saved hl]

/-- Restoring the holder keeps the copies of the others. -/
theorem restore_fit {B : Block κ β} {b : κ} (hf : B.Fit) (hb : B.holder = some b) :
    (B.restore b).Fit := by
  refine ⟨?_, ?_⟩
  · intro c k hk hn hh
    rw [restore_holder] at hh
    have hcb : c ≠ b := fun hc => hh (by rw [hc, hb])
    rw [restore_client_of_ne B hcb] at hk
    exact hf.placed c k hk hn hh
  · intro c k hk
    by_cases hcb : c = b
    · rw [hcb, restore_client_self] at hk
      rcases Option.map_eq_some_iff.mp hk with ⟨k0, _, hk0⟩
      intro l hl
      rw [← hk0] at hl
      cases hl
    · rw [restore_client_of_ne B hcb] at hk
      exact hf.sized c k hk

/-- After it the holder is the client the block describes. -/
theorem restore_settled {B : Block κ β} {b : κ} (hb : B.holder = some b) :
    (B.restore b).Settled := by
  intro c k hc hk
  rw [restore_holder, hb] at hc
  injection hc with hc
  rw [← hc, restore_client_self] at hk
  rcases Option.map_eq_some_iff.mp hk with ⟨k0, _, hk0⟩
  rw [← hk0]

omit [DecidableEq κ] in
/-- A write to the block touches the holder's bytes only. -/
theorem write_content {B : Block κ β} (hf : B.Fit) {c : κ} (hc : B.holder ≠ some c)
    (mem : Nat → β) : ({ B with mem := mem } : Block κ β).content c = B.content c := by
  unfold content
  cases hk : B.client c with
  | none => rfl
  | some k =>
      rcases Option.isSome_iff_exists.mp (hf.placed c k hk (fun he => by cases he) hc) with ⟨l, hl⟩
      simp only [Option.map_some, Client.content_saved hl]

end Block

end Spill
