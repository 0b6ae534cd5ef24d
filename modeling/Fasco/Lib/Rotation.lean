import Mathlib.Data.List.Chain
import Mathlib.Data.List.Count

/-!
# A Cursor over a Growing Range

A selector that goes round a range of slots: it takes the slot its cursor is
at and moves on, and when the cursor is past the end it starts over. Slots can
be added at the end at any time, also while the cursor is past it, so that what
was the end is not when the next selection comes.

The sizes of the range at the selections, one after another, say all there is
to say about a run. Between two selections of one slot the cursor goes once
through the range: up to the end as it is when the cursor gets there, and from
the start (`between`). While the range does not grow, the counts of any two
slots stay within one of each other (`even`).

## Main definitions

* `slot`: The slot selected.
* `picks`, `cursor`: The slots selected in a run, and the cursor after it.
* `Round`: How far the cursor has come since it was at a slot.
* `Level`: How the counts stand while the range does not grow.

## Theorems

* `Round.run`, `Level.run`: Both along a run.
* `Level.close`: Level counts are within one of each other.
* `between`: Each other slot once between two selections of a slot.
* `even`: Counts within one of each other.
-/

namespace Rotation

/-- The slot selected among `n` when the cursor is at `c`. -/
def slot (n c : Nat) : Nat := if n ≤ c then 0 else c

theorem slot_lt {n : Nat} (h : 0 < n) (c : Nat) : slot n c < n := by
  unfold slot
  by_cases hend : n ≤ c
  · rw [if_pos hend]
    exact h
  · rw [if_neg hend]
    omega

/-- The slots selected from the cursor `c` on, the range having the sizes of
    the list. -/
def picks : Nat → List Nat → List Nat
  | _, [] => []
  | c, n :: ns => slot n c :: picks (slot n c + 1) ns

/-- The cursor after these selections. -/
def cursor : Nat → List Nat → Nat
  | c, [] => c
  | c, n :: ns => cursor (slot n c + 1) ns

/-- The cursor is at `c` in a range of `size`, and since slot `i` was selected,
    in a range of `n₀`, each slot `j` has been selected `f j` times: those
    behind `i` so far, or those up to the end, at `m`, and those before `i` so
    far. -/
inductive Round (i n₀ size c : Nat) (f : Nat → Nat) : Prop where
  | first (hi : i < c) (hc : c ≤ size) (hf : ∀ j, f j = if i < j ∧ j < c then 1 else 0)
  | second (m : Nat) (hc : c ≤ i) (hm : n₀ ≤ m)
      (hf : ∀ j, f j = if j < c ∨ (i < j ∧ j < m) then 1 else 0)

variable {i n₀ size c n : Nat} {f : Nat → Nat}

theorem count_singleton_add (s j : Nat) (ns : List Nat) :
    (s :: ns).count j = (if j = s then 1 else 0) + ns.count j := by
  rw [List.count_cons, Nat.add_comm]
  by_cases h : j = s
  · rw [if_pos h, if_pos (by rw [h]; exact beq_self_eq_true s)]
  · rw [if_neg h, if_neg (by rw [beq_iff_eq]; exact fun hc => h hc.symm)]

/-- One more selection, not of `i`, in a range that may have grown. -/
theorem Round.pick (h : Round i n₀ size c f) (hi : i < n₀) (h₀ : n₀ ≤ size) (hn : size ≤ n)
    (hne : slot n c ≠ i) :
    Round i n₀ n (slot n c + 1) (fun j => f j + if j = slot n c then 1 else 0) := by
  cases h with
  | first hic hc hf =>
      by_cases hend : n ≤ c
      · -- The cursor is past the end and starts over.
        have hs : slot n c = 0 := if_pos hend
        rw [hs] at hne ⊢
        refine .second n (by omega) (by omega) (fun j => ?_)
        rw [hf j]
        by_cases h1 : j = 0
        · rw [if_neg (by omega), if_pos h1, if_pos (by omega)]
        · rw [if_neg h1]
          by_cases h2 : i < j ∧ j < c
          · rw [if_pos h2, if_pos (by omega)]
          · rw [if_neg h2, if_neg (by omega)]
      · have hs : slot n c = c := if_neg hend
        rw [hs]
        refine .first (by omega) (by omega) (fun j => ?_)
        rw [hf j]
        by_cases h1 : j = c
        · rw [if_neg (by omega), if_pos h1, if_pos (by omega)]
        · rw [if_neg h1]
          by_cases h2 : i < j ∧ j < c
          · rw [if_pos h2, if_pos (by omega)]
          · rw [if_neg h2, if_neg (by omega)]
  | second m hc hm hf =>
      have hs : slot n c = c := if_neg (by omega)
      rw [hs] at hne ⊢
      refine .second m (by omega) hm (fun j => ?_)
      rw [hf j]
      by_cases h1 : j = c
      · rw [if_neg (by omega), if_pos h1, if_pos (by omega)]
      · rw [if_neg h1]
        by_cases h2 : j < c ∨ (i < j ∧ j < m)
        · rw [if_pos h2, if_pos (by omega)]
        · rw [if_neg h2, if_neg (by omega)]

theorem Round.run (hi : i < n₀) :
    ∀ (ns : List Nat) (size c : Nat) (f : Nat → Nat), Round i n₀ size c f → n₀ ≤ size →
      (size :: ns).IsChain (· ≤ ·) → i ∉ picks c ns →
      Round i n₀ ((size :: ns).getLast (List.cons_ne_nil size ns)) (cursor c ns)
        (fun j => f j + (picks c ns).count j) := by
  intro ns
  induction ns with
  | nil =>
      intro size c f h _ _ _
      exact h
  | cons n ns ih =>
      intro size c f h h₀ hch hnot
      rw [List.isChain_cons_cons] at hch
      rw [picks, List.mem_cons, not_or] at hnot
      have hstep := h.pick hi h₀ hch.1 (Ne.symm hnot.1)
      have hrest := ih n _ _ hstep (by omega) hch.2 hnot.2
      rw [List.getLast_cons (List.cons_ne_nil n ns)]
      have hfun : (fun j => f j + (picks c (n :: ns)).count j)
          = fun j => f j + (if j = slot n c then 1 else 0) + (picks (slot n c + 1) ns).count j := by
        funext j
        rw [picks, count_singleton_add, Nat.add_assoc]
      rw [hfun]
      exact hrest

/-- Between two selections of a slot, the first in a range of `n₀` and the
    second in one of `n`, every other slot of the `n₀` is selected once, and no
    other more than once. -/
theorem between {ns : List Nat} (hi : i < n₀) (hch : (n₀ :: ns ++ [n]).IsChain (· ≤ ·))
    (hnot : i ∉ picks (i + 1) ns) (hagain : slot n (cursor (i + 1) ns) = i) {j : Nat} (hj : j ≠ i) :
    (j < n₀ → (picks (i + 1) ns).count j = 1) ∧ (picks (i + 1) ns).count j ≤ 1 := by
  have hstart : Round i n₀ n₀ (i + 1) (fun _ => 0) := by
    refine .first (by omega) (by omega) (fun j => ?_)
    rw [if_neg (by omega)]
  have hpre : (n₀ :: ns).IsChain (· ≤ ·) := hch.left_of_append
  have hlast : (n₀ :: ns).getLast (List.cons_ne_nil n₀ ns) ≤ n := by
    have := (List.isChain_append.mp hch).2.2
    exact this _ (List.getLast?_eq_getLast_of_ne_nil (List.cons_ne_nil n₀ ns) ▸ rfl) n rfl
  have hend := hstart.run hi ns n₀ (i + 1) _ (Nat.le_refl n₀) hpre hnot
  -- The sizes do not go down, so the last is no smaller than the first.
  have hge : n₀ ≤ (n₀ :: ns).getLast (List.cons_ne_nil n₀ ns) := by
    cases ns with
    | nil => exact Nat.le_refl n₀
    | cons a l => exact hpre.rel_cons (List.getLast_mem (List.cons_ne_nil a l))
  cases hend with
  | first hic hc hf =>
      have hcount := hf j
      rw [Nat.zero_add] at hcount
      -- The second selection starts over, so the slot is the first one.
      unfold slot at hagain
      by_cases hge' : n ≤ cursor (i + 1) ns
      · rw [if_pos hge'] at hagain
        by_cases h2 : i < j ∧ j < cursor (i + 1) ns
        · rw [if_pos h2] at hcount
          omega
        · rw [if_neg h2] at hcount
          omega
      · rw [if_neg hge'] at hagain
        omega
  | second m hc hm hf =>
      have hcount := hf j
      rw [Nat.zero_add] at hcount
      unfold slot at hagain
      rw [if_neg (by omega)] at hagain
      by_cases h2 : j < cursor (i + 1) ns ∨ (i < j ∧ j < m)
      · rw [if_pos h2] at hcount
        omega
      · rw [if_neg h2] at hcount
        omega

/-! ### A range that does not grow -/

/-- The cursor is at `c` among `n` slots, and each slot `j` has been selected
    `f j` times: those from `a` up to the cursor once more than the others, or,
    after a start from the beginning, those from `a` on and those before the
    cursor. -/
inductive Level (n c : Nat) (f : Nat → Nat) : Prop where
  | ahead (a q : Nat) (hac : a ≤ c) (hc : c ≤ n)
      (hf : ∀ j, j < n → f j = q + if a ≤ j ∧ j < c then 1 else 0)
  | around (a q : Nat) (hca : c < a) (ha : a ≤ n)
      (hf : ∀ j, j < n → f j = q + if a ≤ j ∨ j < c then 1 else 0)

theorem Level.pick (h : Level n c f) (hn : 0 < n) :
    Level n (slot n c + 1) (fun j => f j + if j = slot n c then 1 else 0) := by
  cases h with
  | ahead a q hac hc hf =>
      by_cases hend : n ≤ c
      · have hs : slot n c = 0 := if_pos hend
        rw [hs]
        by_cases ha : a ≤ 1
        -- At most slot 0 was behind: with it selected a new round has begun.
        · refine .ahead a (q + 1) ha (by omega) (fun j hj => ?_)
          rw [hf j hj]
          split <;> split <;> split <;> omega
        · refine .around a q (by omega) (by omega) (fun j hj => ?_)
          rw [hf j hj]
          split <;> split <;> split <;> omega
      · have hs : slot n c = c := if_neg hend
        rw [hs]
        refine .ahead a q (by omega) (by omega) (fun j hj => ?_)
        rw [hf j hj]
        split <;> split <;> split <;> omega
  | around a q hca ha hf =>
      have hs : slot n c = c := if_neg (by omega)
      rw [hs]
      -- The cursor comes to where the round began, and all counts are the same again.
      by_cases hmeet : c + 1 = a
      · refine .ahead a (q + 1) (by omega) (by omega) (fun j hj => ?_)
        rw [hf j hj]
        split <;> split <;> split <;> omega
      · refine .around a q (by omega) ha (fun j hj => ?_)
        rw [hf j hj]
        split <;> split <;> split <;> omega

theorem Level.run (hn : 0 < n) :
    ∀ (ns : List Nat) (c : Nat) (f : Nat → Nat), Level n c f → (∀ m, m ∈ ns → m = n) →
      Level n (cursor c ns) (fun j => f j + (picks c ns).count j) := by
  intro ns
  induction ns with
  | nil =>
      intro c f h _
      exact h
  | cons m ns ih =>
      intro c f h hall
      have hm : m = n := hall m List.mem_cons_self
      have hrest := ih _ _ (h.pick hn) (fun k hk => hall k (List.mem_cons_of_mem m hk))
      have hfun : (fun j => f j + (picks c (m :: ns)).count j)
          = fun j => f j + (if j = slot n c then 1 else 0) + (picks (slot n c + 1) ns).count j := by
        funext j
        rw [hm, picks, count_singleton_add, Nat.add_assoc]
      rw [hfun, hm]
      exact hrest

/-- Only the counts of the slots there are matter. -/
theorem Level.congr {g : Nat → Nat} (h : Level n c f) (hfg : ∀ j, j < n → g j = f j) :
    Level n c g := by
  cases h with
  | ahead a q hac hc hf => exact .ahead a q hac hc (fun j hj => (hfg j hj).trans (hf j hj))
  | around a q hca ha hf => exact .around a q hca ha (fun j hj => (hfg j hj).trans (hf j hj))

theorem Level.start (hc : c ≤ n) : Level n c (fun _ => 0) := by
  refine .ahead c 0 (Nat.le_refl c) hc (fun j _ => ?_)
  rw [if_neg (by omega)]

/-- The counts of any two slots are within one of each other. -/
theorem Level.close (h : Level n c f) {i j : Nat} (hi : i < n) (hj : j < n) : f i ≤ f j + 1 := by
  cases h with
  | ahead a q _ _ hf =>
      have hfi := hf i hi
      have hfj := hf j hj
      split at hfi <;> split at hfj <;> omega
  | around a q _ _ hf =>
      have hfi := hf i hi
      have hfj := hf j hj
      split at hfi <;> split at hfj <;> omega

/-- While there are `n` slots all the time, the counts of any two of them are
    within one of each other, wherever the cursor starts. -/
theorem even {ns : List Nat} (hc : c ≤ n) (hall : ∀ m, m ∈ ns → m = n) {i j : Nat} (hi : i < n)
    (hj : j < n) : (picks c ns).count i ≤ (picks c ns).count j + 1 := by
  have hclose := ((Level.start hc).run (by omega) ns c _ hall).close hi hj
  rw [Nat.zero_add, Nat.zero_add] at hclose
  exact hclose

end Rotation
