import Mathlib.Data.List.Chain
import Mathlib.Data.List.Nodup

/-!
# Stacks in Slots

A stack kept in numbered slots: slot `0` is the bottom and the first `n` slots
are in use. `Holds slot n l` says that they hold the list `l`, whose head is
the top of the stack. What lies in the slots from `n` on does not matter, so a
stack may be popped by lowering `n` alone.

`Linked` is the other half of such a representation. Each entry also records
the entry below it, and the bottom one records that there is none.

## Main definitions

* `Holds`: The slots in use hold a list.
* `Linked`: Each entry records the one below it.

## Theorems

* `Holds.congr`: Only the slots in use matter.
* `Holds.push`, `Holds.pop`: Putting on and taking off the top.
* `Holds.slot_eq`: The slots read from the bottom are the list read from its
  end.
* `Holds.nodup`: Distinct entries are in distinct slots.
* `Linked.congr`, `Linked.slot`: The records of entries, by list and by slot.
-/

namespace Slots

variable {α : Type*}

/-- The first `n` slots hold `l`, its head in the topmost of them. -/
def Holds (slot : Nat → Option α) : Nat → List α → Prop
  | 0, [] => True
  | n + 1, a :: l => slot n = some a ∧ Holds slot n l
  | 0, _ :: _ => False
  | _ + 1, [] => False

/-- Each entry of the list records the next one; the last records none. -/
def Linked (below : α → Option α) : List α → Prop
  | [] => True
  | a :: l => below a = l.head? ∧ Linked below l

theorem Holds.length {slot : Nat → Option α} : ∀ {n : Nat} {l : List α},
    Holds slot n l → l.length = n
  | 0, [], _ => rfl
  | 0, _ :: _, h => h.elim
  | _ + 1, [], h => h.elim
  | n + 1, a :: l, h => by rw [List.length_cons, Holds.length h.2]

theorem Holds.pos {slot : Nat → Option α} {n : Nat} {l : List α} {a : α} (h : Holds slot n l)
    (ha : a ∈ l) : 0 < n := by
  rw [← h.length]
  exact List.length_pos_of_mem ha

theorem Holds.congr {slot slot' : Nat → Option α} : ∀ {n : Nat} {l : List α},
    Holds slot n l → (∀ i, i < n → slot' i = slot i) → Holds slot' n l
  | 0, [], _, _ => trivial
  | 0, _ :: _, h, _ => h.elim
  | _ + 1, [], h, _ => h.elim
  | n + 1, a :: l, h, heq => by
      refine ⟨?_, Holds.congr h.2 (fun i hi => heq i (by omega))⟩
      rw [heq n (by omega)]
      exact h.1

theorem Holds.push {slot slot' : Nat → Option α} {n : Nat} {l : List α} {a : α}
    (h : Holds slot n l) (ha : slot' n = some a) (heq : ∀ i, i < n → slot' i = slot i) :
    Holds slot' (n + 1) (a :: l) :=
  ⟨ha, h.congr heq⟩

theorem Holds.pop {slot : Nat → Option α} : ∀ {n : Nat} {l : List α},
    Holds slot n l → Holds slot (n - 1) l.tail
  | 0, [], _ => trivial
  | 0, _ :: _, h => h.elim
  | _ + 1, [], h => h.elim
  | _ + 1, _ :: _, h => h.2

/-- A slot in use holds the entry that many places from the end. -/
theorem Holds.slot_eq {slot : Nat → Option α} : ∀ {n : Nat} {l : List α} (_ : Holds slot n l)
    {i : Nat} (_ : i < n), slot i = l[n - 1 - i]?
  | 0, _, _, _, hi => absurd hi (Nat.not_lt_zero _)
  | _ + 1, [], h, _, _ => h.elim
  | n + 1, a :: l, h, i, hi => by
      -- Either it is the topmost slot, or the position counts from the tail.
      by_cases hin : i = n
      · rw [hin, show n + 1 - 1 - n = 0 by omega, List.getElem?_cons_zero]
        exact h.1
      · rw [show n + 1 - 1 - i = (n - 1 - i) + 1 by omega, List.getElem?_cons_succ]
        exact Holds.slot_eq h.2 (by omega)

theorem Holds.slot_mem {slot : Nat → Option α} {n i : Nat} {l : List α} {a : α}
    (h : Holds slot n l) (hi : i < n) (ha : slot i = some a) : a ∈ l := by
  rw [h.slot_eq hi] at ha
  exact List.mem_of_getElem? ha

theorem Holds.slot_some {slot : Nat → Option α} {n i : Nat} {l : List α}
    (h : Holds slot n l) (hi : i < n) : ∃ a, slot i = some a := by
  rw [h.slot_eq hi]
  exact ⟨_, List.getElem?_eq_getElem (by rw [h.length]; omega)⟩

theorem Holds.mem_slot {slot : Nat → Option α} {n : Nat} {l : List α} {a : α}
    (h : Holds slot n l) (ha : a ∈ l) : ∃ i, i < n ∧ slot i = some a := by
  rcases List.getElem?_of_mem ha with ⟨k, hk⟩
  have hlt : k < n := by
    rw [← h.length]
    exact (List.getElem?_eq_some_iff.mp hk).1
  refine ⟨n - 1 - k, by omega, ?_⟩
  rw [h.slot_eq (by omega), show n - 1 - (n - 1 - k) = k by omega]
  exact hk

/-- The topmost slot. -/
theorem Holds.top {slot : Nat → Option α} {n : Nat} {l : List α} (h : Holds slot n l)
    (hn : 0 < n) : slot (n - 1) = l.head? := by
  rw [h.slot_eq (by omega), show n - 1 - (n - 1) = 0 by omega, List.head?_eq_getElem?]

/-- The lowest slot. -/
theorem Holds.bottom {slot : Nat → Option α} {n : Nat} {l : List α} (h : Holds slot n l)
    (hn : 0 < n) : slot 0 = l.getLast? := by
  rw [h.slot_eq hn, List.getLast?_eq_getElem?, h.length, Nat.sub_zero]

/-- The slot below the topmost. -/
theorem Holds.second {slot : Nat → Option α} {n : Nat} {l : List α} (h : Holds slot n l)
    (hn : 1 < n) : slot (n - 2) = l.tail.head? := by
  rw [h.slot_eq (by omega), show n - 1 - (n - 2) = 1 by omega, List.head?_eq_getElem?,
    List.getElem?_tail]

/-- No two slots hold the same entry exactly when the list has no
    duplicates. -/
theorem Holds.nodup {slot : Nat → Option α} {n : Nat} {l : List α} (h : Holds slot n l) :
    l.Nodup ↔ ∀ i j, i < n → j < n → slot i = slot j → i = j := by
  have hlen := h.length
  constructor
  · intro hnd i j hi hj hij
    rw [h.slot_eq hi, h.slot_eq hj] at hij
    have hk : n - 1 - i < l.length := by omega
    have := (List.getElem?_inj hk hnd).mp hij
    omega
  · intro hinj
    rw [List.nodup_iff_getElem?_ne_getElem?]
    intro i j hij hj heq
    -- Counting from the other end turns positions of the list into slots.
    have hi' : n - 1 - (n - 1 - i) = i := by omega
    have hj' : n - 1 - (n - 1 - j) = j := by omega
    have := hinj (n - 1 - i) (n - 1 - j) (by omega) (by omega) (by
      rw [h.slot_eq (by omega), h.slot_eq (by omega), hi', hj']
      exact heq)
    omega

theorem Linked.congr {below below' : α → Option α} : ∀ {l : List α},
    Linked below l → (∀ a, a ∈ l → below' a = below a) → Linked below' l
  | [], _, _ => trivial
  | a :: l, h, heq => by
      refine ⟨?_, Linked.congr h.2 (fun b hb => heq b (List.mem_cons_of_mem a hb))⟩
      rw [heq a List.mem_cons_self]
      exact h.1

theorem Linked.tail {below : α → Option α} {l : List α} (h : Linked below l) :
    Linked below l.tail := by
  cases l with
  | nil => trivial
  | cons a l => exact h.2

/-- What an entry records is an entry further down. -/
theorem Linked.below_mem {below : α → Option α} : ∀ {l : List α} {a b : α},
    Linked below l → a ∈ l → below a = some b → b ∈ l.tail
  | c :: l, a, b, h, ha, hb => by
      rcases List.mem_cons.mp ha with rfl | ha
      · rw [h.1] at hb
        exact List.mem_of_head? hb
      · have := Linked.below_mem h.2 ha hb
        exact List.mem_of_mem_tail this

/-- By position: an entry records the next one. -/
theorem Linked.below_eq {below : α → Option α} : ∀ {l : List α} {i : Nat} {a : α},
    Linked below l → i < l.length → l[i]? = some a → below a = l[i + 1]?
  | [], _, _, _, hi, _ => absurd hi (Nat.not_lt_zero _)
  | b :: l, 0, a, h, _, ha => by
      injection ha with ha
      rw [← ha, h.1, List.head?_eq_getElem?]
      rfl
  | b :: l, i + 1, a, h, hi, ha => by
      rw [List.getElem?_cons_succ] at ha ⊢
      rw [List.length_cons] at hi
      exact Linked.below_eq h.2 (by omega) ha

/-- In slots: the entry of a slot above the lowest records the entry of the
    slot below it. -/
theorem Linked.slot {below : α → Option α} {slot : Nat → Option α} : ∀ {n : Nat} {l : List α},
    Linked below l → Holds slot n l → ∀ i a, i + 1 < n → slot (i + 1) = some a →
      below a = slot i
  | 0, _, _, _, _, _, hi, _ => absurd hi (Nat.not_lt_zero _)
  | _ + 1, [], _, h, _, _, _, _ => h.elim
  | n + 1, a :: l, hl, h, i, b, hi, hb => by
      -- The topmost entry is linked to the head of the tail, which the slot below holds.
      by_cases hin : i + 1 = n
      · rw [hin, h.1] at hb
        injection hb with hb
        have htop := h.2.top (by omega)
        rw [show n - 1 = i by omega] at htop
        rw [← hb, hl.1, htop]
      · exact Linked.slot hl.2 h.2 i b (by omega) hb

end Slots
