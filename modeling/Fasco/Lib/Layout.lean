import Mathlib.Algebra.Group.Nat.Defs
import Fasco.Lib.Spill

/-!
# Records in Memory

A record is a piece of memory with fields in it, each a number of cells at an
offset. The record here starts at address zero of its own memory; two records
that share a piece of memory, as the members of a union do, are two sets of
fields over one memory.

Few facts are all that is used of it. A field that was set reads as what it
was set to (`get_set_self`), a field apart from it reads as before
(`get_set_apart`), and when a list of cells is copied over the whole record
every field reads as its part of the list (`get_copy`).

Numbers in fields are lists of bytes in one of the two orders. `ofLE_toLE` and
`ofBE_toBE` read back what was written, modulo the range of the field.
`toLE_swap` is what makes the byte order of a machine visible: a two-byte
number with its bytes exchanged is stored by a machine that has the lowest
byte first as the number itself is stored by one that has it last.

## Main definitions

* `Field`, `Field.Apart`, `Field.In`: Where a field is.
* `get`, `set`, `part`, `copy`: Reading and writing.
* `toLE`, `ofLE`, `toBE`, `ofBE`: Numbers as bytes.
* `swap`: The bytes of a two-byte number exchanged.

## Theorems

* `get_set_self`, `get_set_apart`, `get_copy`, `part_get`: What a field reads.
* `ofLE_toLE`, `ofBE_toBE`: Numbers are read back.
* `toLE_swap`: Exchanging the bytes changes the byte order.
-/

namespace Layout

/-- Where a field of a record is. -/
structure Field where
  offset : Nat
  size : Nat
  deriving DecidableEq, Repr

/-- Two fields have no cell in common. -/
def Field.Apart (f g : Field) : Prop :=
  f.offset + f.size ≤ g.offset ∨ g.offset + g.size ≤ f.offset

/-- The field is in the first `n` cells. -/
def Field.In (f : Field) (n : Nat) : Prop := f.offset + f.size ≤ n

instance (f g : Field) : Decidable (f.Apart g) := inferInstanceAs (Decidable (_ ∨ _))

instance (f : Field) (n : Nat) : Decidable (f.In n) := inferInstanceAs (Decidable (_ ≤ _))

section Memory

variable {β : Type*}

/-- What a field holds. -/
def get (mem : Nat → β) (f : Field) : List β := Spill.read mem f.offset f.size

/-- A field is given the cells `v`. -/
def set (mem : Nat → β) (f : Field) (v : List β) : Nat → β := Spill.write mem f.offset v

/-- The field of a record that is given as a list of cells. -/
def part (v : List β) (f : Field) : List β := (v.drop f.offset).take f.size

/-- The cells `v` are copied over the record. -/
def copy (mem : Nat → β) (v : List β) : Nat → β := Spill.write mem 0 v

@[simp] theorem get_length (mem : Nat → β) (f : Field) : (get mem f).length = f.size :=
  Spill.read_length _ _ _

theorem get_set_self (mem : Nat → β) (f : Field) {v : List β} (hv : v.length = f.size) :
    get (set mem f v) f = v := by
  rw [get, set, ← hv]
  exact Spill.read_write _ _ _

theorem get_set_apart (mem : Nat → β) {f g : Field} (h : f.Apart g) {v : List β}
    (hv : v.length = f.size) : get (set mem f v) g = get mem g := by
  unfold get set Spill.read Spill.write
  refine List.map_congr_left (fun i hi => ?_)
  rw [List.mem_range] at hi
  unfold Field.Apart at h
  by_cases hle : f.offset ≤ g.offset + i
  · -- The cell is past the end of the field that was set.
    rw [if_pos hle, List.getD_eq_default _ _ (by omega)]
  · rw [if_neg hle]

/-- A field of a record that was copied whole. -/
theorem get_copy (mem : Nat → β) {f : Field} {v : List β} (h : f.In v.length) :
    get (copy mem v) f = part v f := by
  unfold Field.In at h
  unfold part
  apply List.ext_getElem
  · rw [get_length, List.length_take, List.length_drop]
    omega
  · intro i h1 h2
    rw [get_length] at h1
    simp only [get, copy, Spill.read, Spill.write, List.getElem_map, List.getElem_range,
      List.getElem_take, List.getElem_drop, Nat.zero_le, if_true, Nat.sub_zero]
    exact List.getD_eq_getElem v _ (by omega)

/-- A field of a record that was read whole. -/
theorem part_get (mem : Nat → β) {f : Field} {n : Nat} (h : f.In n) :
    part (get mem ⟨0, n⟩) f = get mem f := by
  unfold Field.In at h
  apply List.ext_getElem
  · simp only [get_length, part, List.length_take, List.length_drop]
    omega
  · intro i h1 h2
    simp only [part, get, Spill.read, List.getElem_take, List.getElem_drop, List.getElem_map,
      List.getElem_range, Nat.zero_add]

end Memory

/-! ### Numbers as bytes -/

/-- `k` bytes of a number, the lowest first. -/
def toLE : Nat → Nat → List UInt8
  | 0, _ => []
  | k + 1, n => UInt8.ofNat n :: toLE k (n / 256)

/-- The number that bytes stand for, the lowest first. -/
def ofLE : List UInt8 → Nat
  | [] => 0
  | b :: bs => b.toNat + 256 * ofLE bs

/-- `k` bytes of a number, the lowest last. -/
def toBE (k n : Nat) : List UInt8 := (toLE k n).reverse

/-- The number that bytes stand for, the lowest last. -/
def ofBE (bs : List UInt8) : Nat := ofLE bs.reverse

@[simp] theorem toLE_length (k n : Nat) : (toLE k n).length = k := by
  induction k generalizing n with
  | zero => rfl
  | succ k ih => rw [toLE, List.length_cons, ih]

theorem ofLE_toLE (k n : Nat) : ofLE (toLE k n) = n % 256 ^ k := by
  induction k generalizing n with
  | zero => rw [toLE, ofLE, Nat.pow_zero, Nat.mod_one]
  | succ k ih =>
      have hbyte : (UInt8.ofNat n).toNat = n % 256 := UInt8.toNat_ofNat'
      rw [toLE, ofLE, ih, hbyte, Nat.pow_succ, Nat.mul_comm (256 ^ k), Nat.mod_mul]

theorem ofBE_toBE (k n : Nat) : ofBE (toBE k n) = n % 256 ^ k := by
  rw [ofBE, toBE, List.reverse_reverse, ofLE_toLE]

/-- The bytes of a two-byte number exchanged. -/
def swap (n : Nat) : Nat := n % 256 * 256 + n / 256 % 256

/-- Stored with the lowest byte first, a number with its bytes exchanged is
    the number stored with the lowest byte last. -/
theorem toLE_swap (n : Nat) : toLE 2 (swap n) = toBE 2 n := by
  have hlow : UInt8.ofNat (swap n) = UInt8.ofNat (n / 256) := by
    apply UInt8.toNat_inj.mp
    rw [UInt8.toNat_ofNat', UInt8.toNat_ofNat', swap]
    omega
  have hhigh : UInt8.ofNat (swap n / 256) = UInt8.ofNat n := by
    apply UInt8.toNat_inj.mp
    have hdiv : swap n / 256 = n % 256 := by
      rw [swap]
      omega
    rw [hdiv, UInt8.toNat_ofNat', UInt8.toNat_ofNat']
    omega
  simp only [toBE, toLE, List.reverse_cons, List.reverse_nil, List.nil_append, List.cons_append]
  rw [hlow, hhigh]

end Layout
