import Mathlib.Algebra.Group.Nat.Defs
import Mathlib.Data.List.GetD
import Mathlib.Logic.Function.Basic

/-!
# A Machine with Words and a Stack

The part of the x86 instruction set that moves words between registers and
memory: `lea`, `mov`, `push`, `pop`, `xor` and `ret`. The number of bytes in a
word is a parameter, eight or four for the two modes the programs are written
for. Addresses are words and all arithmetic is modulo their range, so a region
may run over the end of memory. Memory is a total map from addresses to bytes;
flags and the position in straight-line code are left out.

The stack pointer is a register like the others, and code that loads it with
some other address uses `push` and `pop` to fill and to read an array. That is
what the rules are made for. `run_pushes` says that pushing a list of
registers stores an array of words below the stack pointer, the last of them
lowest, and `run_pops` that popping a list of registers loads them from the
array the stack pointer is on. `load_storeWords` and `storeWords_frame` are
the two facts about such arrays: a word that was stored is read back, and the
bytes outside the array are as they were.

## Main definitions

* `InRegion`, `Apart`: Regions of memory.
* `store`, `load`: Words in memory, with the lowest byte first.
* `storeWords`: An array of words.
* `State`, `Instr`, `step`, `run`: The machine.

## Theorems

* `inRegion_iff`: A region as an interval.
* `apart_of_le`, `apart_add`: Regions that do not meet.
* `align_toNat`: Rounding down to a multiple of sixteen.
* `load_store_self`, `store_frame`: A word that is stored.
* `load_storeWords`, `storeWords_frame`: An array that is stored.
* `run_append`: Code in sequence.
* `run_pushes`, `run_pops`: Sequences of `push` and of `pop`.
-/

namespace X86

variable {n : Nat}

/-- A word of `n` bytes, which is also an address. -/
abbrev Word (n : Nat) := BitVec (8 * n)

abbrev Mem (n : Nat) := Word n → BitVec 8

/-! ### Regions -/

/-- `x` is one of the `k` bytes from `a` on. -/
def InRegion (a : Word n) (k : Nat) (x : Word n) : Prop := (x - a).toNat < k

instance (a : Word n) (k : Nat) (x : Word n) : Decidable (InRegion a k x) :=
  inferInstanceAs (Decidable (_ < _))

/-- The `k` bytes from `a` on and the `l` bytes from `b` on have none in
    common. -/
def Apart (a : Word n) (k : Nat) (b : Word n) (l : Nat) : Prop :=
  ∀ x, InRegion a k x → ¬ InRegion b l x

theorem Apart.symm {a b : Word n} {k l : Nat} (h : Apart a k b l) : Apart b l a k :=
  fun x hb ha => h x ha hb

/-- A region that does not run over the end of memory is an interval. -/
theorem inRegion_iff {a x : Word n} {k : Nat} (hend : a.toNat + k ≤ 2 ^ (8 * n)) :
    InRegion a k x ↔ a.toNat ≤ x.toNat ∧ x.toNat < a.toNat + k := by
  have ha := a.isLt
  have hx := x.isLt
  unfold InRegion
  rw [BitVec.toNat_sub]
  by_cases hle : a.toNat ≤ x.toNat
  · have hsum : 2 ^ (8 * n) - a.toNat + x.toNat = x.toNat - a.toNat + 2 ^ (8 * n) := by omega
    rw [hsum, Nat.add_mod_right, Nat.mod_eq_of_lt (by omega)]
    omega
  · -- Below the base the distance goes round the end of memory.
    rw [Nat.mod_eq_of_lt (by omega)]
    omega

/-- Regions that do not run over the end of memory, one above the other. -/
theorem apart_of_le {a b : Word n} {k l : Nat} (h : a.toNat + k ≤ b.toNat)
    (hend : b.toNat + l ≤ 2 ^ (8 * n)) : Apart a k b l := by
  intro x hx hy
  have hb := b.isLt
  rw [inRegion_iff (by omega)] at hx
  rw [inRegion_iff hend] at hy
  omega

-- The `i`-th byte of a region is the one at distance `i`.
theorem add_sub_toNat (a : Word n) {i : Nat} (hi : i < 2 ^ (8 * n)) :
    (a + BitVec.ofNat (8 * n) i - a).toNat = i := by
  rw [BitVec.add_comm, BitVec.add_sub_cancel, BitVec.toNat_ofNat, Nat.mod_eq_of_lt hi]

-- A distance that is at least `i` shrinks by `i` when the base moves up by `i`.
theorem sub_add_toNat (x a : Word n) {i : Nat} (hi : i ≤ (x - a).toNat) :
    (x - (a + BitVec.ofNat (8 * n) i)).toNat = (x - a).toNat - i := by
  have hlt : i < 2 ^ (8 * n) := Nat.lt_of_le_of_lt hi (x - a).isLt
  have hle : BitVec.ofNat (8 * n) i ≤ x - a := by
    rw [BitVec.le_def, BitVec.toNat_ofNat, Nat.mod_eq_of_lt hlt]
    exact hi
  rw [← BitVec.sub_sub, BitVec.toNat_sub_of_le hle, BitVec.toNat_ofNat, Nat.mod_eq_of_lt hlt]

theorem sub_add_eq (a : Word n) {i : Nat} (x : Word n) (hx : (x - a).toNat = i) :
    x = a + BitVec.ofNat (8 * n) i := by
  rw [← hx, BitVec.ofNat_toNat, BitVec.setWidth_eq, BitVec.add_comm, BitVec.sub_add_cancel]

-- A part of a region.
theorem InRegion.of_part {a x : Word n} {i j k : Nat} (hk : i + j ≤ k) (hk' : k ≤ 2 ^ (8 * n))
    (hx : InRegion (a + BitVec.ofNat (8 * n) i) j x) : InRegion a k x := by
  unfold InRegion at hx ⊢
  have hj : (x - (a + BitVec.ofNat (8 * n) i)).toNat < j := hx
  have hlt : i + (x - (a + BitVec.ofNat (8 * n) i)).toNat < 2 ^ (8 * n) := by omega
  have hsum : x - a = BitVec.ofNat (8 * n) i + (x - (a + BitVec.ofNat (8 * n) i)) := by
    rw [← BitVec.sub_sub, BitVec.add_comm, BitVec.sub_add_cancel]
  have hi : i % 2 ^ (8 * n) = i := Nat.mod_eq_of_lt (by omega)
  rw [hsum, BitVec.toNat_add, BitVec.toNat_ofNat, hi, Nat.mod_eq_of_lt hlt]
  omega

theorem Apart.part {a b : Word n} {i j k l : Nat} (h : Apart a k b l) (hk : i + j ≤ k)
    (hk' : k ≤ 2 ^ (8 * n)) : Apart (a + BitVec.ofNat (8 * n) i) j b l :=
  fun x hx => h x (InRegion.of_part hk hk' hx)

/-- A part of memory above a region that it does not run around into. -/
theorem apart_add (a : Word n) {i j k : Nat} (hk : k ≤ i) (hfit : i + j ≤ 2 ^ (8 * n)) :
    Apart (a + BitVec.ofNat (8 * n) i) j a k := by
  intro x hx
  have hd : x = a + BitVec.ofNat (8 * n) (i + (x - (a + BitVec.ofNat (8 * n) i)).toNat) := by
    rw [BitVec.ofNat_add, ← BitVec.add_assoc]
    exact sub_add_eq _ x rfl
  unfold InRegion at hx ⊢
  rw [hd, add_sub_toNat a (by omega)]
  omega

/-- A word is smaller than memory. -/
theorem bytes_lt (n : Nat) : n < 2 ^ (8 * n) :=
  Nat.lt_of_le_of_lt (Nat.le_mul_of_pos_left n (by decide)) Nat.lt_two_pow_self

/-- A region inside another one that does not run over the end of memory. -/
theorem InRegion.of_le {a b x : Word n} {k l : Nat} (hlow : b.toNat ≤ a.toNat)
    (hhigh : a.toNat + k ≤ b.toNat + l) (hend : b.toNat + l ≤ 2 ^ (8 * n))
    (hx : InRegion a k x) : InRegion b l x := by
  rw [inRegion_iff (by omega)] at hx
  rw [inRegion_iff hend]
  omega

/-- `x & -16` rounds down to a multiple of sixteen. -/
theorem align_toNat {w : Nat} (x : BitVec w) :
    (x &&& BitVec.ofInt w (-16)).toNat = x.toNat / 16 * 16 := by
  have hmask : BitVec.ofInt w (-16) = ~~~ BitVec.ofNat w 15 :=
    BitVec.ofInt_negSucc_eq_not_ofNat
  have hshift : x &&& BitVec.ofInt w (-16) = x >>> 4 <<< 4 := by
    refine BitVec.eq_of_getLsbD_eq fun i hi => ?_
    -- The mask has the bits from the fourth on.
    have hbit : (BitVec.ofNat w 15)[i] = decide (i < 4) := by
      rw [← BitVec.getLsbD_eq_getElem, BitVec.getLsbD_ofNat]
      simp only [hi, decide_true, Bool.true_and]
      exact Nat.testBit_two_pow_sub_one 4 i
    rw [hmask]
    by_cases h : i < 4
    · simp [hi, hbit, h]
    · have h4 : 4 + (i - 4) = i := by omega
      simp [hi, hbit, h, h4]
  have hlt := x.isLt
  rw [hshift, BitVec.toNat_shiftLeft, BitVec.toNat_ushiftRight, Nat.shiftRight_eq_div_pow,
    Nat.shiftLeft_eq]
  exact Nat.mod_eq_of_lt (by omega)

/-! ### Words in memory -/

/-- The `k` bytes from `a` on, the lowest first. -/
def read (m : Mem n) (a : Word n) : (k : Nat) → BitVec (8 * k)
  | 0 => 0#0
  | k + 1 => (m (a + BitVec.ofNat (8 * n) k) ++ read m a k).cast (by omega)

def load (m : Mem n) (a : Word n) : Word n := read m a n

def store (m : Mem n) (a v : Word n) : Mem n :=
  fun x => if InRegion a n x then v.extractLsb' (8 * (x - a).toNat) 8 else m x

/-- The words `vs`, the first at `a`, the others above it. -/
def storeWords (m : Mem n) (a : Word n) : List (Word n) → Mem n
  | [] => m
  | v :: vs => store (storeWords m (a + BitVec.ofNat (8 * n) n) vs) a v

theorem getLsbD_read (m : Mem n) (a : Word n) (k : Nat) {i : Nat} (hi : i < 8 * k) :
    (read m a k).getLsbD i = (m (a + BitVec.ofNat (8 * n) (i / 8))).getLsbD (i % 8) := by
  induction k with
  | zero => omega
  | succ k ih =>
      unfold read
      rw [BitVec.getLsbD_cast, BitVec.getLsbD_append]
      by_cases hk : i < 8 * k
      · rw [if_pos hk]
        exact ih hk
      · -- The bit is in the byte that was put on top.
        have hdiv : i / 8 = k := by omega
        have hmod : i % 8 = i - 8 * k := by omega
        rw [if_neg hk, hdiv, hmod]

/-- A word depends on its bytes only. -/
theorem load_congr {m m' : Mem n} {a : Word n} (h : ∀ x, InRegion a n x → m x = m' x) :
    load m a = load m' a := by
  refine BitVec.eq_of_getLsbD_eq fun i hi => ?_
  unfold load
  rw [getLsbD_read m a n hi, getLsbD_read m' a n hi]
  have hbyte : i / 8 < n := by omega
  have hlt := bytes_lt n
  rw [h (a + BitVec.ofNat (8 * n) (i / 8))]
  unfold InRegion
  rw [add_sub_toNat a (by omega)]
  exact hbyte

theorem store_frame (m : Mem n) {a v x : Word n} (h : ¬ InRegion a n x) : store m a v x = m x :=
  if_neg h

/-- A word that is stored is read back. -/
theorem load_store_self (m : Mem n) (a v : Word n) : load (store m a v) a = v := by
  refine BitVec.eq_of_getLsbD_eq fun i hi => ?_
  have hbyte : i / 8 < n := by omega
  have hlt := bytes_lt n
  have hsub : (a + BitVec.ofNat (8 * n) (i / 8) - a).toNat = i / 8 := add_sub_toNat a (by omega)
  have hin : InRegion a n (a + BitVec.ofNat (8 * n) (i / 8)) := by
    unfold InRegion
    rw [hsub]
    exact hbyte
  have hbit : 8 * (i / 8) + i % 8 = i := by omega
  unfold load
  rw [getLsbD_read _ a n hi, store, if_pos hin, hsub, BitVec.getLsbD_extractLsb', hbit]
  simp [Nat.mod_lt i (by decide : 0 < 8)]

theorem load_store_apart (m : Mem n) {a b : Word n} (v : Word n) (h : Apart a n b n) :
    load (store m b v) a = load m a :=
  load_congr fun x hx => store_frame m (h x hx)

/-- An array leaves the bytes outside it as they are. -/
theorem storeWords_frame (m : Mem n) (a : Word n) (vs : List (Word n)) {x : Word n}
    (h : ¬ InRegion a (n * vs.length) x) : storeWords m a vs x = m x := by
  induction vs generalizing a with
  | nil => rfl
  | cons v vs ih =>
      unfold InRegion at h
      have hlen : n * (v :: vs).length = n + n * vs.length := by
        rw [List.length_cons, Nat.mul_succ, Nat.add_comm]
      have hge : n + n * vs.length ≤ (x - a).toNat := by omega
      have hhead : ¬ InRegion a n x := by
        unfold InRegion
        omega
      have htail : ¬ InRegion (a + BitVec.ofNat (8 * n) n) (n * vs.length) x := by
        unfold InRegion
        rw [sub_add_toNat x a (by omega)]
        omega
      unfold storeWords
      rw [store_frame _ hhead, ih _ htail]

theorem load_storeWords_apart (m : Mem n) {a b : Word n} (vs : List (Word n))
    (h : Apart a n b (n * vs.length)) : load (storeWords m b vs) a = load m a :=
  load_congr fun x hx => storeWords_frame m b vs (h x hx)

/-- The words of an array are read back, if it does not run into itself. -/
theorem load_storeWords (m : Mem n) (a : Word n) (vs : List (Word n)) (k : Nat)
    (hk : k < vs.length) (hfit : n * vs.length ≤ 2 ^ (8 * n)) :
    load (storeWords m a vs) (a + BitVec.ofNat (8 * n) (n * k)) = vs[k] := by
  induction vs generalizing a k with
  | nil => exact absurd hk (Nat.not_lt_zero k)
  | cons v vs ih =>
      have hlen : n * (v :: vs).length = n + n * vs.length := by
        rw [List.length_cons, Nat.mul_succ, Nat.add_comm]
      cases k with
      | zero =>
          have hzero : a + BitVec.ofNat (8 * n) (n * 0) = a := by simp
          rw [hzero]
          exact load_store_self _ a v
      | succ k =>
          have hk' : k < vs.length := by simpa using hk
          have hnk : n * (k + 1) = n + n * k := by rw [Nat.mul_succ, Nat.add_comm]
          have hmul : n * (k + 1) ≤ n * vs.length := Nat.mul_le_mul_left n hk'
          have haddr : a + BitVec.ofNat (8 * n) (n * (k + 1)) =
              a + BitVec.ofNat (8 * n) n + BitVec.ofNat (8 * n) (n * k) := by
            rw [hnk, BitVec.ofNat_add, BitVec.add_assoc]
          -- The word at the bottom is below those of the rest.
          have hlow : Apart (a + BitVec.ofNat (8 * n) (n * (k + 1))) n a n :=
            apart_add a (by omega) (by omega)
          unfold storeWords
          rw [load_store_apart _ v hlow, haddr, ih _ k hk' (by omega)]
          rfl

theorem storeWords_concat (m : Mem n) (a : Word n) (vs : List (Word n)) (v : Word n) :
    storeWords m a (vs ++ [v]) =
      storeWords (store m (a + BitVec.ofNat (8 * n) (n * vs.length)) v) a vs := by
  induction vs generalizing a with
  | nil => simp [storeWords]
  | cons w vs ih =>
      have haddr : a + BitVec.ofNat (8 * n) n + BitVec.ofNat (8 * n) (n * vs.length) =
          a + BitVec.ofNat (8 * n) (n * (w :: vs).length) := by
        rw [BitVec.add_assoc, ← BitVec.ofNat_add, List.length_cons, Nat.mul_succ, Nat.add_comm]
      rw [List.cons_append, storeWords, ih, haddr, storeWords]

/-! ### The machine -/

inductive Reg where
  | ax | bx | cx | dx | di | si | bp | sp
  | r8 | r9 | r10 | r11 | r12 | r13 | r14 | r15
  deriving DecidableEq, Repr

/-- Registers and memory. `ip` is the address the last `ret` went to. -/
structure State (n : Nat) where
  reg : Reg → Word n
  mem : Mem n
  ip : Word n

/-- Operands stand in the order source, destination. -/
inductive Instr where
  /-- `lea disp(base), dst` -/
  | lea (disp : Int) (base dst : Reg)
  /-- `mov disp(base), dst` -/
  | load (disp : Int) (base dst : Reg)
  | mov (src dst : Reg)
  | push (src : Reg)
  /-- `push disp(base)` -/
  | pushMem (disp : Int) (base : Reg)
  | pop (dst : Reg)
  /-- On 32 bits; the upper half of a longer register is cleared. -/
  | xorl (src dst : Reg)
  | ret
  deriving DecidableEq, Repr

namespace State

def setReg (s : State n) (r : Reg) (v : Word n) : State n :=
  { s with reg := Function.update s.reg r v }

/-- `disp(base)`. -/
def addr (s : State n) (disp : Int) (base : Reg) : Word n :=
  s.reg base + BitVec.ofInt (8 * n) disp

def push (s : State n) (v : Word n) : State n :=
  let a := s.reg .sp - BitVec.ofNat (8 * n) n
  { s.setReg .sp a with mem := store s.mem a v }

/-- The stack pointer is moved up before `dst` is written. -/
def pop (s : State n) (dst : Reg) : State n :=
  (s.setReg .sp (s.reg .sp + BitVec.ofNat (8 * n) n)).setReg dst (load s.mem (s.reg .sp))

end State

def step (s : State n) : Instr → State n
  | .lea disp base dst => s.setReg dst (s.addr disp base)
  | .load disp base dst => s.setReg dst (load s.mem (s.addr disp base))
  | .mov src dst => s.setReg dst (s.reg src)
  | .push src => s.push (s.reg src)
  | .pushMem disp base => s.push (load s.mem (s.addr disp base))
  | .pop dst => s.pop dst
  | .xorl src dst =>
    s.setReg dst (((s.reg src ^^^ s.reg dst).setWidth 32).setWidth (8 * n))
  | .ret =>
    { s.setReg .sp (s.reg .sp + BitVec.ofNat (8 * n) n) with ip := load s.mem (s.reg .sp) }

/-- Straight-line code. -/
def run (code : List Instr) (s : State n) : State n := code.foldl step s

theorem run_append (c d : List Instr) (s : State n) : run (c ++ d) s = run d (run c s) :=
  List.foldl_append

@[simp]
theorem run_nil (s : State n) : run [] s = s := rfl

@[simp]
theorem run_cons (i : Instr) (c : List Instr) (s : State n) :
    run (i :: c) s = run c (step s i) := rfl

/-- Pushing registers stores an array below the stack pointer, in reverse. -/
theorem run_pushes (rs : List Reg) (hsp : .sp ∉ rs) (s : State n) :
    run (rs.map .push) s =
      { s.setReg .sp (s.reg .sp - BitVec.ofNat (8 * n) (n * rs.length)) with
        mem := storeWords s.mem (s.reg .sp - BitVec.ofNat (8 * n) (n * rs.length))
          (rs.map s.reg).reverse } := by
  induction rs generalizing s with
  | nil => simp [State.setReg, storeWords]
  | cons r rs ih =>
      have hr : r ≠ .sp := fun h => hsp (by simp [h])
      have hrs : .sp ∉ rs := fun h => hsp (List.mem_cons_of_mem r h)
      -- The first push moves the stack pointer and nothing the others read.
      have hvals : rs.map (s.push (s.reg r)).reg = rs.map s.reg := by
        refine List.map_congr_left fun q hq => ?_
        have hne : q ≠ .sp := fun h => hrs (h ▸ hq)
        exact Function.update_of_ne hne _ _
      have hlen : BitVec.ofNat (8 * n) (n * (r :: rs).length) =
          BitVec.ofNat (8 * n) n + BitVec.ofNat (8 * n) (n * rs.length) := by
        rw [← BitVec.ofNat_add, List.length_cons, Nat.mul_succ, Nat.add_comm]
      have hsub : s.reg .sp - BitVec.ofNat (8 * n) n - BitVec.ofNat (8 * n) (n * rs.length) =
          s.reg .sp - BitVec.ofNat (8 * n) (n * (r :: rs).length) := by
        rw [BitVec.sub_sub, hlen]
      have htop : s.reg .sp - BitVec.ofNat (8 * n) (n * (r :: rs).length) +
          BitVec.ofNat (8 * n) (n * rs.length) = s.reg .sp - BitVec.ofNat (8 * n) n := by
        rw [← hsub, BitVec.sub_add_cancel]
      have hsp' : (s.push (s.reg r)).reg .sp = s.reg .sp - BitVec.ofNat (8 * n) n := by
        simp [State.push, State.setReg]
      have hmem : (s.push (s.reg r)).mem =
          store s.mem (s.reg .sp - BitVec.ofNat (8 * n) n) (s.reg r) := rfl
      have hstep : step s (.push r) = s.push (s.reg r) := rfl
      rw [List.map_cons, run_cons, hstep, ih hrs, hvals, hsp', hmem, hsub, List.map_cons,
        List.reverse_cons, storeWords_concat, List.length_reverse, List.length_map, htop]
      simp [State.setReg, State.push]

/-- Popping registers loads them from the array at the stack pointer. -/
theorem run_pops (rs : List Reg) (hsp : .sp ∉ rs) (hnodup : rs.Nodup) (s : State n) :
    (run (rs.map .pop) s).mem = s.mem ∧ (run (rs.map .pop) s).ip = s.ip ∧
    (run (rs.map .pop) s).reg .sp = s.reg .sp + BitVec.ofNat (8 * n) (n * rs.length) ∧
    (∀ k, (hk : k < rs.length) → (run (rs.map .pop) s).reg rs[k] =
      load s.mem (s.reg .sp + BitVec.ofNat (8 * n) (n * k))) ∧
    ∀ r, r ∉ rs → r ≠ .sp → (run (rs.map .pop) s).reg r = s.reg r := by
  induction rs generalizing s with
  | nil => simp
  | cons q rs ih =>
      have hq : q ≠ .sp := fun h => hsp (by simp [h])
      have hrs : .sp ∉ rs := fun h => hsp (List.mem_cons_of_mem q h)
      have hnot : q ∉ rs := (List.nodup_cons.mp hnodup).1
      obtain ⟨hmem, hip, hsp', hval, hrest⟩ := ih hrs (List.nodup_cons.mp hnodup).2 (s.pop q)
      have hstep : step s (.pop q) = s.pop q := rfl
      have hpop : (s.pop q).reg .sp = s.reg .sp + BitVec.ofNat (8 * n) n := by
        simp [State.pop, State.setReg, Ne.symm hq]
      have hpopq : (s.pop q).reg q = load s.mem (s.reg .sp) := Function.update_self _ _ _
      rw [List.map_cons, run_cons, hstep]
      refine ⟨hmem, hip, ?_, ?_, ?_⟩
      · rw [hsp', hpop, BitVec.add_assoc, ← BitVec.ofNat_add, List.length_cons, Nat.mul_succ,
          Nat.add_comm]
      · intro k hk
        cases k with
        | zero =>
            have hzero : s.reg .sp + BitVec.ofNat (8 * n) (n * 0) = s.reg .sp := by simp
            rw [hzero, ← hpopq]
            exact hrest q hnot hq
        | succ k =>
            have hk' : k < rs.length := by simpa using hk
            have haddr : s.reg .sp + BitVec.ofNat (8 * n) (n * (k + 1)) =
                s.reg .sp + BitVec.ofNat (8 * n) n + BitVec.ofNat (8 * n) (n * k) := by
              rw [BitVec.add_assoc, ← BitVec.ofNat_add, Nat.mul_succ, Nat.add_comm]
            have hget : (q :: rs)[k + 1] = rs[k] := rfl
            rw [hget, hval k hk', hpop, haddr]
            rfl
      · intro r hr hne
        have hrq : r ≠ q := fun h => hr (by simp [h])
        have hr' : r ∉ rs := fun h => hr (List.mem_cons_of_mem q h)
        rw [hrest r hr' hne]
        simp [State.pop, State.setReg, hrq, hne]

end X86
