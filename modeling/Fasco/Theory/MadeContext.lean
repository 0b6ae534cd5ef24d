import Fasco.Theory.SwapCode

/-!
# Entering a Function

`McontextMake` writes the context of a function that has not been called yet,
and the first switch to it calls the function. The two targets pass the
argument differently. On x86_64 it is in the slot of `rdi`, which the switch
loads. On i386 it is a word at the top of the stack, and the stack pointer in
the context is one word below it: the switch pushes the entry address there
less one word more and returns to it, and what `ret` leaves above the stack
pointer is what a caller would have left, a word for the return address and
then the argument.

`stackTop` is the address `McontextMake` rounds down to a multiple of sixteen.
All words lie within two words below it and, on i386, one word from it on, so
32 bytes of stack are enough whatever its address and size are.

## Main definitions

* `Target.argSize`, `Target.argAddr`: Where the argument goes.
* `Target.Room`: What the entry needs is in the stack.
* `Target.Prepared`: A switch to a made context.

## Theorems

* `stackTop_bounds`: Where the top is in the stack.
* `make_frame`: What `McontextMake` writes.
* `make_slotSp`, `make_slotRet`, `make_arg`: What it leaves in the context.
* `init_context_enters_nothing`: Without it a switch leads nowhere.
* `Prepared.arg`: The function finds its argument.
* `made_context_enters`: A switch to a made context calls the function.
-/

namespace Fasco

open X86

namespace Target

variable {T : Target}

/-- The bytes of the argument on the stack. -/
def argSize : Target → Nat
  | .i386 => 4
  | .x86_64 => 0

/-- Where `McontextMake` puts the argument: at the top of the stack, or in the
    slot of `rdi`. -/
def argAddr : (T : Target) → T.Word → T.Word → T.Word
  | .i386, _, top => top
  | .x86_64, ctx, _ => slotAddr .x86_64 ctx slotDi

/-! ### The top of the stack -/

theorem align_sub_toNat {w : Nat} (base size : BitVec w) {c : Nat}
    (hc : c ≤ base.toNat + size.toNat) (hwrap : base.toNat + size.toNat < 2 ^ w) :
    ((base + size - BitVec.ofNat w c) &&& BitVec.ofInt w (-16)).toNat =
      (base.toNat + size.toNat - c) / 16 * 16 := by
  have hsum : (base + size).toNat = base.toNat + size.toNat := BitVec.toNat_add_of_lt hwrap
  have hcw : (BitVec.ofNat w c).toNat = c := by
    rw [BitVec.toNat_ofNat]
    exact Nat.mod_eq_of_lt (by omega)
  have hle : BitVec.ofNat w c ≤ base + size := by
    rw [BitVec.le_def, hcw, hsum]
    exact hc
  rw [align_toNat, BitVec.toNat_sub_of_le hle, hcw, hsum]

/-- The top is a multiple of sixteen, two words above the bottom at least, and
    leaves room for the argument. -/
theorem stackTop_bounds (T : Target) (base size : T.Word) (hsize : 32 ≤ size.toNat)
    (hwrap : base.toNat + size.toNat < 2 ^ (8 * T.bytes)) :
    (T.stackTop base size).toNat % 16 = 0 ∧
      base.toNat + 2 * T.bytes ≤ (T.stackTop base size).toNat ∧
      (T.stackTop base size).toNat + T.argSize ≤ base.toNat + size.toNat ∧
      (T.stackTop base size).toNat < base.toNat + size.toNat := by
  cases T with
  | i386 =>
      have htop : (stackTop .i386 base size).toNat = (base.toNat + size.toNat - 4) / 16 * 16 :=
        align_sub_toNat base size (c := 4) (by omega) hwrap
      simp only [htop, argSize, bytes]
      omega
  | x86_64 =>
      have htop : (stackTop .x86_64 base size).toNat = (base.toNat + size.toNat - 1) / 16 * 16 :=
        align_sub_toNat base size (c := 1) (by omega) hwrap
      simp only [htop, argSize, bytes]
      omega

theorem wordSize_toNat (T : Target) : T.wordSize.toNat = T.bytes := by
  cases T <;> rfl

theorem sub_word_toNat {a : T.Word} (h : T.bytes ≤ a.toNat) :
    (a - T.wordSize).toNat = a.toNat - T.bytes := by
  have hle : T.wordSize ≤ a := by
    rw [BitVec.le_def, wordSize_toNat]
    exact h
  rw [BitVec.toNat_sub_of_le hle, wordSize_toNat]

/-- What is written below and above the top of a stack, and the stack pointer
    a function is entered with, are in the stack. -/
structure Room (T : Target) (base size top : T.Word) : Prop where
  aligned : top.toNat % 16 = 0
  arg : ∀ x, InRegion top T.argSize x → InRegion base size.toNat x
  entry : InRegion base size.toNat (top - T.wordSize)
  pushed : ∀ x, InRegion (top - T.wordSize - T.wordSize) T.bytes x → InRegion base size.toNat x
  apart : Apart top T.argSize (top - T.wordSize - T.wordSize) T.bytes

theorem room (T : Target) (base size : T.Word) (hsize : 32 ≤ size.toNat)
    (hwrap : base.toNat + size.toNat < 2 ^ (8 * T.bytes)) :
    T.Room base size (T.stackTop base size) := by
  -- Everything in question is within two words of the top, which the rounding leaves
  -- above the middle of the stack.
  obtain ⟨hmod, hlow, hhigh, hlt⟩ := stackTop_bounds T base size hsize hwrap
  generalize T.stackTop base size = top at *
  have hbytes : 0 < T.bytes := by cases T <;> decide
  have hentry : (top - T.wordSize).toNat = top.toNat - T.bytes := sub_word_toNat (by omega)
  have hpushed : (top - T.wordSize - T.wordSize).toNat = top.toNat - T.bytes - T.bytes := by
    rw [sub_word_toNat (by omega), hentry]
  refine ⟨hmod, fun x hx => ?_, ?_, fun x hx => ?_, ?_⟩
  · exact InRegion.of_le (by omega) hhigh (by omega) hx
  · have hself : InRegion (top - T.wordSize) 1 (top - T.wordSize) := by simp [InRegion]
    exact InRegion.of_le (by omega) (by omega) (by omega) hself
  · exact InRegion.of_le (by omega) (by omega) (by omega) hx
  · exact (apart_of_le (by omega) (by omega)).symm

/-! ### The context -/

theorem contextSize_le (T : Target) : T.contextSize ≤ 2 ^ (8 * T.bytes) := by
  cases T <;> decide

theorem slot_in_context {ctx x : T.Word} {k : Nat} (hk : k < T.slots)
    (hx : InRegion (T.slotAddr ctx k) T.bytes x) : InRegion ctx T.regsSize x := by
  have hmul : T.bytes * (k + 1) ≤ T.bytes * T.slots := Nat.mul_le_mul_left _ hk
  rw [Nat.mul_succ] at hmul
  exact InRegion.of_part hmul (regsSize_le T) hx

/-- A word of the context above another one. -/
theorem word_above (ctx : T.Word) {j k : Nat} (hjk : k < j) (hj : j < T.slots + 2) :
    Apart (T.slotAddr ctx j) T.bytes (T.slotAddr ctx k) T.bytes := by
  have hsum : k + (j - k) = j := by omega
  have haddr := slotAddr_add ctx k (j - k)
  rw [hsum] at haddr
  have hlow : T.bytes * 1 ≤ T.bytes * (j - k) := Nat.mul_le_mul_left _ (by omega)
  have hhigh : T.bytes * (j - k + 1) ≤ T.contextSize := Nat.mul_le_mul_left _ (by omega)
  have hfit := contextSize_le T
  rw [Nat.mul_one] at hlow
  rw [Nat.mul_succ] at hhigh
  rw [← haddr]
  exact apart_add _ hlow (by omega)

theorem words_apart (ctx : T.Word) {j k : Nat} (hne : j ≠ k) (hj : j < T.slots + 2)
    (hk : k < T.slots + 2) : Apart (T.slotAddr ctx j) T.bytes (T.slotAddr ctx k) T.bytes := by
  rcases Nat.lt_or_gt_of_ne hne with hlt | hgt
  · exact (word_above ctx hlt hk).symm
  · exact word_above ctx hgt hj

-- Clearing the registers leaves the fields behind them.
theorem clear_field (m : Mem T.bytes) (ctx : T.Word) {k : Nat} (hk : T.slots ≤ k)
    (hk' : k < T.slots + 2) :
    load (T.clearRegs m ctx) (T.slotAddr ctx k) = load m (T.slotAddr ctx k) := by
  have hhigh : T.bytes * (k + 1) ≤ T.contextSize := Nat.mul_le_mul_left _ (by omega)
  have hfit := contextSize_le T
  rw [Nat.mul_succ] at hhigh
  refine load_storeWords_apart m _ ?_
  rw [List.length_replicate]
  exact apart_add ctx (Nat.mul_le_mul_left _ hk) (by omega)

/-! ### What `McontextMake` writes -/

theorem make_eq (m : Mem T.bytes) (ctx pfn s : T.Word) :
    T.mcontextMake m ctx pfn s =
      store (store (store (T.clearRegs m ctx)
        (T.argAddr ctx (T.stackTop (T.ssSp m ctx) (T.ssSize m ctx))) s)
        (T.slotAddr ctx T.slotSp) (T.stackTop (T.ssSp m ctx) (T.ssSize m ctx) - T.wordSize))
        (T.slotAddr ctx T.slotRet) pfn := by
  have hsp : T.ssSp (T.clearRegs m ctx) ctx = T.ssSp m ctx :=
    clear_field m ctx (Nat.le_succ T.slots) (by omega)
  have hsize : T.ssSize (T.clearRegs m ctx) ctx = T.ssSize m ctx :=
    clear_field m ctx (Nat.le_refl T.slots) (by omega)
  cases T with
  | i386 =>
      rw [mcontextMake, hsp, hsize]
      rfl
  | x86_64 =>
      rw [mcontextMake, hsp, hsize]
      rfl

/-- The argument goes into the context or onto the stack. -/
theorem argAddr_region {ctx top x : T.Word} (h : InRegion (T.argAddr ctx top) T.bytes x) :
    InRegion ctx T.regsSize x ∨ InRegion top T.argSize x := by
  cases T with
  | i386 => exact Or.inr h
  | x86_64 => exact Or.inl (slot_in_context (by decide) h)

theorem slots_lt (T : Target) : T.slotSp < T.slots ∧ T.slotRet < T.slots ∧
    T.slotSp ≠ T.slotRet := by
  cases T <;> decide

/-- The registers of the context are written, and on i386 the argument on the
    stack, and nothing else. -/
theorem make_frame (m : Mem T.bytes) (ctx pfn s : T.Word) {x : T.Word}
    (hx : ¬ InRegion ctx T.regsSize x)
    (hx' : ¬ InRegion (T.stackTop (T.ssSp m ctx) (T.ssSize m ctx)) T.argSize x) :
    T.mcontextMake m ctx pfn s x = m x := by
  have hslot : ∀ k, k < T.slots → ¬ InRegion (T.slotAddr ctx k) T.bytes x :=
    fun k hk h => hx (slot_in_context hk h)
  have hclear : T.clearRegs m ctx x = m x := by
    refine storeWords_frame m ctx _ ?_
    rw [List.length_replicate]
    exact hx
  have harg : ¬ InRegion (T.argAddr ctx (T.stackTop (T.ssSp m ctx) (T.ssSize m ctx))) T.bytes x :=
    fun h => (argAddr_region h).elim hx hx'
  -- The four writes, the last one first.
  rw [make_eq, store_frame _ (hslot _ (slots_lt T).2.1), store_frame _ (hslot _ (slots_lt T).1),
    store_frame _ harg, hclear]

theorem make_slotRet (m : Mem T.bytes) (ctx pfn s : T.Word) :
    load (T.mcontextMake m ctx pfn s) (T.slotAddr ctx T.slotRet) = pfn := by
  rw [make_eq]
  exact load_store_self _ _ _

theorem make_slotSp (m : Mem T.bytes) (ctx pfn s : T.Word) :
    load (T.mcontextMake m ctx pfn s) (T.slotAddr ctx T.slotSp) =
      T.stackTop (T.ssSp m ctx) (T.ssSize m ctx) - T.wordSize := by
  have hlt := slots_lt T
  rw [make_eq, load_store_apart _ _ (words_apart ctx hlt.2.2 (by omega) (by omega))]
  exact load_store_self _ _ _

/-- The argument is not overwritten, the stack being apart from the context. -/
theorem make_arg (m : Mem T.bytes) (ctx pfn s : T.Word)
    (hstack : Apart (T.stackTop (T.ssSp m ctx) (T.ssSize m ctx)) T.argSize ctx T.regsSize) :
    load (T.mcontextMake m ctx pfn s)
      (T.argAddr ctx (T.stackTop (T.ssSp m ctx) (T.ssSize m ctx))) = s := by
  have hapart : ∀ k, k < T.slots → k ≠ slotDi →
      Apart (T.argAddr ctx (T.stackTop (T.ssSp m ctx) (T.ssSize m ctx))) T.bytes
        (T.slotAddr ctx k) T.bytes := by
    intro k hk hne
    cases T with
    | i386 => exact fun x hx hslot => hstack x hx (slot_in_context hk hslot)
    | x86_64 => exact words_apart ctx hne.symm (by decide) (by omega)
  have hne : T.slotRet ≠ slotDi ∧ T.slotSp ≠ slotDi := by cases T <;> decide
  rw [make_eq, load_store_apart _ _ (hapart _ (slots_lt T).2.1 hne.1),
    load_store_apart _ _ (hapart _ (slots_lt T).1 hne.2)]
  exact load_store_self _ _ _

/-! ### The switch to a context that is not made -/

/-- `McontextInit` leaves nothing in the context. -/
theorem init_slot (m : Mem T.bytes) (ctx : T.Word) {k : Nat} (hk : k < T.slots) :
    load (T.mcontextInit m ctx) (T.slotAddr ctx k) = 0 := by
  have hlen : k < (List.replicate (T.slots + 2) (0 : T.Word)).length := by
    rw [List.length_replicate]
    omega
  have hsize : T.bytes * (List.replicate (T.slots + 2) (0 : T.Word)).length ≤
      2 ^ (8 * T.bytes) := by
    rw [List.length_replicate]
    cases T <;> decide
  refine (load_storeWords m ctx _ k hlen hsize).trans ?_
  rw [List.getElem_replicate]

/-- A switch to a context that has been initialised only goes on at address
    zero, with the stack pointer there, too: there is nothing to go on with. -/
theorem init_context_enters_nothing (m : Mem T.bytes) (ctx : T.Word) (u : State T.bytes)
    (hsep : T.Separate u) (hdest : T.arg1 u = ctx)
    (hkept : ∀ x, InRegion ctx T.regsSize x → u.mem x = T.mcontextInit m ctx x) :
    (run T.mcoSwap u).ip = 0 ∧ (run T.mcoSwap u).reg .sp = 0 := by
  have hspec := swap_spec u hsep
  have hslot : ∀ k, k < T.slots → load u.mem (T.slotAddr (T.arg1 u) k) = 0 := by
    intro k hk
    rw [hdest, ← init_slot m ctx hk]
    exact load_congr fun x hx => hkept x (slot_in_context hk hx)
  exact ⟨hspec.ip.trans (hslot _ (slots_lt T).2.1), hspec.sp.trans (hslot _ (slots_lt T).1)⟩

/-! ### The switch to a made context -/

/-- `McontextMake` has prepared `ctx` in memory `m`, and `mco_swap(x, ctx)` is
    called in state `u`: the context, the array of `x` and the stack of the
    context are different objects, the call has not been made with arguments
    in the array of `x`, and what `McontextMake` has written is still there. -/
structure Prepared (T : Target) (m : Mem T.bytes) (ctx pfn s : T.Word) (u : State T.bytes) :
    Prop where
  dest : T.arg1 u = ctx
  arrays : Apart (T.arg0 u) T.regsSize ctx T.regsSize
  context : Apart ctx T.regsSize (T.ssSp m ctx) (T.ssSize m ctx).toNat
  array : Apart (T.arg0 u) T.regsSize (T.ssSp m ctx) (T.ssSize m ctx).toNat
  frame : Apart (T.arg0 u) T.regsSize (u.reg .sp) T.frameSize
  kept : ∀ x, InRegion ctx T.regsSize x ∨
    InRegion (T.stackTop (T.ssSp m ctx) (T.ssSize m ctx)) T.argSize x →
    u.mem x = T.mcontextMake m ctx pfn s x

section

variable {m : Mem T.bytes} {ctx pfn s : T.Word} {u : State T.bytes}
  (h : Prepared T m ctx pfn s u)
  (hroom : T.Room (T.ssSp m ctx) (T.ssSize m ctx) (T.stackTop (T.ssSp m ctx) (T.ssSize m ctx)))

include h

/-- What `McontextMake` has put into a slot is there when the switch reads
    it. -/
theorem Prepared.slot {k : Nat} (hk : k < T.slots) :
    load u.mem (T.slotAddr (T.arg1 u) k) =
      load (T.mcontextMake m ctx pfn s) (T.slotAddr ctx k) := by
  rw [h.dest]
  exact load_congr fun x hx => h.kept x (Or.inl (slot_in_context hk hx))

theorem Prepared.slotSp : load u.mem (T.slotAddr (T.arg1 u) T.slotSp) =
    T.stackTop (T.ssSp m ctx) (T.ssSize m ctx) - T.wordSize := by
  rw [h.slot (slots_lt T).1, make_slotSp]

theorem Prepared.slotRet : load u.mem (T.slotAddr (T.arg1 u) T.slotRet) = pfn := by
  rw [h.slot (slots_lt T).2.1, make_slotRet]

include hroom

theorem Prepared.separate : T.Separate u := by
  refine ⟨?_, h.frame, ?_⟩
  · rw [h.dest]
    exact h.arrays
  · rw [h.slotSp]
    exact fun x hx hw => h.array x hx (hroom.pushed x hw)

/-- The function finds its argument: on i386 above the word the switch has
    pushed and popped, on x86_64 in the register it has loaded. -/
theorem Prepared.arg : T.arg0 (run T.mcoSwap u) = s := by
  have hspec := swap_spec u (h.separate hroom)
  have hmade := make_arg m ctx pfn s fun x hx hc => h.context x hc (hroom.arg x hx)
  have hmem := hspec.mem
  have hsp := hspec.sp
  rw [h.slotSp] at hmem hsp
  cases T with
  | i386 =>
      generalize htop : stackTop .i386 (ssSp .i386 m ctx) (ssSize .i386 m ctx) = top at *
      -- The return address has been popped, so the argument is a word above.
      have htop4 : (run (mcoSwap .i386) u).reg .sp + 4 = top := by
        rw [hsp]
        exact BitVec.sub_add_cancel top 4
      have hpush : Apart top (bytes .i386) (top - wordSize .i386 - wordSize .i386) (bytes .i386) :=
        hroom.apart
      have harray : Apart top (bytes .i386) (arg0 .i386 u)
          (bytes .i386 * (image .i386 u).length) := by
        rw [image_length]
        exact fun x hx ha => h.array x ha (hroom.arg x hx)
      have hread : arg0 .i386 (run (mcoSwap .i386) u) =
          load (run (mcoSwap .i386) u).mem ((run (mcoSwap .i386) u).reg .sp + 4) := rfl
      rw [hread, htop4, hmem, load_store_apart _ _ hpush, load_storeWords_apart _ _ harray]
      refine Eq.trans (load_congr fun x hx => h.kept x (Or.inr ?_)) hmade
      rw [htop]
      exact hx
  | x86_64 =>
      -- The argument is in the slot of `di`, which the switch loads.
      have hreg := hspec.reg 4 (by decide) (by decide)
      have hread : arg0 .x86_64 (run (mcoSwap .x86_64) u) =
          (run (mcoSwap .x86_64) u).reg (saved .x86_64)[4] := rfl
      rw [hread, hreg, h.slot (by decide)]
      exact hmade

end

/-- The function is called with its argument, on the stack of the context: the
    stack pointer at its entry is what the target asks for and lies in the
    stack, and but for the context itself and the array of the other one
    nothing is written outside of the stack. -/
theorem made_context_enters (T : Target) (m : Mem T.bytes) (ctx pfn s : T.Word)
    (u : State T.bytes) (h : Prepared T m ctx pfn s u) (hsize : 32 ≤ (T.ssSize m ctx).toNat)
    (hwrap : (T.ssSp m ctx).toNat + (T.ssSize m ctx).toNat < 2 ^ (8 * T.bytes)) :
    (run T.mcoSwap u).ip = pfn ∧ T.arg0 (run T.mcoSwap u) = s ∧
    ((run T.mcoSwap u).reg .sp + T.wordSize).toNat % 16 = 0 ∧
    InRegion (T.ssSp m ctx) (T.ssSize m ctx).toNat ((run T.mcoSwap u).reg .sp) ∧
    (∀ x, ¬ InRegion ctx T.regsSize x →
      ¬ InRegion (T.ssSp m ctx) (T.ssSize m ctx).toNat x → T.mcontextMake m ctx pfn s x = m x) ∧
    ∀ x, ¬ InRegion (T.arg0 u) T.regsSize x →
      ¬ InRegion (T.ssSp m ctx) (T.ssSize m ctx).toNat x →
      (run T.mcoSwap u).mem x = u.mem x := by
  have hroom := room T _ _ hsize hwrap
  have hsep := h.separate hroom
  have hspec := swap_spec u hsep
  have hsp := hspec.sp
  rw [h.slotSp] at hsp
  refine ⟨hspec.ip.trans h.slotRet, h.arg hroom, ?_, ?_, fun x hx hx' => ?_, fun x hx hx' => ?_⟩
  · rw [hsp, BitVec.sub_add_cancel]
    exact hroom.aligned
  · rw [hsp]
    exact hroom.entry
  · exact make_frame m ctx pfn s hx fun ha => hx' (hroom.arg x ha)
  · refine swap_frame u hsep hx ?_
    rw [h.slotSp]
    exact fun hb => hx' (hroom.pushed x hb)

/-- A context at 1000 with 4096 bytes of stack at 8192. -/
def fields : Mem 8 := store (store (fun _ => 0) 1136 4096) 1144 8192

theorem fields_ssSp : ssSp .x86_64 fields 1000 = 8192 := load_store_self _ _ _

theorem fields_ssSize : ssSize .x86_64 fields 1000 = 4096 := by
  have hapart : Apart (1136 : X86.Word 8) 8 1144 8 := apart_of_le (by decide) (by decide)
  exact (load_store_apart _ _ hapart).trans (load_store_self _ _ _)

/-- A call of `mco_swap` with contexts at 2000 and 1000. -/
def entering (m : Mem 8) : State 8 where
  reg := fun r => match r with
    | .di => 2000
    | .si => 1000
    | .sp => 3000
    | _ => 0
  mem := m
  ip := 0

theorem entering_prepared :
    Prepared .x86_64 fields 1000 77 5 (entering (mcontextMake .x86_64 fields 1000 77 5)) := by
  have harrays : Apart (1000 : X86.Word 8) 136 2000 136 := apart_of_le (by decide) (by decide)
  have hcontext : Apart (1000 : X86.Word 8) 136 8192 4096 := apart_of_le (by decide) (by decide)
  have harray : Apart (2000 : X86.Word 8) 136 8192 4096 := apart_of_le (by decide) (by decide)
  have hframe : Apart (2000 : X86.Word 8) 136 3000 8 := apart_of_le (by decide) (by decide)
  refine ⟨rfl, harrays.symm, ?_, ?_, hframe, fun _ _ => rfl⟩
  · rw [fields_ssSp, fields_ssSize]
    exact hcontext
  · rw [fields_ssSp, fields_ssSize]
    exact harray

/-- The function at 77 is called with 5. -/
theorem made_context_enters_call :
    (run (mcoSwap .x86_64) (entering (mcontextMake .x86_64 fields 1000 77 5))).ip = 77 ∧
      arg0 .x86_64 (run (mcoSwap .x86_64) (entering (mcontextMake .x86_64 fields 1000 77 5))) =
        5 := by
  obtain ⟨hip, harg, -⟩ := made_context_enters .x86_64 fields 1000 77 5 _ entering_prepared
    (by rw [fields_ssSize]; decide) (by rw [fields_ssSp, fields_ssSize]; decide)
  exact ⟨hip, harg⟩

end Target

end Fasco
