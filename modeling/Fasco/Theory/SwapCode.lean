import Fasco.Core.Swap

/-!
# What the Switch Saves and Loads

`mco_swap` as a transition between two machine states. The code is cut into
its parts: the arguments are fetched and the cursor is put above the array of
`a`; everything is pushed; the cursor is put on the array of `b`; everything
is popped, and the return address goes back on the stack.

The array of `a` then holds `image`: the registers in the order of their
slots, the return address, and the stack pointer as it is after the return.
The registers come from the array of `b`. All this needs the two arrays, and
what the call has put on the stack, to be apart: the array of `a` is filled
before the return address and, on i386, the second argument are read.

A context that has been saved is one that can be loaded: what `image` puts in
a slot is what a later switch takes out of it, since both count the slots from
the same end. `swap_saves_and_restores` is that for a whole detour, whatever
happens in between to everything but the array.

## Main definitions

* `Target.image`: The words a switch leaves in the array of `a`.
* `Target.Separate`: The regions a switch uses are apart.
* `Target.Swapped`: What a switch does.
* `Target.detour`, `Target.comeback`: A switch and the switch back.

## Theorems

* `mcoSwap_eq`: The parts of the code.
* `pushes_run`, `exit_run`: What the parts do.
* `swap_spec`: A switch does that.
* `swap_frame`: A switch writes nothing else.
* `swap_saves_and_restores`: A context that is saved is restored.
-/

namespace Fasco

open X86

namespace Target

variable {T : Target}

/-- `sizeof(void *)` as a word. -/
abbrev wordSize (T : Target) : T.Word := BitVec.ofNat (8 * T.bytes) T.bytes

/-- What `mco_swap` leaves in the array of its first argument. -/
def image (T : Target) (s : State T.bytes) : List T.Word :=
  T.saved.map (Function.update s.reg .ax (s.reg .sp + T.wordSize)) ++
    [load s.mem (s.reg .sp), s.reg .sp + T.wordSize]

/-- The two arrays, what is on the stack for the call, and the word below the
    stack pointer that is loaded, as far as they are written. -/
structure Separate (T : Target) (s : State T.bytes) : Prop where
  arrays : Apart (T.arg0 s) T.regsSize (T.arg1 s) T.regsSize
  frame : Apart (T.arg0 s) T.regsSize (s.reg .sp) T.frameSize
  below : Apart (T.arg0 s) T.regsSize
    (load s.mem (T.slotAddr (T.arg1 s) T.slotSp) - T.wordSize) T.bytes

/-- `mco_swap` has been run in state `s` and has left state `t`. -/
structure Swapped (T : Target) (s t : State T.bytes) : Prop where
  mem : t.mem = store (storeWords s.mem (T.arg0 s) (T.image s))
    (load s.mem (T.slotAddr (T.arg1 s) T.slotSp) - T.wordSize)
    (load s.mem (T.slotAddr (T.arg1 s) T.slotRet))
  ip : t.ip = load s.mem (T.slotAddr (T.arg1 s) T.slotRet)
  sp : t.reg .sp = load s.mem (T.slotAddr (T.arg1 s) T.slotSp)
  reg : ∀ k, (hk : k < T.saved.length) → T.saved[k] ≠ .ax →
    t.reg T.saved[k] = load s.mem (T.slotAddr (T.arg1 s) k)

/-! ### The parts of the code -/

/-- The arguments are fetched. -/
def prologue : Target → List Instr
  | .i386 => [.lea 4 .sp .ax, .load 4 .sp .sp, .lea 36 .sp .sp]
  | .x86_64 => [.lea 8 .sp .ax, .lea 136 .di .sp]

def pushes (T : Target) : List Instr :=
  .push .ax :: .pushMem (-T.bytes) .ax :: T.saved.reverse.map .push

/-- The stack pointer is put on the second array. -/
def fetch : Target → Instr
  | .i386 => .load 4 .ax .sp
  | .x86_64 => .mov .si .sp

def exit : List Instr := [.pop .ax, .pop .sp, .push .ax, .xorl .ax .ax, .ret]

theorem mcoSwap_eq (T : Target) :
    T.mcoSwap = T.prologue ++ (T.pushes ++ (T.fetch :: (T.saved.map .pop ++ exit))) := by
  cases T <;> rfl

/-! ### The slots -/

-- The numbers of the last two slots follow on those of the registers.
theorem slots_numbers (T : Target) :
    T.slotRet = T.saved.length ∧ T.slotSp = T.saved.length + 1 ∧
      T.slots = T.saved.length + 2 := by
  cases T <;> exact ⟨rfl, rfl, rfl⟩

theorem sp_not_saved (T : Target) : .sp ∉ T.saved := by
  cases T <;> decide

theorem saved_nodup (T : Target) : T.saved.Nodup := by
  cases T <;> decide

/-- The array fits into memory. -/
theorem regsSize_le (T : Target) : T.regsSize ≤ 2 ^ (8 * T.bytes) := by
  cases T <;> decide

theorem image_length (s : State T.bytes) : (T.image s).length = T.slots := by
  rw [(slots_numbers T).2.2]
  simp [image]

theorem slotAddr_add (ctx : T.Word) (j k : Nat) :
    T.slotAddr ctx j + BitVec.ofNat (8 * T.bytes) (T.bytes * k) = T.slotAddr ctx (j + k) := by
  rw [slotAddr, slotAddr, BitVec.add_assoc, ← BitVec.ofNat_add, Nat.mul_add]

theorem slotAddr_succ_sub (ctx : T.Word) (k : Nat) :
    T.slotAddr ctx (k + 1) - T.wordSize = T.slotAddr ctx k := by
  have h := slotAddr_add ctx k 1
  rw [Nat.mul_one] at h
  rw [← h, BitVec.add_sub_cancel]

theorem slotAddr_sub (ctx : T.Word) (k : Nat) :
    T.slotAddr ctx k - BitVec.ofNat (8 * T.bytes) (T.bytes * k) = ctx := by
  rw [slotAddr, BitVec.add_sub_cancel]

/-- A slot is a part of the array. -/
theorem Apart.slot {ctx b : T.Word} {l k : Nat} (h : Apart ctx T.regsSize b l)
    (hk : k < T.slots) : Apart (T.slotAddr ctx k) T.bytes b l := by
  refine X86.Apart.part h ?_ (regsSize_le T)
  have hmul : T.bytes * (k + 1) ≤ T.bytes * T.slots := Nat.mul_le_mul_left _ hk
  rw [Nat.mul_succ] at hmul
  exact hmul

/-! ### What the parts do -/

theorem prologue_run (s : State T.bytes) :
    run T.prologue s =
      (s.setReg .ax (s.reg .sp + T.wordSize)).setReg .sp (T.slotAddr (T.arg0 s) T.slots) := by
  cases T with
  | i386 =>
      simp [prologue, step, State.setReg, State.addr, arg0, slotAddr, slots]
      rfl
  | x86_64 =>
      simp [prologue, step, State.setReg, State.addr, arg0, slotAddr, slots]
      rfl

/-- The pushes fill the array from its end. -/
theorem pushes_run (s : State T.bytes) {a v : T.Word} (hsp : s.reg .sp = T.slotAddr a T.slots)
    (hax : s.reg .ax = v) (hret : Apart a T.regsSize (v - T.wordSize) T.bytes) :
    run T.pushes s =
      { s.setReg .sp a with
        mem := storeWords s.mem a (T.saved.map s.reg ++ [load s.mem (v - T.wordSize), v]) } := by
  have hnum := slots_numbers T
  rw [hnum.2.2] at hsp
  -- The stack pointer is pushed into the last slot.
  have h1 : step s (.push .ax) =
      { s.setReg .sp (T.slotAddr a (T.saved.length + 1)) with
        mem := store s.mem (T.slotAddr a (T.saved.length + 1)) v } := by
    simp only [step, State.push, hsp, hax, slotAddr_succ_sub]
  generalize hs1 : step s (.push .ax) = s1 at h1
  have hax1 : s1.reg .ax = v := by
    rw [h1]
    simp [State.setReg, hax]
  have hsp1 : s1.reg .sp = T.slotAddr a (T.saved.length + 1) := by
    rw [h1]
    simp [State.setReg]
  -- The return address is still on the stack, and goes into the slot below.
  have haddr : s1.addr (-T.bytes) .ax = v - T.wordSize := by
    rw [State.addr, hax1, BitVec.ofInt_neg, BitVec.ofInt_natCast, ← BitVec.sub_eq_add_neg]
  have hload : load s1.mem (v - T.wordSize) = load s.mem (v - T.wordSize) := by
    rw [h1]
    refine load_store_apart _ _ ?_
    exact (Apart.slot hret (by rw [hnum.2.2]; omega)).symm
  have h2 : step s1 (.pushMem (-T.bytes) .ax) =
      { s1.setReg .sp (T.slotAddr a T.saved.length) with
        mem := store s1.mem (T.slotAddr a T.saved.length) (load s.mem (v - T.wordSize)) } := by
    simp only [step, State.push, haddr, hload, hsp1, slotAddr_succ_sub]
  generalize hs2 : step s1 (.pushMem (-T.bytes) .ax) = s2 at h2
  have hsp2 : s2.reg .sp = T.slotAddr a T.saved.length := by
    rw [h2]
    simp [State.setReg]
  have hregs : T.saved.map s2.reg = T.saved.map s.reg := by
    refine List.map_congr_left fun r hr => ?_
    have hne : r ≠ .sp := fun h => sp_not_saved T (h ▸ hr)
    rw [h2, h1]
    simp [State.setReg, hne]
  have hnot : .sp ∉ T.saved.reverse := by
    rw [List.mem_reverse]
    exact sp_not_saved T
  have hmem : storeWords s2.mem a (T.saved.map s.reg) =
      storeWords s.mem a (T.saved.map s.reg ++ [load s.mem (v - T.wordSize), v]) := by
    have hsplit : T.saved.map s.reg ++ [load s.mem (v - T.wordSize), v] =
        (T.saved.map s.reg ++ [load s.mem (v - T.wordSize)]) ++ [v] := by simp
    rw [hsplit, storeWords_concat, storeWords_concat, h2, h1]
    simp [slotAddr]
  have hsub := slotAddr_sub a T.saved.length
  rw [pushes, run_cons, run_cons, hs1, hs2, run_pushes _ hnot, List.length_reverse, hsp2, hsub,
    List.map_reverse, List.reverse_reverse, hregs, hmem, h2, h1]
  simp [State.setReg]

/-- The second argument is where the call has put it. -/
theorem fetch_run (s u : State T.bytes) (hreg : u.reg .si = s.reg .si)
    (hax : u.reg .ax = s.reg .sp + T.wordSize)
    (hmem : ∀ x, InRegion (s.reg .sp) T.frameSize x → u.mem x = s.mem x) :
    step u T.fetch = u.setReg .sp (T.arg1 s) := by
  cases T with
  | i386 =>
      have haddr : u.addr 4 .ax = s.reg .sp + 8 := by
        rw [State.addr, hax, BitVec.add_assoc]
        rfl
      have hload : load u.mem (s.reg .sp + 8) = load s.mem (s.reg .sp + 8) := by
        refine load_congr fun x hx => hmem x ?_
        exact InRegion.of_part (i := 8) (j := 4) (by decide) (by decide) hx
      have hstep : step u (fetch .i386) = u.setReg .sp (load u.mem (u.addr 4 .ax)) := rfl
      rw [hstep, haddr, hload]
      rfl
  | x86_64 =>
      have hstep : step u (fetch .x86_64) = u.setReg .sp (u.reg .si) := rfl
      rw [hstep, hreg]
      rfl

theorem exit_run {n : Nat} (s : State n) :
    let ret := load s.mem (s.reg .sp)
    let sp := load s.mem (s.reg .sp + BitVec.ofNat (8 * n) n)
    (run exit s).mem = store s.mem (sp - BitVec.ofNat (8 * n) n) ret ∧
    (run exit s).ip = ret ∧ (run exit s).reg .sp = sp ∧
    ∀ r, r ≠ .ax → r ≠ .sp → (run exit s).reg r = s.reg r := by
  refine ⟨?_, ?_, ?_, ?_⟩
  · simp [exit, step, State.push, State.pop, State.setReg]
  · simp [exit, step, State.push, State.pop, State.setReg, load_store_self]
  · exact BitVec.sub_add_cancel _ _
  · intro r hax hsp
    simp [exit, step, State.push, State.pop, State.setReg, hax, hsp]

/-! ### The whole switch -/

/-- A slot of an array that is apart from the one that has been filled. -/
theorem load_slot_apart (m : Mem T.bytes) {a b : T.Word} (vs : List T.Word)
    (hlen : vs.length = T.slots) (h : Apart a T.regsSize b T.regsSize) {k : Nat}
    (hk : k < T.slots) : load (storeWords m a vs) (T.slotAddr b k) = load m (T.slotAddr b k) := by
  refine load_storeWords_apart m vs ?_
  rw [hlen]
  exact Apart.slot h.symm hk

theorem swap_spec (s : State T.bytes) (h : T.Separate s) : T.Swapped s (run T.mcoSwap s) := by
  have hnum := slots_numbers T
  have hlen := image_length s
  -- After the prologue the cursor is above the first array.
  have hpro := prologue_run s
  generalize hs1 : run T.prologue s = s1 at hpro
  have hsp1 : s1.reg .sp = T.slotAddr (T.arg0 s) T.slots := by
    rw [hpro]
    simp [State.setReg]
  have hax1 : s1.reg .ax = s.reg .sp + T.wordSize := by
    rw [hpro]
    simp [State.setReg]
  have hmem1 : s1.mem = s.mem := by
    rw [hpro]
    rfl
  have hret : Apart (T.arg0 s) T.regsSize (s.reg .sp + T.wordSize - T.wordSize) T.bytes := by
    rw [BitVec.add_sub_cancel]
    intro x hx hw
    refine h.frame x hx ?_
    unfold InRegion at hw ⊢
    have hle : T.bytes ≤ T.frameSize := by cases T <;> decide
    omega
  -- After the pushes the first array is the image.
  have hpush := pushes_run s1 hsp1 hax1 hret
  have himage : T.saved.map s1.reg ++
      [load s1.mem (s.reg .sp + T.wordSize - T.wordSize), s.reg .sp + T.wordSize] = T.image s := by
    have hregs : T.saved.map s1.reg =
        T.saved.map (Function.update s.reg .ax (s.reg .sp + T.wordSize)) := by
      refine List.map_congr_left fun r hr => ?_
      have hne : r ≠ .sp := fun h => sp_not_saved T (h ▸ hr)
      rw [hpro]
      simp [State.setReg, hne]
    rw [hregs, BitVec.add_sub_cancel, hmem1, image]
  rw [himage, hmem1] at hpush
  generalize hs2 : run T.pushes s1 = s2 at hpush
  have hmem2 : s2.mem = storeWords s.mem (T.arg0 s) (T.image s) := by rw [hpush]
  -- The cursor is put on the second array.
  have hfetch := fetch_run s s2
    (by rw [hpush, hpro]; simp [State.setReg])
    (by rw [hpush]; simp [State.setReg, hax1])
    (by
      intro x hx
      rw [hmem2]
      refine storeWords_frame _ _ _ ?_
      rw [hlen]
      exact fun ha => h.frame x ha hx)
  generalize hs3 : step s2 T.fetch = s3 at hfetch
  have hsp3 : s3.reg .sp = T.arg1 s := by
    rw [hfetch]
    simp [State.setReg]
  have hmem3 : s3.mem = s2.mem := by
    rw [hfetch]
    rfl
  -- The registers come from it, and the last two slots are left.
  obtain ⟨hmem4, -, hsp4, hval4, -⟩ := run_pops T.saved (sp_not_saved T) (saved_nodup T) s3
  generalize hs4 : run (T.saved.map .pop) s3 = s4 at hmem4 hsp4 hval4
  rw [hmem3] at hmem4 hval4
  rw [hsp3] at hsp4 hval4
  have hslot : ∀ k, k < T.slots → load s2.mem (T.slotAddr (T.arg1 s) k) =
      load s.mem (T.slotAddr (T.arg1 s) k) := by
    intro k hk
    rw [hmem2]
    exact load_slot_apart s.mem (T.image s) hlen h.arrays hk
  obtain ⟨hmem5, hip5, hsp5, hreg5⟩ := exit_run s4
  have hnext : s4.reg .sp + BitVec.ofNat (8 * T.bytes) T.bytes =
      T.slotAddr (T.arg1 s) T.slotSp := by
    have hadd := slotAddr_add (T.arg1 s) T.saved.length 1
    rw [Nat.mul_one] at hadd
    rw [hsp4, hnum.2.1]
    exact hadd
  have hlast : s4.reg .sp = T.slotAddr (T.arg1 s) T.slotRet := by
    rw [hsp4, hnum.1]
    rfl
  rw [hnext, hlast, hmem4, hslot _ (by omega), hslot _ (by omega)] at hmem5
  rw [hlast, hmem4, hslot _ (by omega)] at hip5
  rw [hnext, hmem4, hslot _ (by omega)] at hsp5
  rw [mcoSwap_eq, run_append, run_append, run_cons, run_append, hs1, hs2, hs3, hs4]
  refine ⟨?_, hip5, hsp5, ?_⟩
  · rw [hmem5, hmem2]
  · intro k hk hax
    have hsp : T.saved[k] ≠ .sp := fun heq => sp_not_saved T (heq ▸ List.getElem_mem hk)
    rw [hreg5 _ hax hsp, hval4 k hk]
    exact hslot k (by omega)

/-- A switch writes the array of its first argument and the word below the
    stack pointer it loads, and nothing else. -/
theorem swap_frame (s : State T.bytes) (h : T.Separate s) {x : T.Word}
    (ha : ¬ InRegion (T.arg0 s) T.regsSize x)
    (hb : ¬ InRegion (load s.mem (T.slotAddr (T.arg1 s) T.slotSp) - T.wordSize) T.bytes x) :
    (run T.mcoSwap s).mem x = s.mem x := by
  rw [(swap_spec s h).mem, store_frame _ hb]
  refine storeWords_frame _ _ _ ?_
  rw [image_length]
  exact ha

/-- The array of the first argument is the image of the state. -/
theorem swap_image (s : State T.bytes) (h : T.Separate s) (k : Nat)
    (hk : k < (T.image s).length) :
    load (run T.mcoSwap s).mem (T.slotAddr (T.arg0 s) k) = (T.image s)[k] := by
  have hlen := image_length s
  rw [hlen] at hk
  rw [(swap_spec s h).mem, load_store_apart _ _ (Apart.slot h.below hk)]
  refine load_storeWords s.mem (T.arg0 s) (T.image s) k (by rw [hlen]; exact hk) ?_
  rw [hlen]
  exact regsSize_le T

/-- A register a function has to keep has a slot. -/
theorem calleeSaved_slot {r : Reg} (hr : r ∈ T.calleeSaved) : r ∈ T.saved ∧ r ≠ .ax := by
  revert r
  cases T <;> decide

/-- A later switch to a context loads what the switch from it has saved, if
    the array is as it was left. -/
theorem swap_back {s t : State T.bytes} (hs : T.Separate s)
    (hback : T.arg1 t = T.arg0 s)
    (hkept : ∀ x, InRegion (T.arg0 s) T.regsSize x → t.mem x = (run T.mcoSwap s).mem x)
    (k : Nat) (hk : k < (T.image s).length) :
    load t.mem (T.slotAddr (T.arg1 t) k) = (T.image s)[k] := by
  have hlen := image_length s
  rw [← swap_image s hs k hk, hback]
  refine load_congr fun x hx => hkept x ?_
  rw [hlen] at hk
  have hmul : T.bytes * (k + 1) ≤ T.bytes * T.slots := Nat.mul_le_mul_left _ hk
  rw [Nat.mul_succ] at hmul
  exact InRegion.of_part hmul (regsSize_le T) hx

/-- `mco_swap(a, b)` writes only the array of `a` and the word below the stack
    pointer it takes from `b`. When `a` is the second argument of a later
    switch, with its array as it was left, control continues after the first
    call, with the stack pointer as it is there and every register a function
    has to keep as it was at the call. -/
theorem swap_saves_and_restores (T : Target) (s : State T.bytes) (hs : T.Separate s) :
    (∀ x, ¬ InRegion (T.arg0 s) T.regsSize x →
      ¬ InRegion (load s.mem (T.slotAddr (T.arg1 s) T.slotSp) - T.wordSize) T.bytes x →
      (run T.mcoSwap s).mem x = s.mem x) ∧
    ∀ t : State T.bytes, T.Separate t → T.arg1 t = T.arg0 s →
      (∀ x, InRegion (T.arg0 s) T.regsSize x → t.mem x = (run T.mcoSwap s).mem x) →
      (run T.mcoSwap t).ip = load s.mem (s.reg .sp) ∧
      (run T.mcoSwap t).reg .sp = s.reg .sp + T.wordSize ∧
      ∀ r ∈ T.calleeSaved, (run T.mcoSwap t).reg r = s.reg r := by
  refine ⟨fun x ha hb => swap_frame s hs ha hb, fun t ht hback hkept => ?_⟩
  have hnum := slots_numbers T
  have hlen := image_length s
  have hspec := swap_spec t ht
  refine ⟨?_, ?_, fun r hr => ?_⟩
  · have hk : T.slotRet < (T.image s).length := by omega
    rw [hspec.ip, swap_back hs hback hkept _ hk]
    simp [image, hnum.1]
  · have hk : T.slotSp < (T.image s).length := by omega
    rw [hspec.sp, swap_back hs hback hkept _ hk]
    simp [image, hnum.2.1]
  · obtain ⟨hmem, hax⟩ := calleeSaved_slot hr
    obtain ⟨k, hk, rfl⟩ := List.getElem_of_mem hmem
    have hk' : k < (T.image s).length := by omega
    rw [hspec.reg k hk hax, swap_back hs hback hkept k hk']
    simp [image, hk, hax]

/-- A call of `mco_swap` with contexts at 1000 and 2000, on an empty memory. -/
def detour : State 8 where
  reg := fun r => match r with
    | .di => 1000
    | .si => 2000
    | .sp => 3000
    | .bx => 5
    | _ => 0
  mem := fun _ => 0
  ip := 0

/-- A later call with the contexts the other way round. -/
def comeback (m : Mem 8) : State 8 where
  reg := fun r => match r with
    | .di => 2000
    | .si => 1000
    | .sp => 4000
    | _ => 0
  mem := m
  ip := 0

theorem detour_separate : Separate .x86_64 detour where
  arrays := apart_of_le (by decide) (by decide)
  frame := apart_of_le (by decide) (by decide)
  below := apart_of_le (by decide) (by decide)

theorem comeback_separate {m : Mem 8} (hsp : load m (slotAddr .x86_64 1000 16) = 3008) :
    Separate .x86_64 (comeback m) := by
  have harrays : Apart (1000 : X86.Word 8) 136 2000 136 := apart_of_le (by decide) (by decide)
  have hframe : Apart (2000 : X86.Word 8) 136 4000 8 := apart_of_le (by decide) (by decide)
  have hbelow : Apart (2000 : X86.Word 8) 136 (3008 - 8) 8 := apart_of_le (by decide) (by decide)
  rw [← hsp] at hbelow
  exact ⟨harrays.symm, hframe, hbelow⟩

/-- The stack pointer the first call has saved. -/
theorem detour_saved :
    load (run (mcoSwap .x86_64) detour).mem (slotAddr .x86_64 1000 16) = 3008 :=
  swap_image (T := .x86_64) detour detour_separate 16
    (Nat.lt_of_lt_of_eq (by decide) (image_length _).symm)

theorem swap_saves_and_restores_detour :
    (run (mcoSwap .x86_64) detour).mem 5000 = 0 ∧
      (run (mcoSwap .x86_64) (comeback (run (mcoSwap .x86_64) detour).mem)).reg .sp = 3008 ∧
      (run (mcoSwap .x86_64) (comeback (run (mcoSwap .x86_64) detour).mem)).reg .bx = 5 := by
  obtain ⟨hframe, hback⟩ := swap_saves_and_restores .x86_64 detour detour_separate
  obtain ⟨-, hsp, hreg⟩ := hback (comeback _) (comeback_separate detour_saved) rfl
    (fun _ _ => rfl)
  exact ⟨hframe 5000 (by decide) (by decide), hsp, hreg .bx (by decide)⟩

end Target

end Fasco
