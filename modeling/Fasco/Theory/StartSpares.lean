import Fasco.Core.Start
import Fasco.Theory.MadeContext
import Fasco.Theory.SwitchReady

/-!
# Starting a Coroutine over Another

`McoResume` prepares the context of a new coroutine before `McoSwap` copies
out the stack of the old one. When both are to run on one block, what
`McontextMake` writes on i386 lands in the old coroutine's stack: the argument
goes to the same address whichever coroutine is started on the block, and the
old one's argument is there. The copy is taken after that. So the old
coroutine, when it goes on, finds the address of the new one as the argument
of its `CoroutineRun`, which is what it marks as done and yields from at its
end.

On x86_64 the argument is in a register, nothing is written, and the copy is
exact. On i386 it is exact when the bytes that are written are there already
or lie outside of the old coroutine's stack.

The model of memory here is that of the coroutines, from numbers to bytes;
`mcontextMake_mem` says that the write is that of the machine.

## Main definitions

* `World.Occupies`: A coroutine has the common block.
* `World.Starts`: `McoResume` starts a coroutine.
* `World.first`, `World.second`: One coroutine resumes another.
* `World.Spared`: The old coroutine's bytes are as they were, and so is the
  copy.

## Theorems

* `mcontextMake_mem`: The write is that of `McontextMake`.
* `mcoResumeOn_x86_64`: On x86_64 the calls are those of `Core.Routine`.
* `start_effect`: What a start does to memory and to the old stack record.
* `start_spares_iff`: When the old coroutine is spared.
-/

namespace Fasco

/-! ### The write -/

theorem argBytes_length (c : McoRef) : (argBytes c).length = 4 := rfl

theorem argBytes_getD (c : McoRef) {i : Nat} (hi : i < 4) :
    (argBytes c).getD i 0 = .ofNat (c / 2 ^ (8 * i)) := by
  match i, hi with
  | 0, _ => simp [argBytes]
  | 1, _ => rfl
  | 2, _ => rfl
  | 3, _ => rfl

theorem argByte_eq (s : BitVec 32) {i : Nat} (hi : i < 4) :
    s.extractLsb' (8 * i) 8 = ((argBytes s.toNat).getD i 0).toBitVec := by
  rw [argBytes_getD s.toNat hi]
  refine BitVec.eq_of_toNat_eq ?_
  simp [BitVec.extractLsb'_toNat, Nat.shiftRight_eq_div_pow]

theorem argTop_toNat (base size : BitVec 32) :
    (Target.stackTop .i386 base size).toNat = argTop base.toNat size.toNat := by
  have hsub : (base + size - 4#32).toNat = (base.toNat + size.toNat + (2 ^ 32 - 4)) % 2 ^ 32 := by
    rw [BitVec.toNat_sub, BitVec.toNat_add, BitVec.toNat_ofNat]
    omega
  exact (X86.align_toNat (base + size - 4#32)).trans (by rw [hsub, argTop])

/-- Outside of the context, `McontextMake` does to memory what `makeMem`
    says. -/
theorem mcontextMake_mem (T : Target) (m : X86.Mem T.bytes) (ctx pfn s : T.Word) {x : T.Word}
    (hx : ¬ X86.InRegion ctx T.regsSize x) :
    T.mcontextMake m ctx pfn s x =
      (T.makeMem (fun a => UInt8.ofBitVec (m (BitVec.ofNat (8 * T.bytes) a)))
        (T.ssSp m ctx).toNat (T.ssSize m ctx).toNat s.toNat x.toNat).toBitVec := by
  cases T with
  | x86_64 =>
      have hout : ¬ X86.InRegion (Target.stackTop .x86_64 (Target.ssSp .x86_64 m ctx)
          (Target.ssSize .x86_64 m ctx)) (Target.argSize .x86_64) x := by
        simp [X86.InRegion, Target.argSize]
      rw [Target.make_frame m ctx pfn s hx hout]
      simp [Target.makeMem]
  | i386 =>
      have htop := argTop_toNat (Target.ssSp .i386 m ctx) (Target.ssSize .i386 m ctx)
      have hslot : ∀ k, k < Target.slots .i386 →
          ¬ X86.InRegion (Target.slotAddr .i386 ctx k) (Target.bytes .i386) x :=
        fun k hk h => hx (Target.slot_in_context hk h)
      have hclear : Target.clearRegs .i386 m ctx x = m x := by
        refine X86.storeWords_frame m ctx _ ?_
        rw [List.length_replicate]
        exact hx
      have hmade : Target.mcontextMake .i386 m ctx pfn s x =
          X86.store (Target.clearRegs .i386 m ctx)
          (Target.stackTop .i386 (Target.ssSp .i386 m ctx) (Target.ssSize .i386 m ctx)) s x := by
        rw [Target.make_eq, X86.store_frame _ (hslot (Target.slotRet .i386) (by decide)),
          X86.store_frame _ (hslot (Target.slotSp .i386) (by decide))]
        rfl
      generalize Target.stackTop .i386 (Target.ssSp .i386 m ctx) (Target.ssSize .i386 m ctx) =
        top at htop hmade
      rw [hmade, Target.makeMem, ← htop]
      unfold X86.store writeBytes
      rw [argBytes_length]
      -- The top is a multiple of sixteen, so the word ends before the end of memory.
      have hend : top.toNat + 4 ≤ 2 ^ 32 := by
        have hmul : top.toNat = argTop (Target.ssSp .i386 m ctx).toNat
          (Target.ssSize .i386 m ctx).toNat := htop
        unfold argTop at hmul
        omega
      by_cases hin : X86.InRegion top 4 x
      · have hint := (X86.inRegion_iff hend).mp hin
        have hdist : (x - top).toNat = x.toNat - top.toNat := BitVec.toNat_sub_of_le hint.1
        rw [if_pos hin, if_pos hint, hdist]
        exact argByte_eq s (by omega)
      · have hint := fun h => hin ((X86.inRegion_iff hend).mpr h)
        rw [if_neg hin, if_neg hint, hclear]
        simp

namespace World

theorem mcoResumeOn_x86_64 (w : World) (t : Tid) (co : Option McoRef) (e : CallSite) :
    w.mcoResumeOn .x86_64 t co e = w.mcoResume t co e := by
  have hmain : w.mainMcoOn .x86_64 t e =
      if (w.callstack t).index = 0 then (w.mainMco t e).1 else w := by
    unfold mainMcoOn
    by_cases h0 : (w.callstack t).index = 0
    · have hmem : (w.mainMco t e).1.mem = w.mem := by rw [mainMco_eq h0]
      rw [if_pos h0, if_pos h0, Target.makeMem, ← hmem]
    · rw [if_neg h0, if_neg h0]
  have hmake : ∀ (v : World) c r, v.makeOn .x86_64 c r = v := by
    intro v c r
    unfold makeOn
    cases r.coctx.ctx <;> rfl
  unfold mcoResumeOn
  rw [hmain]
  simp only [hmake]
  unfold mcoResume
  rfl

/-! ### A start -/

/-- The coroutine `a`, with the stack record `s`, has been started on the
    common block of `t`, has not finished, and has the block. -/
structure Occupies (w : World) (t : Tid) (a : McoRef) (s : McoStack) : Prop where
  occupant : (w.mgr t).commonOccupy = some a
  begun : ∃ r, w.co a = some r ∧ r.start = true ∧ r.finished = false
  stack : w.stack a = some s
  common : s.isPrivate = false

/-- A call of `McoResume(b)` on `t`, in the code of `cur`, starts `b` on the
    common block. A coroutine made for the thread's own code in the call is a
    new object. -/
structure Starts (T : Target) (w : World) (t : Tid) (b cur : McoRef) (e : CallSite) : Prop where
  fresh : ∃ r, w.co b = some r ∧ r.running = false ∧ r.finished = false ∧ r.start = false ∧
    r.usePrivate = false
  main : w.FreshMain t e
  top : ((w.mainMcoOn T t e).callstack t).fromTop 1 = some cur
  other : cur ≠ b
  called : ∀ r, (w.mainMcoOn T t e).co cur = some r → r.sink ≠ some b

theorem mainMcoOn_co {T : Target} {w : World} {t : Tid} {e : CallSite} (hmain : w.FreshMain t e)
    {c : McoRef} {r : McoRoutine} (h : w.co c = some r) : (w.mainMcoOn T t e).co c = some r := by
  unfold mainMcoOn
  by_cases h0 : (w.callstack t).index = 0
  · rw [if_pos h0]
    exact mainMco_co hmain h
  · rw [if_neg h0]
    exact h

-- The coroutine of the thread's own code is a new one.
theorem mainMcoOn_rest {T : Target} {w : World} {t : Tid} {e : CallSite}
    (hmain : w.FreshMain t e) {c : McoRef} (hc : (w.co c).isSome) :
    (w.mainMcoOn T t e).stack c = w.stack c ∧ (w.mainMcoOn T t e).mgr = w.mgr := by
  unfold mainMcoOn
  by_cases h0 : (w.callstack t).index = 0
  · have hne : c ≠ e.main := by
      rintro rfl
      rw [hmain h0] at hc
      cases hc
    rw [if_pos h0, mainMco_eq h0]
    exact ⟨Function.update_of_ne hne _ _, rfl⟩
  · rw [if_neg h0]
    exact ⟨rfl, rfl⟩

/-- The stack pointer of `a` in the call: that of the calling code if it is
    `a`'s, and the saved one otherwise. -/
def stackPointer (cur a : McoRef) (s : McoStack) (e : CallSite) : Nat :=
  if cur = a then e.sp else s.stackSp

/-- The part of `McoSwap` before the switch, for a coroutine that takes the
    block of `a`. -/
theorem occupied {w w1 w2 : World} {t : Tid} {a b cur : McoRef} {s sb : McoStack} {sp : Nat}
    (hocc : (w.mgr t).commonOccupy = some a) (hab : a ≠ b)
    (hlive : ∃ r, w.co a = some r ∧ r.finished = false) (hs : w.stack a = some s)
    (hsb : w.stack b = some sb) (hcommon : sb.isPrivate = false) (hcur : cur ≠ b)
    (h1 : w.saveSp cur sp = .ok w1) (h2 : w1.occupy t b = .ok w2) :
    w2.mem = w.mem ∧ w2.co b = w.co b ∧
      w2.stack a = some (storeUsedCommonStack w.mem
        { s with stackSp := if cur = a then sp else s.stackSp }) := by
  rcases saveSp_ok h1 with ⟨sc, hsc, rfl⟩
  obtain ⟨r, hr, hfin⟩ := hlive
  have hstacka : (w.setStack cur { sc with stackSp := sp }).stack a =
      some { s with stackSp := if cur = a then sp else s.stackSp } := by
    by_cases hca : cur = a
    · have hscs : sc = s := by
        rw [← hca, hsc] at hs
        injection hs
      simp [setStack, hca, hscs]
    · simp [setStack, Ne.symm hca, hs, if_neg hca]
  have hstackb : (w.setStack cur { sc with stackSp := sp }).stack b = some sb := by
    simp [setStack, Ne.symm hcur, hsb]
  rcases occupy_cases h2 with ⟨s', hs', hcase⟩
  rw [hstackb] at hs'
  injection hs' with hs'
  rcases hcase with ⟨hp, -⟩ | ⟨-, -, hnone⟩ | ⟨-, o, ro, so, ho, -, hro, -, hso, rfl⟩
  · rw [← hs', hcommon] at hp
    cases hp
  · rcases hnone a hocc hab with ⟨r', hr', hfin'⟩
    have heq : r = r' := by
      have hr'' : w.co a = some r' := hr'
      rw [hr] at hr''
      injection hr''
    rw [← heq, hfin] at hfin'
    cases hfin'
  · have hoa : o = a := by
      have ho' : (w.mgr t).commonOccupy = some o := ho
      rw [hocc] at ho'
      injection ho' with ho'
      exact ho'.symm
    rw [hoa] at hso ⊢
    rw [hstacka] at hso
    injection hso with hso
    refine ⟨rfl, ?_, ?_⟩
    · simp [setStack, setCo, setCommonOccupy, Ne.symm hab]
    · rw [← hso]
      simp [setStack, setCo, setCommonOccupy]

/-- The switch to a coroutine that has just been prepared enters it, with the
    stacks and memory as they were before the registers are switched. -/
theorem mcoSwap_enters {w w' : World} {t : Tid} {a b cur : McoRef} {s sb : McoStack} {sp : Nat}
    {rb : McoRoutine} {m : Mcontext} {x : McoRef}
    (hocc : (w.mgr t).commonOccupy = some a) (hab : a ≠ b)
    (hlive : ∃ r, w.co a = some r ∧ r.finished = false) (hs : w.stack a = some s)
    (hsb : w.stack b = some sb) (hcommon : sb.isPrivate = false) (hcur : cur ≠ b)
    (hrb : w.co b = some rb) (hctx : rb.coctx.ctx = some m) (hregs : m.regs = .entry x)
    (h : w.mcoSwap t cur b sp = .ok w') :
    w'.mem = w.mem ∧ w'.stack a = some (storeUsedCommonStack w.mem
      { s with stackSp := if cur = a then sp else s.stackSp }) := by
  rcases mcoSwap_parts h with ⟨w1, w2, w3, back, h1, h2, h3, h4⟩
  obtain ⟨hmem2, hco2, hstack2⟩ := occupied hocc hab hlive hs hsb hcommon hcur h1 h2
  rcases mcontextSwap_cases hcur h3 with ⟨rs, rc, m', -, -, hrc, hm', hcase⟩
  rw [hco2, hrb] at hrc
  injection hrc with hrc
  rw [← hrc, hctx] at hm'
  injection hm' with hm'
  rcases hcase with ⟨c, -, hback, rfl⟩ | ⟨y, hy, -, -⟩
  · -- The callback is called; the recovery step is for those who come back.
    rw [land, hback, if_neg (by decide)] at h4
    have hexec : ((w2.setCo cur (parked (w2.exec t) rs)).setExec t (some c)).exec t = some c :=
      Function.update_self _ _ _
    rcases enterCallback_ok hexec h4 with ⟨r, -, rfl⟩
    exact ⟨hmem2, hstack2⟩
  · rw [← hm', hregs] at hy
    cases hy

/-- The state `McoResume` pushes a new coroutine in. -/
def preparedOn (T : Target) (w : World) (t : Tid) (b : McoRef) (r : McoRoutine) (blk : Nat) :
    World :=
  { (w.started t b r blk).1 with
    mem := T.makeMem w.mem (w.mgr t).commonStack (w.mgr t).commonSize b }

theorem mcoResumeOn_starts {T : Target} {w : World} {t : Tid} {b cur : McoRef} {e : CallSite}
    (hstart : w.Starts T t b cur e) {r rcur : McoRoutine} (hr : w.co b = some r)
    (hrcur : (w.mainMcoOn T t e).co cur = some rcur) :
    w.mcoResumeOn T t (some b) e =
      ((w.mainMcoOn T t e).preparedOn T t b r e.blk).pushCallstack t b
        ((w.mainMcoOn T t e).started t b r e.blk).2 e.sp := by
  obtain ⟨r', hr', hrun, hfin, hnew, huse⟩ := hstart.fresh
  rw [hr] at hr'
  injection hr' with hr'
  subst hr'
  have hcalled := hstart.called rcur hrcur
  have htop := hstart.top
  unfold mcoResumeOn preparedOn started
  generalize w.mainMcoOn T t e = w1 at *
  simp only [hr, hrun, hfin, Bool.or_self, Bool.false_eq_true, if_false, htop, hrcur,
    if_neg hcalled, hnew, initMcoContext, huse, setStack, setCo, Function.update_self,
    Option.isSome_some, makeOn]
  rfl

/-- What a start does: the argument is written, and what is then on the stack
    of the old coroutine is copied. -/
theorem start_effect {T : Target} {w w' : World} {t : Tid} {a b cur : McoRef} {s : McoStack}
    {e : CallSite} (hocc : w.Occupies t a s) (hstart : w.Starts T t b cur e)
    (h : w.mcoResumeOn T t (some b) e = .ok w') :
    w'.mem = T.makeMem (w.mainMcoOn T t e).mem (w.mgr t).commonStack (w.mgr t).commonSize b ∧
      w'.stack a = some (storeUsedCommonStack w'.mem
        { s with stackSp := stackPointer cur a s e }) := by
  obtain ⟨rb, hrb, hrun, hfin, hnew, huse⟩ := hstart.fresh
  obtain ⟨ra, hra, hbegun, hafin⟩ := hocc.begun
  have hab : a ≠ b := by
    rintro rfl
    rw [hra] at hrb
    injection hrb with hrb
    rw [hrb, hnew] at hbegun
    cases hbegun
  have hra1 := mainMcoOn_co (T := T) hstart.main hra
  obtain ⟨hstack1, hmgr1⟩ := mainMcoOn_rest (T := T) hstart.main (c := a) (by rw [hra]; rfl)
  cases hrcur : (w.mainMcoOn T t e).co cur with
  | none =>
      unfold mcoResumeOn at h
      simp [hrb, hrun, hfin, hstart.top, hrcur] at h
  | some rcur =>
      rw [mcoResumeOn_starts hstart hrb hrcur] at h
      have htop := hstart.top
      generalize w.mainMcoOn T t e = w1 at *
      have hcur : (w1.preparedOn T t b rb e.blk).co cur = some rcur := by
        simp [preparedOn, started, initMcoContext, setCo, setStack, hstart.other, hrcur]
      rw [pushCallstack_eq (w := w1.preparedOn T t b rb e.blk) htop hstart.other hcur] at h
      -- The state `McoSwap` is called in.
      generalize hv : (w1.preparedOn T t b rb e.blk).beforePush t cur rcur b
        (w1.started t b rb e.blk).2 = v at h
      have hmem : v.mem = T.makeMem w1.mem (w.mgr t).commonStack (w.mgr t).commonSize b := by
        rw [← hv, ← hmgr1]
        rfl
      have hmgr : v.mgr = w.mgr := by
        rw [← hv, ← hmgr1]
        rfl
      have hstacka : v.stack a = some s := by
        rw [← hocc.stack, ← hstack1, ← hv]
        simp [preparedOn, beforePush, started, initMcoContext, setCo, setStack, setCallstack, hab]
      have hstackb : v.stack b = some (w1.mgr t).createCommonMcoStack := by
        rw [← hv]
        simp [preparedOn, beforePush, started, initMcoContext, setCo, setStack, setCallstack, huse]
      have hlive : ∃ r, v.co a = some r ∧ r.finished = false := by
        by_cases hca : a = cur
        · have hrec : rcur = ra := by
            rw [← hca, hra1] at hrcur
            injection hrcur with hrcur
            exact hrcur.symm
          refine ⟨{ rcur with running := false }, ?_, by rw [hrec]; exact hafin⟩
          rw [← hv, hca]
          simp [beforePush, setCo]
        · refine ⟨ra, ?_, hafin⟩
          rw [← hv]
          simp [preparedOn, beforePush, started, initMcoContext, setCo, setStack, setCallstack, hab,
            hca, hra1]
      have hcob : v.co b = some ((w1.started t b rb e.blk).2.takeOver (some cur)) := by
        rw [← hv]
        simp [beforePush, setCo, Ne.symm hstart.other]
      have heff := mcoSwap_enters (by rw [hmgr]; exact hocc.occupant) hab hlive hstacka hstackb
        rfl hstart.other hcob rfl rfl h
      exact ⟨heff.1.trans hmem, by rw [heff.1]; exact heff.2⟩

/-! ### What the old coroutine keeps -/

/-- The bytes of the stack of `a` from `sp` on are as they were in `w`, and so
    is the copy of them. -/
def Spared (w w' : World) (a : McoRef) (s : McoStack) (sp : Nat) : Prop :=
  (∀ x, sp ≤ x → x < s.stackBp → w'.mem x = w.mem x) ∧
  ∃ s', w'.stack a = some s' ∧ s'.stackTmp = some (readBytes w.mem sp (s.stackBp - sp))

theorem makeMem_eq_iff {T : Target} {mem : Nat → UInt8} {base size : Nat} {c : McoRef}
    {lo hi : Nat} : (∀ x, lo ≤ x → x < hi → T.makeMem mem base size c x = mem x) ↔
      T = .x86_64 ∨ ∀ i, i < 4 → lo ≤ argTop base size + i → argTop base size + i < hi →
        mem (argTop base size + i) = .ofNat (c / 2 ^ (8 * i)) := by
  cases T with
  | x86_64 => exact ⟨fun _ => Or.inl rfl, fun _ _ _ _ => rfl⟩
  | i386 =>
      have hwrite : ∀ i, i < 4 → Target.makeMem .i386 mem base size c (argTop base size + i) =
          .ofNat (c / 2 ^ (8 * i)) := by
        intro i hi
        have hdist : argTop base size + i - argTop base size = i := by omega
        rw [Target.makeMem, writeBytes_in _ _ _ _ (by omega) (by rw [argBytes_length]; omega),
          hdist, argBytes_getD c hi]
      constructor
      · intro h
        refine Or.inr fun i hi hlo hhi => ?_
        rw [← h _ hlo hhi, hwrite i hi]
      · rintro (h | h) x hlo hhi
        · cases h
        · by_cases hin : argTop base size ≤ x ∧ x < argTop base size + 4
          · have hx : argTop base size + (x - argTop base size) = x := by omega
            have hbyte := hwrite (x - argTop base size) (by omega)
            rw [hx] at hbyte
            rw [hbyte, ← h (x - argTop base size) (by omega) (by omega) (by omega), hx]
          · rw [Target.makeMem, writeBytes_out _ _ _ _ (by rw [argBytes_length]; omega)]

/-- When `McoResume` starts `b` over the coroutine `a`, which has the block and
    has not finished, the bytes on the stack of `a` and the copy of them are
    what they were exactly on x86_64, and on i386 if what the argument
    overwrites of them has the argument's bytes already. If the call makes a
    coroutine for the thread's own code, that one's block is a new one. -/
theorem start_spares_iff (T : Target) (w w' : World) (t : Tid) (a b cur : McoRef) (s : McoStack)
    (e : CallSite) (hocc : w.Occupies t a s) (hstart : w.Starts T t b cur e)
    (hnew : (w.callstack t).index = 0 → ∀ i, i < 4 →
      ¬ (stackPointer cur a s e ≤ argTop e.mainBlk (w.mgr t).privateSize + i ∧
        argTop e.mainBlk (w.mgr t).privateSize + i < s.stackBp))
    (h : w.mcoResumeOn T t (some b) e = .ok w') :
    Spared w w' a s (stackPointer cur a s e) ↔
      T = .x86_64 ∨ ∀ i, i < 4 →
        stackPointer cur a s e ≤ argTop (w.mgr t).commonStack (w.mgr t).commonSize + i →
        argTop (w.mgr t).commonStack (w.mgr t).commonSize + i < s.stackBp →
        w.mem (argTop (w.mgr t).commonStack (w.mgr t).commonSize + i) =
          .ofNat (b / 2 ^ (8 * i)) := by
  obtain ⟨hmem, hstack⟩ := start_effect hocc hstart h
  generalize stackPointer cur a s e = sp at *
  have hmain : ∀ x, sp ≤ x → x < s.stackBp → (w.mainMcoOn T t e).mem x = w.mem x := by
    intro x hlo hhi
    unfold mainMcoOn
    by_cases h0 : (w.callstack t).index = 0
    · rw [if_pos h0]
      refine makeMem_eq_iff.mpr (Or.inr fun i hi h1 h2 => absurd ⟨h1, h2⟩ (hnew h0 i hi)) x hlo hhi
    · rw [if_neg h0]
  -- The copy is right when the bytes are.
  have hcopy : Spared w w' a s sp ↔ ∀ x, sp ≤ x → x < s.stackBp → w'.mem x = w.mem x := by
    refine ⟨fun h => h.1, fun hx => ⟨hx, _, hstack, ?_⟩⟩
    have hread : readBytes w'.mem sp (s.stackBp - sp) = readBytes w.mem sp (s.stackBp - sp) := by
      refine List.map_congr_left fun i hi => hx _ (by omega) ?_
      have hlt := List.mem_range.mp hi
      omega
    simp [storeUsedCommonStack, hocc.common, hread]
  rw [hcopy, hmem]
  constructor
  · intro hx
    have hiff := makeMem_eq_iff.mp fun x hlo hhi =>
      (hx x hlo hhi).trans (hmain x hlo hhi).symm
    exact hiff.imp id fun hb i hi hlo hhi => (hmain _ hlo hhi).symm.trans (hb i hi hlo hhi)
  · intro hc x hlo hhi
    have hiff := hc.imp id fun hb i hi h1 h2 => (hmain _ h1 h2).trans (hb i hi h1 h2)
    exact (makeMem_eq_iff.mpr hiff x hlo hhi).trans (hmain x hlo hhi)

/-- Where the calls of the two runs below are made. -/
def site : CallSite := { sp := 0x10fe0, main := 1, mainBlk := 0x7000, blk := 0 }

/-- The thread's own code resumes 10. -/
def first (T : Target) : World :=
  match ((World.blank.mcoCreate 10 false).mcoCreate 11 false).mcoResumeOn T 0 (some 10) site with
  | .ok w => w
  | .error _ => World.blank

/-- And 10 resumes 11. -/
def second (T : Target) : World :=
  match (first T).mcoResumeOn T 0 (some 11) site with
  | .ok w => w
  | .error _ => World.blank

/-- The stack record of 10. -/
def firstStack : McoStack := World.blank.mgr 0 |>.createCommonMcoStack

theorem first_occupies (T : Target) : (first T).Occupies 0 10 firstStack := by
  cases T <;> exact ⟨rfl, ⟨_, rfl, rfl, rfl⟩, rfl, rfl⟩

theorem first_starts (T : Target) : (first T).Starts T 0 11 10 site := by
  cases T <;> exact ⟨⟨_, rfl, rfl, rfl, rfl, rfl⟩, by decide, rfl, by decide, fun r hr => by
    injection hr with hr
    rw [← hr]
    decide⟩

/-- On x86_64 the stack of 10 is spared. -/
theorem start_spares_iff_register : Spared (first .x86_64) (second .x86_64) 10 firstStack 0x10fe0 :=
  (start_spares_iff .x86_64 (first .x86_64) (second .x86_64) 0 10 11 10 firstStack site
    (first_occupies _) (first_starts _) (fun h => absurd h (by decide)) rfl).mpr (Or.inl rfl)

/-- On i386 the start of 11 overwrites the argument 10 was started with. -/
theorem start_overwrites_argument :
    (first .i386).Occupies 0 10 firstStack ∧ (first .i386).Starts .i386 0 11 10 site ∧
      (first .i386).mcoResumeOn .i386 0 (some 11) site = .ok (second .i386) ∧
      ¬ Spared (first .i386) (second .i386) 10 firstStack 0x10fe0 := by
  refine ⟨⟨rfl, ⟨_, rfl, rfl, rfl⟩, rfl, rfl⟩, first_starts _, rfl, fun h => ?_⟩
  have hbyte := h.1 0x10ff0 (by decide) (by decide)
  exact absurd hbyte (by decide)

end World

end Fasco
