import Fasco.Theory.Progress

/-!
# A Thread Beside the Others

What a thread's operations read and write of the whole state. `beside t v b`
is a state in which thread `t` has its call stack, its stack manager, its
coroutines and the bytes of its common block from `v`, and everything else is
as in `b`. An operation of `t` that returns in `v` returns in `beside t v b`
too, and leaves `b` as it was: the part of the state that is not the thread's
is not read on any path that returns, and never written.

For most of an operation this is a matter of which component it names. The
exception is memory. `McoSwap` copies a stretch of memory out of the common
block and another one in, and where they lie is decided by the stack pointers
in the coroutines' records; that they lie in the thread's own block is a fact
about runs, and is a hypothesis of the lemmas here.

## Main definitions

* `World.InBlock`: The addresses of a thread's common block.
* `World.beside`: One thread's part of one state beside the rest of another.

## Theorems

* `beside_co`, `beside_stack`: What is read of a coroutine of the thread.
* `setCo_beside` and its like: What is written.
* `occupy_beside`, `mcontextSwap_beside`, `swapTail_beside`: The parts of
  `McoSwap`.
* `mcoSwap_beside`: `McoSwap`.
* `mainMco_beside`, `started_beside`: Making and starting a coroutine.
-/

namespace Fasco

attribute [ext] World

namespace World

/-- The address lies in the common block of `t`. -/
def InBlock (w : World) (t : Tid) (x : Nat) : Prop :=
  (w.mgr t).commonStack ≤ x ∧ x < (w.mgr t).commonStack + (w.mgr t).commonSize

instance (w : World) (t : Tid) (x : Nat) : Decidable (w.InBlock t x) :=
  inferInstanceAs (Decidable (_ ∧ _))

/-- The part of `v` that is thread `t`'s, beside the rest of `b`. The
    coroutines of the thread are those alive in `v`. -/
def beside (t : Tid) (v b : World) : World where
  co c := if (v.co c).isSome then v.co c else b.co c
  stack c := if (v.co c).isSome then v.stack c else b.stack c
  callstack := Function.update b.callstack t (v.callstack t)
  mgr := Function.update b.mgr t (v.mgr t)
  exec := Function.update b.exec t (v.exec t)
  mem x := if v.InBlock t x then v.mem x else b.mem x

variable {t : Tid} {v v' b : World}

/-! ### What is read -/

/-- The records of the thread alone are there. -/
theorem beside_co {c : McoRef} {r : McoRoutine} (h : v.co c = some r) :
    (beside t v b).co c = some r := by
  change (if (v.co c).isSome then v.co c else b.co c) = some r
  rw [h]
  rfl

theorem beside_stack {c : McoRef} (h : (v.co c).isSome) :
    (beside t v b).stack c = v.stack c := if_pos h

@[simp] theorem beside_callstack : (beside t v b).callstack t = v.callstack t := by
  simp only [beside, Function.update_self]

@[simp] theorem beside_mgr : (beside t v b).mgr t = v.mgr t := by
  simp only [beside, Function.update_self]

@[simp] theorem beside_exec : (beside t v b).exec t = v.exec t := by
  simp only [beside, Function.update_self]

/-- Its own block has its own bytes. -/
theorem beside_mem {x : Nat} (h : v.InBlock t x) : (beside t v b).mem x = v.mem x := if_pos h

/-- What is copied out of the thread's own block is the same in both. -/
theorem readBytes_beside {a n : Nat} (h : ∀ x, a ≤ x → x < a + n → v.InBlock t x) :
    readBytes (beside t v b).mem a n = readBytes v.mem a n := by
  unfold readBytes
  apply List.map_congr_left
  intro i hi
  rw [List.mem_range] at hi
  exact beside_mem (h (a + i) (by omega) (by omega))

/-! ### What is written -/

/-- Writing a record is the same with the others beside. -/
theorem setCo_beside {c : McoRef} (h : (v.co c).isSome) (r : McoRoutine) :
    (beside t v b).setCo c r = beside t (v.setCo c r) b := by
  apply World.ext
  · funext d
    by_cases hd : d = c
    · rw [hd]
      simp only [setCo, beside, Function.update_self, Option.isSome_some, if_true]
    · simp only [setCo, beside, Function.update_of_ne hd]
  · funext d
    by_cases hd : d = c
    · rw [hd]
      simp only [setCo, beside, Function.update_self, Option.isSome_some, if_true, h]
    · simp only [setCo, beside, Function.update_of_ne hd]
  · rfl
  · rfl
  · rfl
  · rfl

theorem setStack_beside {c : McoRef} (h : (v.co c).isSome) (s : McoStack) :
    (beside t v b).setStack c s = beside t (v.setStack c s) b := by
  apply World.ext
  · rfl
  · funext d
    by_cases hd : d = c
    · rw [hd]
      simp only [setStack, beside, Function.update_self, h, if_true]
    · simp only [setStack, beside, Function.update_of_ne hd]
  · rfl
  · rfl
  · rfl
  · rfl

theorem setCallstack_beside (s : McoCallStack) :
    (beside t v b).setCallstack t s = beside t (v.setCallstack t s) b := by
  apply World.ext
  · rfl
  · rfl
  · simp only [setCallstack, beside, Function.update_self, Function.update_idem]
  · rfl
  · rfl
  · rfl

theorem setExec_beside (x : Option McoRef) :
    (beside t v b).setExec t x = beside t (v.setExec t x) b := by
  apply World.ext
  · rfl
  · rfl
  · rfl
  · rfl
  · simp only [setExec, beside, Function.update_self, Function.update_idem]
  · rfl

-- Only the occupant changes, so the block is where it was.
theorem inBlock_setCommonOccupy (o : Option McoRef) (x : Nat) :
    (v.setCommonOccupy t o).InBlock t x = v.InBlock t x := by
  simp only [InBlock, setCommonOccupy, Function.update_self]

theorem setCommonOccupy_beside (o : Option McoRef) :
    (beside t v b).setCommonOccupy t o = beside t (v.setCommonOccupy t o) b := by
  apply World.ext
  · rfl
  · rfl
  · rfl
  · simp only [setCommonOccupy, beside, Function.update_self, Function.update_idem]
  · rfl
  · funext x
    change (beside t v b).mem x = (if (v.setCommonOccupy t o).InBlock t x then v.mem x else b.mem x)
    simp only [inBlock_setCommonOccupy]
    rfl

/-- A write in the thread's own block. -/
theorem setMem_beside {m m' : Nat → UInt8} (hin : ∀ x, v.InBlock t x → m x = m' x)
    (hout : ∀ x, ¬ v.InBlock t x → m x = b.mem x) :
    ({ beside t v b with mem := m } : World) = beside t { v with mem := m' } b := by
  apply World.ext
  · rfl
  · rfl
  · rfl
  · rfl
  · rfl
  · funext x
    change m x = (if v.InBlock t x then m' x else b.mem x)
    by_cases hx : v.InBlock t x
    · rw [if_pos hx]
      exact hin x hx
    · rw [if_neg hx]
      exact hout x hx

/-- A copy into the thread's own block. -/
theorem writeBytes_beside {a : Nat} {l : List UInt8}
    (h : ∀ x, a ≤ x → x < a + l.length → v.InBlock t x) :
    ({ beside t v b with mem := writeBytes (beside t v b).mem a l } : World)
      = beside t { v with mem := writeBytes v.mem a l } b := by
  apply setMem_beside
  · intro x hx
    unfold writeBytes
    by_cases hr : a ≤ x ∧ x < a + l.length
    · rw [if_pos hr, if_pos hr]
    · rw [if_neg hr, if_neg hr]
      exact beside_mem hx
  · intro x hx
    have hr : ¬ (a ≤ x ∧ x < a + l.length) := fun hr => hx (h x hr.1 hr.2)
    unfold writeBytes
    rw [if_neg hr]
    exact if_neg hx

/-- So is making a coroutine. -/
theorem mcoCreate_beside (c : McoRef) (p : Bool) :
    (beside t v b).mcoCreate c p = beside t (v.mcoCreate c p) b := by
  apply World.ext
  · funext d
    by_cases hd : d = c
    · rw [hd]
      simp only [mcoCreate, beside, Function.update_self, Option.isSome_some, if_true]
    · simp only [mcoCreate, beside, Function.update_of_ne hd]
  · funext d
    by_cases hd : d = c
    · rw [hd]
      simp only [mcoCreate, beside, Function.update_self, Option.isSome_some, if_true]
    · simp only [mcoCreate, beside, Function.update_of_ne hd]
  · rfl
  · rfl
  · rfl
  · rfl

/-! ### The parts of a switch -/

theorem saveSp_beside {c : McoRef} {sp : Nat} (hc : (v.co c).isSome) (h : v.saveSp c sp = .ok v') :
    (beside t v b).saveSp c sp = .ok (beside t v' b) := by
  rcases saveSp_ok h with ⟨s, hs, rfl⟩
  unfold saveSp
  simp only [beside_stack hc, hs]
  rw [setStack_beside hc]

/-- The old occupant is copied out of the thread's own block. -/
theorem occupy_beside {c : McoRef} (hc : (v.co c).isSome)
    (hin : ∀ o r so, (v.mgr t).commonOccupy = some o → o ≠ c → v.co o = some r →
      r.finished = false → v.stack o = some so →
      ∀ x, so.stackSp ≤ x → x < so.stackBp → v.InBlock t x)
    (h : v.occupy t c = .ok v') : (beside t v b).occupy t c = .ok (beside t v' b) := by
  rcases occupy_cases h with ⟨s, hs, hcase⟩
  unfold occupy
  simp only [beside_stack hc, hs, beside_mgr]
  rcases hcase with ⟨hp, rfl⟩ | ⟨hp, rfl, hfree⟩ | ⟨hp, o, r, so, ho, hoc, hr, hfin, hso, rfl⟩
  · rw [if_pos hp]
  · rw [if_neg (by rw [hp]; decide), setCommonOccupy_beside]
    cases ho : (v.mgr t).commonOccupy with
    | none => rfl
    | some o =>
        by_cases hoc : o = c
        · simp only [if_pos hoc]
        · rcases hfree o ho hoc with ⟨r, hr, hfin⟩
          simp only [if_neg hoc, beside_co hr, if_pos hfin]
  · have hlive : (v.co o).isSome := by rw [hr]; rfl
    have hlive' : (((v.setCommonOccupy t (some c)).setCo o { r with stackStore := true }).co
        o).isSome := by
      simp only [setCo, Function.update_self, Option.isSome_some]
    -- The copy taken is the same, as the region is in the thread's own block.
    have hstore : storeUsedCommonStack (beside t v b).mem so = storeUsedCommonStack v.mem so := by
      unfold storeUsedCommonStack
      rw [readBytes_beside (fun x h1 h2 => hin o r so ho hoc hr hfin hso x h1 (by omega))]
    rw [if_neg (by rw [hp]; decide)]
    simp only [ho, if_neg hoc, beside_co hr, beside_stack hlive, hso, hfin, Bool.false_eq_true,
      if_false]
    rw [setCommonOccupy_beside, setCo_beside (v := v.setCommonOccupy t (some c)) hlive,
      setStack_beside hlive', hstore]

/-- A switch goes the same way. -/
theorem mcontextSwap_beside {a c : McoRef} {back : Bool}
    (h : v.mcontextSwap t a c = .ok (v', back)) :
    (beside t v b).mcontextSwap t a c = .ok (beside t v' b, back) := by
  rcases mcontextSwap_outcome h with ⟨ra, rc, m, hra, hctx, hrc, hm, hcase⟩
  rcases Option.isSome_iff_exists.mp hctx with ⟨ma, hma⟩
  have hlive : (v.co a).isSome := by rw [hra]; rfl
  have hpark : { ra with coctx := { ra.coctx with
        ctx := some { ma with regs := .inSwap (v.exec t) } } } = parked (v.exec t) ra := by
    simp only [parked, hma, Option.map_some]
  unfold mcontextSwap
  simp only [beside_co hra, hma, beside_exec, hpark, setCo_beside hlive, beside_co hrc, hm]
  rcases hcase with ⟨x, hx, rfl, rfl⟩ | ⟨x, hx, rfl, rfl⟩
  · simp only [hx, setExec_beside]
  · simp only [hx, setExec_beside]

/-- The saved bytes go back into the thread's own block. -/
theorem swapTail_beside
    (hin : ∀ c s r, (v.callstack t).getCurMco = some c → v.stack c = some s → v.co c = some r →
      s.isPrivate = false → r.stackStore = true → ∀ l, s.stackTmp = some l →
      ∀ x, s.stackSp ≤ x → x < s.stackSp + (l.take s.restoreSize).length → v.InBlock t x)
    (h : v.swapTail t = .ok v') : (beside t v b).swapTail t = .ok (beside t v' b) := by
  unfold swapTail
  simp only [beside_callstack]
  rcases swapTail_cases h with ⟨hn, rfl⟩ | ⟨c, s, r, hc, hs, hr, hcase⟩
  · simp only [hn]
  · have hlive : (v.co c).isSome := by rw [hr]; rfl
    simp only [hc, beside_stack hlive, hs, beside_co hr]
    rcases hcase with ⟨hno, rfl⟩ | ⟨hp, hflag, mem, hmem, rfl⟩
    · rw [if_neg]
      rcases hno with hp | hflag
      · rw [hp, Bool.not_true, Bool.false_and]
        decide
      · rw [hflag, Bool.and_false]
        decide
    · rw [if_pos (by rw [hp, hflag]; rfl)]
      unfold recoverUsedCommonStack at hmem ⊢
      by_cases hz : s.restoreSize = 0
      · rw [if_pos hz] at hmem ⊢
        injection hmem with hmem
        rw [← hmem, setCo_beside hlive]
        rfl
      · rw [if_neg hz] at hmem ⊢
        cases hl : s.stackTmp with
        | none =>
            rw [hl] at hmem
            cases hmem
        | some l =>
            rw [hl] at hmem
            injection hmem with hmem
            rw [← hmem, setCo_beside hlive]
            exact congrArg Except.ok (writeBytes_beside
              (v := v.setCo c { r with stackStore := false }) (hin c s r hc hs hr hp hflag l hl))

theorem enterCallback_beside (h : v.enterCallback t = .ok v') :
    (beside t v b).enterCallback t = .ok (beside t v' b) := by
  cases hx : v.exec t with
  | none =>
      unfold enterCallback at h
      rw [hx] at h
      cases h
  | some c =>
      rcases enterCallback_ok hx h with ⟨r, hr, rfl⟩
      unfold enterCallback
      simp only [beside_exec, hx, beside_co hr]
      rw [setCo_beside (by rw [hr]; rfl)]
      rfl

/-! ### The switch as a whole -/

/-- Every common stack is the block of `t`. -/
def Laid (w : World) (t : Tid) : Prop :=
  ∀ c a n e, w.shape c = some (a, n, e, false) →
    a = (w.mgr t).commonStack ∧ n = (w.mgr t).commonSize ∧
      e = (w.mgr t).commonStack + (w.mgr t).commonSize

/-- The regions of the clients start in the block of `t`, but for those that
    are left out. -/
def Inside (w : World) (t : Tid) (out : McoRef → Prop) : Prop :=
  ∀ c k, w.client c = some k → ¬ out c → (w.mgr t).commonStack ≤ k.lo

/-- A coroutine without a stack of its own is laid in the common block. -/
theorem Laid.stack {w : World} (h : w.Laid t) {c : McoRef} {s : McoStack} (hs : w.stack c = some s)
    (hp : s.isPrivate = false) : s.stack = (w.mgr t).commonStack ∧
      s.size = (w.mgr t).commonSize ∧
      s.stackBp = (w.mgr t).commonStack + (w.mgr t).commonSize := by
  refine h c s.stack s.size s.stackBp ?_
  rw [shape, hs, Option.map_some, hp]

theorem Laid.congr {w w' : World} (h : w.Laid t) (hshape : w'.shape = w.shape)
    (hblock : (w'.mgr t).commonStack = (w.mgr t).commonStack ∧
      (w'.mgr t).commonSize = (w.mgr t).commonSize) : w'.Laid t := by
  intro c a n e hc
  rw [hshape] at hc
  rw [hblock.1, hblock.2]
  exact h c a n e hc

-- Whoever is to have the block is not the one copied out.
theorem occupy_self {w w' : World} {c : McoRef} (h : w.occupy t c = .ok w') :
    w'.co c = w.co c ∧ w'.stack c = w.stack c := by
  rcases occupy_cases h with ⟨s, hs, ⟨_, rfl⟩ | ⟨_, rfl, _⟩ | ⟨_, o, r, so, _, hoc, _, _, _, rfl⟩⟩
  · exact ⟨rfl, rfl⟩
  · exact ⟨rfl, rfl⟩
  · simp only [setStack, setCo, setCommonOccupy, Function.update_of_ne (Ne.symm hoc), and_self]

/-- What a switch from `a` to `c` relies on for the bytes it copies to lie in
    the thread's own block. -/
structure SwapInside (w : World) (t : Tid) (a c : McoRef) (sp : Nat) : Prop where
  laid : w.Laid t
  others : w.Inside t (fun d => d = a ∨ d = c)
  caller : ∀ k, w.client a = some k → (w.mgr t).commonStack ≤ sp
  target : ∀ k, w.client c = some k → k.saved.isSome → (w.mgr t).commonStack ≤ k.lo

/-- The region of the occupant that is copied out lies in the block: the
    caller's from the stack pointer just stored, anybody else's as it did. -/
theorem SwapInside.occupant {w w1 : World} {a c : McoRef} {sp : Nat} (hi : SwapInside w t a c sp)
    (hr : SwapReady w t a c) (h1 : w.saveSp a sp = .ok w1) {o : McoRef} {r : McoRoutine}
    {so : McoStack} (ho : (w1.mgr t).commonOccupy = some o) (hoc : o ≠ c) (hro : w1.co o = some r)
    (hfin : r.finished = false) (hso : w1.stack o = some so) (x : Nat) (hx1 : so.stackSp ≤ x)
    (hx2 : x < so.stackBp) : w1.InBlock t x := by
  rcases saveSp_block h1 hr.backed hr.settled hr.caller with ⟨hblk, hb1, _⟩
  have hsame := saveSp_sameControl h1
  rcases hb1.occ o ho with ⟨r', s', hr', hs', hp, hst⟩
  rw [hro] at hr'
  injection hr' with hr'
  rw [hso] at hs'
  injection hs' with hs'
  rw [← hs'] at hp
  have hstart : r.start = true := by
    rcases hst with hst | hst
    · rw [hr']
      exact hst
    · rw [← hr', hfin] at hst
      cases hst
  have hcl : w1.client o = some (region so r.stackStore) := by
    rw [client_eq hro hso, hstart, hp]
    rfl
  have hmark : ((w.block t).mark a sp).client o = some (region so r.stackStore) := by
    rw [← hblk]
    exact hcl
  have hlo : (w.mgr t).commonStack ≤ so.stackSp := by
    by_cases hoa : o = a
    · rw [hoa] at hmark
      simp only [Spill.Block.mark, Function.update_self] at hmark
      rcases Option.map_eq_some_iff.mp hmark with ⟨k, hk, heq⟩
      have hsp : sp = so.stackSp := congrArg Spill.Client.lo heq
      rw [← hsp]
      exact hi.caller k hk
    · simp only [Spill.Block.mark, Function.update_of_ne hoa] at hmark
      refine hi.others o _ hmark ?_
      rintro (h | h)
      · exact hoa h
      · exact hoc h
  have hbp := ((hi.laid.congr hsame.shape (hsame.block t)).stack hso hp).2.2
  rw [(hsame.block t).1, (hsame.block t).2] at hbp
  unfold World.InBlock
  rw [(hsame.block t).1, (hsame.block t).2]
  omega

/-- The saved bytes that are copied in have the length of a region in the
    block. -/
theorem SwapInside.recovered {w : World} {a c : McoRef} {sp : Nat} (hi : SwapInside w t a c sp)
    (hr : SwapReady w t a c) {s : McoStack} {r : McoRoutine} (hs : w.stack c = some s)
    (hrc : w.co c = some r) (hp : s.isPrivate = false) (hflag : r.stackStore = true)
    {l : List UInt8} (hl : s.stackTmp = some l) (x : Nat) (hx1 : s.stackSp ≤ x)
    (hx2 : x < s.stackSp + (l.take s.restoreSize).length) : w.InBlock t x := by
  have hst := (hr.backed.stored c r hrc hflag).1
  have hcl : w.client c = some (region s true) := by
    rw [client_eq hrc hs, hst, hp, hflag]
    rfl
  have hlo : (w.mgr t).commonStack ≤ s.stackSp := hi.target _ hcl rfl
  have hlen := hr.backed.fit.sized c _ hcl (l.take s.restoreSize) (by
    simp only [region, if_true, hl, Option.getD_some])
  have hlen' : (l.take s.restoreSize).length = s.stackBp - s.stackSp := hlen
  have hbp := (hi.laid.stack hs hp).2.2
  unfold World.InBlock
  omega

/-- A switch of the thread leaves what is not the thread's alone, and does not
    read it. -/
theorem mcoSwap_beside {a c : McoRef} {sp : Nat} (hne : a ≠ c) (hr : SwapReady v t a c)
    (hi : SwapInside v t a c sp) (ha : (v.co a).isSome) (h : v.mcoSwap t a c sp = .ok v') :
    (beside t v b).mcoSwap t a c sp = .ok (beside t v' b) := by
  rcases mcoSwap_parts h with ⟨w1, w2, w3, back, h1, h2, h3, h4⟩
  rcases hr.target with ⟨rc, hrc, _, _⟩
  have hsame := (saveSp_sameControl h1).trans (occupy_sameControl h2)
  have hco1 : w1.co = v.co := by
    rcases saveSp_ok h1 with ⟨s, _, rfl⟩
    rfl
  have hstk1 : w1.stack c = v.stack c := by
    rcases saveSp_ok h1 with ⟨s, _, rfl⟩
    exact Function.update_of_ne hne.symm _ _
  have hlive : (w1.co c).isSome := by
    rw [hco1, hrc]
    rfl
  have h1' := saveSp_beside (t := t) (b := b) ha h1
  have h2' := occupy_beside (b := b) hlive
    (fun o r so ho hoc hro hfin hso => hi.occupant hr h1 ho hoc hro hfin hso) h2
  have h3' := mcontextSwap_beside (b := b) h3
  have hland : (beside t w3 b).land t back = .ok (beside t v' b) := by
    cases back with
    | false => exact enterCallback_beside h4
    | true =>
        refine swapTail_beside ?_ h4
        -- Neither half of the switch has touched what is saved of `c`.
        intro d s r hd hs hrd hp hflag l hl x hx1 hx2
        rcases mcontextSwap_cases hne h3 with ⟨ra, _, m, _, _, _, _, hsw⟩
        have hw3 : w3.callstack = w2.callstack ∧ w3.stack = w2.stack ∧ w3.mgr = w2.mgr ∧
            w3.co c = w2.co c := by
          rcases hsw with ⟨_, _, _, rfl⟩ | ⟨_, _, _, rfl⟩
          · exact ⟨rfl, rfl, rfl, Function.update_of_ne hne.symm _ _⟩
          · exact ⟨rfl, rfl, rfl, Function.update_of_ne hne.symm _ _⟩
        rcases hw3 with ⟨hcs3, hst3, hmg3, hco3⟩
        rcases occupy_self h2 with ⟨hco2, hst2⟩
        rw [hcs3, hsame.callstack, hr.top] at hd
        injection hd with hd
        rw [← hd, hst3, hst2, hstk1] at hs
        rw [← hd, hco3, hco2, hco1] at hrd
        have hin := hi.recovered hr hs hrd hp hflag hl x hx1 hx2
        unfold World.InBlock at hin ⊢
        rw [hmg3, (hsame.block t).1, (hsame.block t).2]
        exact hin
  unfold mcoSwap
  rw [h1']
  change (beside t w1 b).occupy t c >>= _ = _
  rw [h2']
  change (beside t w2 b).mcontextSwap t a c >>= _ = _
  rw [h3']
  exact hland

/-- After a switch every region but that of the coroutine that goes on starts
    in the block. -/
theorem mcoSwap_inside {a c : McoRef} {sp : Nat} (hne : a ≠ c) (hlead : v.LeadsTo c)
    (hr : SwapReady v t a c) (hi : SwapInside v t a c sp) (h : v.mcoSwap t a c sp = .ok v')
    (hblock : (v'.mgr t).commonStack = (v.mgr t).commonStack) :
    v'.Inside t (fun d => d = c) := by
  intro d k hk hdc
  have hk' : (v'.block t).client d = some k := hk
  have hc := mcoSwap_content hne hlead hr h d
  rw [Spill.Block.content_eq hk'] at hc
  rcases Option.map_eq_some_iff.mp hc.symm with ⟨k0, hk0, heq⟩
  have hlo : k0.lo = k.lo := congrArg Prod.fst heq
  rw [hblock, ← hlo]
  by_cases hda : d = a
  · rw [hda] at hk0
    simp only [Spill.Block.mark, Function.update_self] at hk0
    rcases Option.map_eq_some_iff.mp hk0 with ⟨k1, hk1, hkk⟩
    rw [← hkk]
    exact hi.caller k1 hk1
  · simp only [Spill.Block.mark, Function.update_of_ne hda] at hk0
    refine hi.others d k0 hk0 ?_
    rintro (h | h)
    · exact hda h
    · exact hdc h

/-! ### Making and starting a coroutine -/

theorem mainMco_beside (e : CallSite) :
    ((beside t v b).mainMco t e).1 = beside t (v.mainMco t e).1 b := by
  by_cases h0 : (v.callstack t).index = 0
  · have h0' : ((beside t v b).callstack t).index = 0 := by rw [beside_callstack, h0]
    rw [mainMco_eq h0, mainMco_eq h0']
    apply World.ext
    · funext d
      by_cases hd : d = e.main
      · rw [hd]
        simp only [beside, Function.update_self, Option.isSome_some, if_true]
      · simp only [beside, Function.update_of_ne hd]
    · funext d
      by_cases hd : d = e.main
      · rw [hd]
        simp only [beside, Function.update_self, Option.isSome_some, if_true]
      · simp only [beside, Function.update_of_ne hd]
    · simp only [beside, Function.update_self, Function.update_idem]
    · rfl
    · simp only [beside, Function.update_self, Function.update_idem]
    · rfl
  · have h0' : ((beside t v b).callstack t).index ≠ 0 := by
      rw [beside_callstack]
      exact h0
    rw [mainMco_of_nonempty h0, mainMco_of_nonempty h0']

/-- Starting a coroutine is the same with the others beside. -/
theorem started_beside {c : McoRef} {r : McoRoutine} {blk : Nat} (hr : v.co c = some r) :
    (beside t v b).started t c r blk
      = (beside t (v.started t c r blk).1 b, (v.started t c r blk).2) := by
  have hlive : (v.co c).isSome := by rw [hr]; rfl
  unfold started initMcoContext
  simp only [beside_mgr]
  rw [setStack_beside hlive, setCo_beside (v := v.setStack c _) hlive]

theorem beforePop_beside {c s : McoRef} (r rs : McoRoutine) (hc : (v.co c).isSome)
    (hs : (v.co s).isSome) :
    (beside t v b).beforePop t c r s rs = beside t (v.beforePop t c r s rs) b := by
  have hs' : (((v.setCallstack t (v.callstack t).pop).setCo c r.giveUp).co s).isSome := by
    by_cases hsc : s = c
    · rw [hsc]
      simp only [setCo, Function.update_self, Option.isSome_some]
    · simp only [setCo, Function.update_of_ne hsc]
      exact hs
  unfold beforePop
  rw [beside_callstack, setCallstack_beside,
    setCo_beside (v := v.setCallstack t (v.callstack t).pop) hc, setCo_beside hs']

/-- What is written before a switch does not depend on the others. -/
theorem beforePush_beside {cur c : McoRef} (rcur r : McoRoutine) (hcur : (v.co cur).isSome)
    (hc : (v.co c).isSome) :
    (beside t v b).beforePush t cur rcur c r = beside t (v.beforePush t cur rcur c r) b := by
  have hcur' : (((v.setCallstack t ((v.callstack t).push c)).setCo c
      (r.takeOver (some cur))).co cur).isSome := by
    by_cases hcc : cur = c
    · rw [hcc]
      simp only [setCo, Function.update_self, Option.isSome_some]
    · simp only [setCo, Function.update_of_ne hcc]
      exact hcur
  unfold beforePush
  rw [beside_callstack, setCallstack_beside,
    setCo_beside (v := v.setCallstack t ((v.callstack t).push c)) hc, setCo_beside hcur']

end World

end Fasco
