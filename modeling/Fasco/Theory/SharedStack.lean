import Fasco.Lib.Spill
import Fasco.Theory.CallStack

/-!
# The Common Block

The bookkeeping of `McoSwap` around the register switch, read as a block of
memory handed from client to client. A coroutine is a client of its thread's
common block from its start until its callback has ended, if it has no stack
of its own; its region goes from `stack_sp` to `stack_bp`, and `stack_store`
says that `stack_tmp` holds its bytes.

Each part of `McoSwap` is an operation on that block: storing the stack
pointer marks a new start of the caller's region, the first half hands the
block over, and the recovery step restores the region of the coroutine that
goes on. `mcoSwap_block` puts them together. What a client owns is then the
same before and after, whoever has the block, and `Backed` is the invariant
under which the parts can be run at all.

## Main definitions

* `region`, `World.client`, `World.block`: The block and its clients.
* `Backed`: Every client's bytes are somewhere, and the flags and pointers
  that lead to them are good.

## Theorems

* `saveSp_block`, `occupy_block`, `swapTail_block`: What the parts of
  `McoSwap` do to the block.
* `mcoSwap_block`: What `McoSwap` does to it.
* `mcoSwap_content`: A switch loses nobody's bytes.
-/

namespace Fasco

/-- The part of the common block a stack record describes, and its copy. -/
def region (s : McoStack) (stored : Bool) : Spill.Client UInt8 :=
  { lo := s.stackSp
    hi := s.stackBp
    saved := if stored then some ((s.stackTmp.getD []).take s.restoreSize) else none }

namespace World

/-- The coroutine as a client of the common block. -/
def client (w : World) (c : McoRef) : Option (Spill.Client UInt8) :=
  match w.co c, w.stack c with
  | some r, some s => if r.start && !s.isPrivate then some (region s r.stackStore) else none
  | _, _ => none

/-- The common block of thread `t`. -/
def block (w : World) (t : Tid) : Spill.Block McoRef UInt8 :=
  { client := w.client, holder := (w.mgr t).commonOccupy, mem := w.mem }

theorem client_eq_some {w : World} {c : McoRef} {k : Spill.Client UInt8} :
    w.client c = some k ↔ ∃ r s, w.co c = some r ∧ w.stack c = some s ∧ r.start = true ∧
      s.isPrivate = false ∧ region s r.stackStore = k := by
  unfold client
  constructor
  · intro h
    cases hr : w.co c with
    | none =>
        rw [hr] at h
        cases h
    | some r =>
        cases hs : w.stack c with
        | none =>
            rw [hr, hs] at h
            cases h
        | some s =>
            rw [hr, hs] at h
            simp only [] at h
            by_cases hb : (r.start && !s.isPrivate) = true
            · rw [if_pos hb] at h
              injection h with h
              rw [Bool.and_eq_true, Bool.not_eq_true'] at hb
              exact ⟨r, s, rfl, rfl, hb.1, hb.2, h⟩
            · rw [if_neg hb] at h
              cases h
  · rintro ⟨r, s, hr, hs, hst, hp, hk⟩
    rw [hr, hs]
    simp only [hst, hp, Bool.not_false, Bool.and_self, if_true, hk]

theorem client_eq {w : World} {c : McoRef} {r : McoRoutine} {s : McoStack} (hr : w.co c = some r)
    (hs : w.stack c = some s) :
    w.client c = if r.start && !s.isPrivate then some (region s r.stackStore) else none := by
  simp only [client, hr, hs]

/-- What the block's bookkeeping reads of a coroutine's record. -/
def duty (w : World) (c : McoRef) : Option (Bool × Bool × Bool) :=
  (w.co c).map (fun r => (r.start, r.finished, r.stackStore))

theorem client_congr {w w' : World} {c : McoRef} (h : w'.duty c = w.duty c)
    (hs : w'.stack c = w.stack c) : w'.client c = w.client c := by
  unfold duty at h
  unfold client
  rw [hs]
  cases hr : w.co c with
  | none =>
      rw [hr, Option.map_none, Option.map_eq_none_iff] at h
      rw [h]
  | some r =>
      rw [hr, Option.map_some] at h
      rcases Option.map_eq_some_iff.mp h with ⟨r', hr', heq⟩
      rw [hr']
      injection heq with h1 h2
      injection h2 with h2 h3
      cases w.stack c with
      | none => rfl
      | some s =>
          change (if r'.start && !s.isPrivate then _ else _) = _
          rw [h1, h3]

/-- The block is given by its clients, its holder and the memory. -/
theorem block_eq {w : World} {t : Tid} {B : Spill.Block McoRef UInt8} (hc : w.client = B.client)
    (hh : (w.mgr t).commonOccupy = B.holder) (hm : w.mem = B.mem) : w.block t = B := by
  cases B with
  | mk cl ho me =>
      simp only at hc hh hm
      rw [← hc, ← hh, ← hm]
      rfl

theorem setCo_duty_of_ne (w : World) {c d : McoRef} (r : McoRoutine) (h : d ≠ c) :
    (w.setCo c r).duty d = w.duty d := by
  simp only [duty, setCo, Function.update_of_ne h]

-- Writing back a record with the same duty changes nothing here.
theorem setCo_duty (w : World) {c : McoRef} {r r' : McoRoutine} (hr : w.co c = some r)
    (h : (r'.start, r'.finished, r'.stackStore) = (r.start, r.finished, r.stackStore)) :
    (w.setCo c r').duty = w.duty := by
  funext d
  by_cases hd : d = c
  · rw [hd]
    simp only [duty, setCo, Function.update_self, Option.map_some, hr, h]
  · exact w.setCo_duty_of_ne r' hd

/-- The bytes of every client but `b` are somewhere, and what leads to them
    is good: the occupant is a live coroutine on the block that has been
    started, a stored coroutine has its copy, and a started one has a stack and
    has not finished. -/
structure Backed (w : World) (t : Tid) (b : Option McoRef) : Prop where
  fit : (w.block t).FitBut b
  occ : ∀ o, (w.mgr t).commonOccupy = some o → ∃ r s, w.co o = some r ∧ w.stack o = some s ∧
    s.isPrivate = false ∧ (r.start = true ∨ r.finished = true)
  stored : ∀ c r, w.co c = some r → r.stackStore = true → r.start = true ∧
    ∃ s, w.stack c = some s ∧ s.isPrivate = false ∧ s.stackTmp.isSome
  begun : ∀ c r, w.co c = some r → r.start = true → r.finished = false ∧ (w.stack c).isSome

theorem Backed.congr {w w' : World} {t : Tid} {b : Option McoRef} (hb : Backed w t b)
    (hduty : w'.duty = w.duty) (hstack : w'.stack = w.stack)
    (hocc : (w'.mgr t).commonOccupy = (w.mgr t).commonOccupy) (hmem : w'.mem = w.mem) :
    w'.block t = w.block t ∧ Backed w' t b := by
  have hclient : w'.client = w.client := by
    funext c
    exact client_congr (congrFun hduty c) (congrFun hstack c)
  have hblock : w'.block t = w.block t := by
    simp only [block, hclient, hocc, hmem]
  -- A record of the new state has a record of the old one with the same duty.
  have hback : ∀ c r', w'.co c = some r' → ∃ r, w.co c = some r ∧ r'.start = r.start ∧
      r'.finished = r.finished ∧ r'.stackStore = r.stackStore := by
    intro c r' hr'
    have h := congrFun hduty c
    simp only [duty, hr', Option.map_some] at h
    rcases Option.map_eq_some_iff.mp h.symm with ⟨r, hr, heq⟩
    injection heq with h1 h2
    injection h2 with h2 h3
    exact ⟨r, hr, h1.symm, h2.symm, h3.symm⟩
  have hforth : ∀ c r, w.co c = some r → ∃ r', w'.co c = some r' ∧ r'.start = r.start ∧
      r'.finished = r.finished := by
    intro c r hr
    have h := congrFun hduty c
    simp only [duty, hr, Option.map_some] at h
    rcases Option.map_eq_some_iff.mp h with ⟨r', hr', heq⟩
    injection heq with h1 h2
    injection h2 with h2 h3
    exact ⟨r', hr', h1, h2⟩
  refine ⟨hblock, ?_, ?_, ?_, ?_⟩
  · rw [hblock]
    exact hb.fit
  · intro o ho
    rw [hocc] at ho
    rcases hb.occ o ho with ⟨r, s, hr, hs, hp, hst⟩
    rcases hforth o r hr with ⟨r', hr', h1, h2⟩
    exact ⟨r', s, hr', by rw [hstack]; exact hs, hp, by rw [h1, h2]; exact hst⟩
  · intro c r' hr' hst
    rcases hback c r' hr' with ⟨r, hr, h1, _, h3⟩
    rw [h3] at hst
    rw [h1, hstack]
    exact hb.stored c r hr hst
  · intro c r' hr' hst
    rcases hback c r' hr' with ⟨r, hr, h1, h2, _⟩
    rw [h1] at hst
    rw [h2, hstack]
    exact hb.begun c r hr hst

/-! ### The parts of `McoSwap` -/

theorem saveSp_block {w w' : World} {t : Tid} {a : McoRef} {sp : Nat} {b : Option McoRef}
    (h : w.saveSp a sp = .ok w') (hb : Backed w t b) (hs : (w.block t).Settled)
    (ha : ∀ k, w.client a = some k → (w.mgr t).commonOccupy = some a) :
    w'.block t = (w.block t).mark a sp ∧ Backed w' t b ∧ (w'.block t).Settled := by
  rcases saveSp_ok h with ⟨s, hsa, rfl⟩
  have hblock : (w.setStack a { s with stackSp := sp }).block t = (w.block t).mark a sp := by
    have hclient : (w.setStack a { s with stackSp := sp }).client
        = Function.update w.client a ((w.client a).map (fun k => { k with lo := sp })) := by
      funext c
      by_cases hc : c = a
      · rw [hc, Function.update_self]
        cases hr : w.co a with
        | none => simp only [client, setStack, hr, Option.map_none]
        | some r =>
            simp only [client, setStack, hr, Function.update_self, hsa]
            by_cases hcond : (r.start && !s.isPrivate) = true
            · rw [if_pos hcond, if_pos hcond]
              rfl
            · rw [if_neg hcond, if_neg hcond]
              rfl
      · rw [Function.update_of_ne hc]
        exact client_congr rfl (by simp only [setStack, Function.update_of_ne hc])
    simp only [block, Spill.Block.mark, hclient]
    rfl
  have hfit := Spill.Block.mark_fit hb.fit hs ha sp
  rw [hblock]
  refine ⟨rfl, ⟨by rw [hblock]; exact hfit.1, ?_, ?_, ?_⟩, hfit.2⟩
  · intro o ho
    rcases hb.occ o ho with ⟨r, so, hr, hso, hp, hst⟩
    by_cases hoa : o = a
    · rw [hoa, hsa] at hso
      injection hso with hso
      refine ⟨r, { s with stackSp := sp }, hr, ?_, by rw [← hso] at hp; exact hp, hst⟩
      rw [hoa]
      simp only [setStack, Function.update_self]
    · refine ⟨r, so, hr, ?_, hp, hst⟩
      simp only [setStack, Function.update_of_ne hoa]
      exact hso
  · intro c r hr hst
    rcases hb.stored c r hr hst with ⟨hstart, sc, hsc, hp, htmp⟩
    refine ⟨hstart, ?_⟩
    by_cases hca : c = a
    · rw [hca, hsa] at hsc
      injection hsc with hsc
      refine ⟨{ s with stackSp := sp }, ?_, by rw [← hsc] at hp; exact hp,
        by rw [← hsc] at htmp; exact htmp⟩
      rw [hca]
      simp only [setStack, Function.update_self]
    · refine ⟨sc, ?_, hp, htmp⟩
      simp only [setStack, Function.update_of_ne hca]
      exact hsc
  · intro c r hr hst
    rcases hb.begun c r hr hst with ⟨hfin, hsome⟩
    refine ⟨hfin, ?_⟩
    by_cases hca : c = a
    · rw [hca]
      simp only [setStack, Function.update_self, Option.isSome_some]
    · simp only [setStack, Function.update_of_ne hca]
      exact hsome

/-- A finished coroutine is no client. -/
theorem client_finished {w : World} {t : Tid} {b : Option McoRef} {c : McoRef} {r : McoRoutine}
    (hb : Backed w t b) (hr : w.co c = some r) (hfin : r.finished = true) :
    w.client c = none := by
  cases hk : w.client c with
  | none => rfl
  | some k =>
      rcases client_eq_some.mp hk with ⟨r', _, hr', _, hst, _⟩
      rw [hr] at hr'
      injection hr' with hr'
      have hunf := (hb.begun c r hr (by rw [hr']; exact hst)).1
      rw [hfin] at hunf
      cases hunf

/-- Nor is one with a stack of its own. -/
theorem client_private {w : World} {c : McoRef} {s : McoStack} (hs : w.stack c = some s)
    (hp : s.isPrivate = true) : w.client c = none := by
  cases hk : w.client c with
  | none => rfl
  | some k =>
      rcases client_eq_some.mp hk with ⟨_, s', _, hs', _, hp', _⟩
      rw [hs] at hs'
      injection hs' with hs'
      rw [← hs', hp] at hp'
      cases hp'

/-- The block is free, or its occupant has finished. -/
theorem taken_block {w : World} {t : Tid} {b : McoRef} {x : Option McoRef} (hb : Backed w t x)
    (hfree : ∀ o, (w.mgr t).commonOccupy = some o → o ≠ b →
      ∃ r, w.co o = some r ∧ r.finished = true) :
    (w.setCommonOccupy t (some b)).block t = (w.block t).occupy b := by
  refine block_eq ?_ ?_ (Spill.Block.occupy_mem (w.block t) b).symm
  · funext c
    rw [Spill.Block.occupy_client]
    by_cases hc : (w.block t).holder = some c ∧ c ≠ b
    · rcases hfree c hc.1 hc.2 with ⟨r, hr, hfin⟩
      have hnone := client_finished hb hr hfin
      rw [if_pos hc]
      change w.client c = (w.client c).map _
      rw [hnone, Option.map_none]
    · rw [if_neg hc]
      rfl
  · rw [Spill.Block.occupy_holder]
    simp only [setCommonOccupy, Function.update_self]

/-- `b` has got the block, and the bytes of `o` have been stored. -/
def spilled (w : World) (t : Tid) (b o : McoRef) (r : McoRoutine) (so : McoStack) : World :=
  ((w.setCommonOccupy t (some b)).setCo o { r with stackStore := true }).setStack o
    (storeUsedCommonStack w.mem so)

/-- The coroutine `o` has the block of thread `t`, and has not finished. -/
structure HoldsBlock (w : World) (t : Tid) (o : McoRef) (r : McoRoutine) (so : McoStack) :
    Prop where
  holds : (w.mgr t).commonOccupy = some o
  record : w.co o = some r
  stack : w.stack o = some so
  unfinished : r.finished = false

namespace HoldsBlock

variable {w : World} {t : Tid} {b o : McoRef} {r : McoRoutine} {so : McoStack} {x : Option McoRef}

theorem shared (h : HoldsBlock w t o r so) (hb : Backed w t x) :
    r.start = true ∧ so.isPrivate = false := by
  rcases hb.occ o h.holds with ⟨r', s', hr', hs', hp, hst⟩
  rw [h.record] at hr'
  rw [h.stack] at hs'
  injection hr' with hr'
  injection hs' with hs'
  rw [← hr', h.unfinished] at hst
  rw [← hs'] at hp
  rcases hst with hst | hst
  · exact ⟨hst, hp⟩
  · cases hst

theorem spilled_block (h : HoldsBlock w t o r so) (hb : Backed w t x) (hob : o ≠ b) :
    (w.spilled t b o r so).block t = (w.block t).occupy b := by
  rcases h.shared hb with ⟨hro, hpo⟩
  have hstore : region (storeUsedCommonStack w.mem so) true
      = (region so r.stackStore).save w.mem := by
    simp only [region, storeUsedCommonStack, hpo, Spill.Client.save, Bool.false_eq_true,
      if_false, if_true, Option.getD_some]
    rw [List.take_of_length_le (by rw [readBytes_length])]
    rfl
  have hps : (storeUsedCommonStack w.mem so).isPrivate = false := by
    simp only [storeUsedCommonStack, hpo, Bool.false_eq_true, if_false]
  refine block_eq ?_ ?_ (Spill.Block.occupy_mem (w.block t) b).symm
  · funext c
    rw [Spill.Block.occupy_client]
    by_cases hc : c = o
    · rw [hc, if_pos ⟨h.holds, hob⟩]
      change _ = (w.client o).map _
      rw [client_eq h.record h.stack, hro, hpo]
      simp only [spilled, client, setStack, setCo, setCommonOccupy, Function.update_self, hps,
        hro, Bool.not_false, Bool.and_self, if_true, Option.map_some, hstore]
      rfl
    · rw [if_neg]
      · exact client_congr
          (by simp only [spilled, duty, setStack, setCo, setCommonOccupy, Function.update_of_ne hc])
          (by simp only [spilled, setStack, setCo, setCommonOccupy, Function.update_of_ne hc])
      · rintro ⟨hh, _⟩
        have hh' : (w.mgr t).commonOccupy = some c := hh
        rw [h.holds] at hh'
        injection hh' with hh'
        exact hc hh'.symm
  · rw [Spill.Block.occupy_holder]
    simp only [spilled, setStack, setCo, setCommonOccupy, Function.update_self]

/-- Everything that is stored has its copy, `o` included. -/
theorem spilled_backed {rb : McoRoutine} {s : McoStack} (h : HoldsBlock w t o r so)
    (hb : Backed w t (some b)) (hob : o ≠ b) (hrb : w.co b = some rb) (hstb : rb.start = true)
    (hsb : w.stack b = some s) (hp : s.isPrivate = false) :
    Backed (w.spilled t b o r so) t none := by
  rcases h.shared hb with ⟨hro, hpo⟩
  refine ⟨by rw [h.spilled_block hb hob]; exact Spill.Block.occupy_fit hb.fit, ?_, ?_, ?_⟩
  · intro o' ho'
    simp only [spilled, setStack, setCo, setCommonOccupy, Function.update_self] at ho'
    injection ho' with ho'
    rw [← ho']
    refine ⟨rb, s, ?_, ?_, hp, Or.inl hstb⟩
    · simp only [spilled, setStack, setCo, setCommonOccupy, Function.update_of_ne (Ne.symm hob)]
      exact hrb
    · simp only [spilled, setStack, setCo, setCommonOccupy, Function.update_of_ne (Ne.symm hob)]
      exact hsb
  · intro c r' hr' hst
    by_cases hc : c = o
    · rw [hc] at hr' ⊢
      simp only [spilled, setStack, setCo, setCommonOccupy, Function.update_self] at hr' ⊢
      injection hr' with hr'
      refine ⟨by rw [← hr']; exact hro, _, rfl, ?_, ?_⟩
      · simp only [storeUsedCommonStack, hpo, Bool.false_eq_true, if_false]
      · simp only [storeUsedCommonStack, hpo, Bool.false_eq_true, if_false, Option.isSome_some]
    · simp only [spilled, setStack, setCo, setCommonOccupy, Function.update_of_ne hc] at hr' ⊢
      exact hb.stored c r' hr' hst
  · intro c r' hr' hst
    by_cases hc : c = o
    · rw [hc] at hr' ⊢
      simp only [spilled, setStack, setCo, setCommonOccupy, Function.update_self] at hr' ⊢
      injection hr' with hr'
      exact ⟨by rw [← hr']; exact h.unfinished, rfl⟩
    · simp only [spilled, setStack, setCo, setCommonOccupy, Function.update_of_ne hc] at hr' ⊢
      exact hb.begun c r' hr' hst

end HoldsBlock

/-- A coroutine on the block gets it, and whoever had it is saved; a coroutine
    with a stack of its own leaves the block alone. -/
theorem occupy_block {w w' : World} {t : Tid} {b : McoRef} {rb : McoRoutine}
    (h : w.occupy t b = .ok w') (hb : Backed w t (some b)) (hrb : w.co b = some rb)
    (hstb : rb.start = true) :
    Backed w' t none ∧ ∃ s, w.stack b = some s ∧
      ((s.isPrivate = true ∧ w' = w) ∨
       (s.isPrivate = false ∧ w'.block t = (w.block t).occupy b)) := by
  rcases occupy_cases h with ⟨s, hsb, ⟨hp, rfl⟩ | ⟨hp, rfl, hfree⟩ | ⟨hp, o, r, so, ho, hob, hr,
    hfin, hso, rfl⟩⟩
  · -- `b` is no client, so leaving it out made no difference.
    refine ⟨⟨⟨?_, hb.fit.sized⟩, hb.occ, hb.stored, hb.begun⟩, s, hsb, Or.inl ⟨hp, rfl⟩⟩
    intro c k hk _ hh
    refine hb.fit.placed c k hk (fun hcb => ?_) hh
    injection hcb with hcb
    have hk' : w'.client c = some k := hk
    rw [hcb, client_private hsb hp] at hk'
    cases hk'
  · have hblock := taken_block hb hfree
    refine ⟨⟨by rw [hblock]; exact Spill.Block.occupy_fit hb.fit, fun o ho => ?_, hb.stored,
      hb.begun⟩, s, hsb, Or.inr ⟨hp, hblock⟩⟩
    simp only [setCommonOccupy, Function.update_self] at ho
    injection ho with ho
    rw [← ho]
    exact ⟨rb, s, hrb, hsb, hp, Or.inl hstb⟩
  · have hocc : HoldsBlock w t o r so := ⟨ho, hr, hso, hfin⟩
    exact ⟨hocc.spilled_backed hb hob hrb hstb hsb hp, s, hsb,
      Or.inr ⟨hp, hocc.spilled_block hb hob⟩⟩

theorem writeBytes_eq (mem : Nat → UInt8) (a : Nat) (l : List UInt8) :
    writeBytes mem a l = Spill.write mem a l := by
  funext x
  unfold writeBytes Spill.write
  by_cases hx : a ≤ x ∧ x < a + l.length
  · rw [if_pos hx, if_pos hx.1, List.getD_eq_getElem l _ (by omega : x - a < l.length),
      List.getD_eq_getElem l _ (by omega : x - a < l.length)]
  · rw [if_neg hx]
    by_cases hax : a ≤ x
    · rw [if_pos hax, List.getD_eq_default l _ (by omega)]
    · rw [if_neg hax]

theorem restore_none {B : Spill.Block McoRef UInt8} {b : McoRef} (h : B.client b = none) :
    B.restore b = B := by
  simp only [Spill.Block.restore, h]

theorem restore_unsaved {B : Spill.Block McoRef UInt8} {b : McoRef} {k : Spill.Client UInt8}
    (h : B.client b = some k) (hk : k.saved = none) : B.restore b = B := by
  simp only [Spill.Block.restore, h, hk]

/-- The recovery step puts the saved bytes of the topmost coroutine back. -/
theorem swapTail_block {w w' : World} {t : Tid} {b : McoRef} {rb : McoRoutine}
    (h : w.swapTail t = .ok w') (htop : (w.callstack t).getCurMco = some b)
    (hb : Backed w t none) (hrb : w.co b = some rb) (hstb : rb.start = true)
    (hocc : ∀ k, w.client b = some k → (w.mgr t).commonOccupy = some b) :
    w'.block t = (w.block t).restore b ∧ Backed w' t none := by
  rcases swapTail_cases h with ⟨hn, _⟩ | ⟨c, s, r, hc, hsc, hrc, hcase⟩
  · rw [htop] at hn
    cases hn
  · rw [htop] at hc
    injection hc with hc
    rw [← hc] at hsc hrc hcase
    rw [hrb] at hrc
    injection hrc with hrc
    rw [← hrc] at hcase
    rcases hcase with ⟨hno, rfl⟩ | ⟨hp, hflag, mem, hmem, rfl⟩
    · refine ⟨?_, hb⟩
      have hcl := client_eq hrb hsc
      rcases hno with hp | hflag
      · rw [hp, Bool.not_true, Bool.and_false, if_neg (by decide)] at hcl
        rw [restore_none hcl]
      · by_cases hcond : (rb.start && !s.isPrivate) = true
        · rw [if_pos hcond] at hcl
          rw [restore_unsaved hcl]
          simp only [region, hflag, Bool.false_eq_true, if_false]
        · rw [if_neg hcond] at hcl
          rw [restore_none hcl]
    · rcases hb.stored b rb hrb hflag with ⟨_, s', hs', _, htmp⟩
      rw [hsc] at hs'
      injection hs' with hs'
      rw [← hs'] at htmp
      rcases Option.isSome_iff_exists.mp htmp with ⟨bytes, hbytes⟩
      have hcl : w.client b = some (region s true) := by
        rw [client_eq hrb hsc, hstb, hp, hflag]
        rfl
      have hmem' : mem = Spill.write w.mem s.stackSp (bytes.take s.restoreSize) := by
        unfold recoverUsedCommonStack at hmem
        by_cases hz : s.restoreSize = 0
        · rw [if_pos hz] at hmem
          injection hmem with hmem
          rw [← hmem, hz, List.take_zero, ← writeBytes_eq]
          funext x
          rw [writeBytes_out]
          simp only [List.length_nil]
          omega
        · rw [if_neg hz, hbytes] at hmem
          injection hmem with hmem
          rw [← hmem, writeBytes_eq]
      have hclient : ({ w.setCo b { rb with stackStore := false } with mem := mem } : World).client
          = ((w.block t).restore b).client := by
        funext c'
        by_cases hc' : c' = b
        · rw [hc', Spill.Block.restore_client_self]
          change _ = (w.client b).map _
          rw [hcl]
          simp only [client, setCo, Function.update_self, hsc, hstb, hp, Bool.not_false,
            Bool.and_self, if_true, Option.map_some]
          rfl
        · rw [Spill.Block.restore_client_of_ne _ hc']
          exact client_congr (by simp only [duty, setCo, Function.update_of_ne hc']) rfl
      have hblock : ({ w.setCo b { rb with stackStore := false } with mem := mem } : World).block t
          = (w.block t).restore b := by
        refine block_eq hclient (Spill.Block.restore_holder (w.block t) b).symm ?_
        have hcl' : (w.block t).client b = some (region s true) := hcl
        simp only [Spill.Block.restore, hcl', region, if_true, hbytes, Option.getD_some]
        exact hmem'
      have hholds : (w.block t).holder = some b := hocc _ hcl
      refine ⟨hblock, ⟨by rw [hblock]; exact Spill.Block.restore_fit hb.fit hholds, ?_, ?_, ?_⟩⟩
      · intro o ho
        rcases hb.occ o ho with ⟨r', s', hr', hs', hp', hst⟩
        by_cases hob : o = b
        · rw [hob] at hr' hs' ⊢
          refine ⟨{ rb with stackStore := false }, s', ?_, hs', hp', Or.inl hstb⟩
          simp only [setCo, Function.update_self]
        · refine ⟨r', s', ?_, hs', hp', hst⟩
          simp only [setCo, Function.update_of_ne hob]
          exact hr'
      · intro c' r' hr' hst
        by_cases hcb : c' = b
        · rw [hcb] at hr'
          simp only [setCo, Function.update_self] at hr'
          injection hr' with hr'
          rw [← hr'] at hst
          cases hst
        · simp only [setCo, Function.update_of_ne hcb] at hr'
          exact hb.stored c' r' hr' hst
      · intro c' r' hr' hst
        by_cases hcb : c' = b
        · rw [hcb] at hr' ⊢
          simp only [setCo, Function.update_self] at hr'
          injection hr' with hr'
          rw [← hr']
          exact hb.begun b rb hrb hstb
        · simp only [setCo, Function.update_of_ne hcb] at hr'
          exact hb.begun c' r' hr' hst

/-! ### The switch as a whole -/

/-- What a switch relies on: the caller has its bytes in place, and the
    coroutine switched to has been started and, if its callback is only now to
    be called, has never been stored. -/
structure SwapReady (w : World) (t : Tid) (a b : McoRef) : Prop where
  backed : Backed w t (some b)
  settled : (w.block t).Settled
  caller : ∀ k, w.client a = some k → (w.mgr t).commonOccupy = some a
  target : ∃ r, w.co b = some r ∧ r.start = true ∧
    ∀ m, r.coctx.ctx = some m → m.regs = .entry b → r.stackStore = false
  top : (w.callstack t).getCurMco = some b

/-- The callback of `b` is called after the register switch; `b` has never been
    stored. -/
theorem entered_block {w w' : World} {t : Tid} {a b c : McoRef} {ra : McoRoutine}
    (hb : Backed w t none) (hra : w.co a = some ra)
    (hflag : ∀ k, w.client b = some k → k.saved = none)
    (h : ((w.setCo a (parked (w.exec t) ra)).setExec t (some c)).enterCallback t = .ok w') :
    Backed w' t none ∧ w'.block t = (w.block t).restore b := by
  have hx : ((w.setCo a (parked (w.exec t) ra)).setExec t (some c)).exec t = some c := by
    simp only [setExec, Function.update_self]
  rcases enterCallback_ok hx h with ⟨r', hr', rfl⟩
  have hparked : ((w.setCo a (parked (w.exec t) ra)).setExec t (some c)).duty = w.duty :=
    setCo_duty w hra rfl
  have hduty : (((w.setCo a (parked (w.exec t) ra)).setExec t (some c)).setCo c
      (called r')).duty = ((w.setCo a (parked (w.exec t) ra)).setExec t (some c)).duty :=
    setCo_duty _ hr' rfl
  rcases hb.congr (hduty.trans hparked) rfl rfl rfl with ⟨hblk, hbk⟩
  refine ⟨hbk, ?_⟩
  rw [hblk]
  cases hk : w.client b with
  | none => rw [restore_none (B := w.block t) hk]
  | some k => rw [restore_unsaved (B := w.block t) hk (hflag k hk)]

/-- `b` goes on in `McoSwap` after the register switch, with the recovery step. -/
theorem recovered_block {w w' : World} {t : Tid} {a b : McoRef} {x : Option McoRef}
    {ra rc : McoRoutine} (hne : a ≠ b) (hb : Backed w t none) (hra : w.co a = some ra)
    (hrc : w.co b = some rc) (hst : rc.start = true)
    (htop : (w.callstack t).getCurMco = some b)
    (hholds : ∀ k, w.client b = some k → (w.mgr t).commonOccupy = some b)
    (h : ((w.setCo a (parked (w.exec t) ra)).setExec t x).swapTail t = .ok w') :
    Backed w' t none ∧ w'.block t = (w.block t).restore b := by
  have hduty : ((w.setCo a (parked (w.exec t) ra)).setExec t x).duty = w.duty :=
    setCo_duty w hra rfl
  rcases hb.congr hduty rfl rfl rfl with ⟨hblk, hbk⟩
  have hrc' : ((w.setCo a (parked (w.exec t) ra)).setExec t x).co b = some rc := by
    simp only [setExec, setCo, Function.update_of_ne hne.symm]
    exact hrc
  have hcl : ((w.setCo a (parked (w.exec t) ra)).setExec t x).client = w.client :=
    congrArg Spill.Block.client hblk
  rcases swapTail_block h htop hbk hrc' hst (fun k hk => hholds k (by
    rw [← hcl]
    exact hk)) with ⟨hblk', hbk'⟩
  rw [hblk] at hblk'
  exact ⟨hbk', hblk'⟩

theorem client_unstored {w : World} {b : McoRef} {rb : McoRoutine} {k : Spill.Client UInt8}
    (hrb : w.co b = some rb) (hf : rb.stackStore = false) (hk : w.client b = some k) :
    k.saved = none := by
  rcases client_eq_some.mp hk with ⟨r, s, hr, _, _, _, hk⟩
  rw [hrb] at hr
  injection hr with hr
  rw [← hk, ← hr]
  simp only [region, hf, Bool.false_eq_true, if_false]

/-- A switch marks where the caller's region starts and, for a coroutine on
    the block, hands the block over and restores the coroutine's region. -/
theorem mcoSwap_block {w w' : World} {t : Tid} {a b : McoRef} {sp : Nat} (hne : a ≠ b)
    (hlead : w.LeadsTo b) (hr : SwapReady w t a b) (h : w.mcoSwap t a b sp = .ok w') :
    Backed w' t none ∧ (w'.block t).Settled ∧ ∃ s, w.stack b = some s ∧
      ((s.isPrivate = true ∧ w'.block t = (w.block t).mark a sp) ∨
       (s.isPrivate = false ∧ w'.block t = (((w.block t).mark a sp).occupy b).restore b)) := by
  rcases mcoSwap_parts h with ⟨w1, w2, w3, back, h1, h2, h3, h4⟩
  rcases hr.target with ⟨rb, hrb, hstb, hentry⟩
  rcases saveSp_block h1 hr.backed hr.settled hr.caller with ⟨hblk1, hb1, hs1⟩
  have hsame1 := saveSp_sameControl h1
  have hrb1 : w1.co b = some rb := by
    rcases saveSp_ok h1 with ⟨s, _, rfl⟩
    exact hrb
  have hstk1 : w1.stack b = w.stack b := by
    rcases saveSp_ok h1 with ⟨s, _, rfl⟩
    simp only [setStack, Function.update_of_ne hne.symm]
  rcases occupy_block h2 hb1 hrb1 hstb with ⟨hb2, sb, hsb, hcase⟩
  have hsame2 := hsame1.trans (occupy_sameControl h2)
  -- The register switch writes a context; nothing of that concerns the block.
  rcases mcontextSwap_cases hne h3 with ⟨ra, rc, m, hra, _, hrc, hm, hsw⟩
  have hrcf : forget rc = forget rb := by
    have hc := ctl_of_co hrc
    rw [hsame2.ctl, ctl_of_co hrb] at hc
    injection hc with hc
    exact hc.symm
  have hstc : rc.start = true := by
    have : (forget rc).start = (forget rb).start := by rw [hrcf]
    exact this.trans hstb
  have hland : Backed w' t none ∧ w'.block t = (w2.block t).restore b := by
    rcases hsw with ⟨c, hc, rfl, rfl⟩ | ⟨x, _, rfl, rfl⟩
    · refine entered_block hb2 hra (fun k hk => ?_) h4
      have hmb : rb.coctx.ctx = some m := by
        have hcc : (forget rc).coctx = (forget rb).coctx := by rw [hrcf]
        exact (congrArg McoContext.ctx hcc).symm.trans hm
      -- The context leads to the callback of `b` itself.
      have hcb : c = b := by
        rcases hlead with ⟨r0, m0, hr0, hm0, hregs⟩
        rw [ctl_of_co hrb] at hr0
        injection hr0 with hr0
        rw [← hr0] at hm0
        have hmm : rb.coctx.ctx = some m0 := hm0
        rw [hmb] at hmm
        injection hmm with hmm
        rw [← hmm, hc] at hregs
        rcases hregs with he | he
        · injection he
        · cases he
      have hfb := hentry m hmb (by rw [hc, hcb])
      rcases hcase with ⟨_, rfl⟩ | ⟨_, hblk2⟩
      · exact client_unstored hrb1 hfb hk
      · have hk2 : ((w1.block t).occupy b).client b = some k := by
          rw [← hblk2]
          exact hk
        rw [Spill.Block.occupy_client, if_neg (fun hn => hn.2 rfl)] at hk2
        exact client_unstored hrb1 hfb hk2
    · refine recovered_block hne hb2 hra hrc hstc (by rw [hsame2.callstack]; exact hr.top)
        (fun k hk => ?_) h4
      -- After the first half `b`, if it is a client, has the block.
      rcases hcase with ⟨hp, rfl⟩ | ⟨_, hblk2⟩
      · rw [client_private hsb hp] at hk
        cases hk
      · have hholder : (w2.block t).holder = some b := by
          rw [hblk2, Spill.Block.occupy_holder]
        exact hholder
  rcases hland with ⟨hbk, hblk⟩
  rcases hcase with ⟨hp, rfl⟩ | ⟨hp, hblk2⟩
  · rw [restore_none (B := w2.block t) (client_private hsb hp)] at hblk
    rw [hstk1] at hsb
    exact ⟨hbk, by rw [hblk]; exact hs1, sb, hsb, Or.inl ⟨hp, hblk.trans hblk1⟩⟩
  · rw [hstk1] at hsb
    refine ⟨hbk, ?_, sb, hsb, Or.inr ⟨hp, by rw [hblk, hblk2, hblk1]⟩⟩
    rw [hblk]
    exact Spill.Block.restore_settled (by rw [hblk2, Spill.Block.occupy_holder])

/-- A switch loses nobody's bytes: every client but the caller owns what it
    owned before, and the caller what its region then held. -/
theorem mcoSwap_content {w w' : World} {t : Tid} {a b : McoRef} {sp : Nat} (hne : a ≠ b)
    (hlead : w.LeadsTo b) (hr : SwapReady w t a b) (h : w.mcoSwap t a b sp = .ok w') (c : McoRef) :
    (w'.block t).content c = ((w.block t).mark a sp).content c := by
  have hmark := Spill.Block.mark_fit hr.backed.fit hr.settled hr.caller sp
  rcases mcoSwap_block hne hlead hr h with ⟨_, _, s, _, ⟨_, hblk⟩ | ⟨_, hblk⟩⟩
  · rw [hblk]
  · rw [hblk, Spill.Block.restore_content (Spill.Block.occupy_fit hmark.1)
      (Spill.Block.occupy_holder _ _), Spill.Block.occupy_content hmark.2]

end World

end Fasco
