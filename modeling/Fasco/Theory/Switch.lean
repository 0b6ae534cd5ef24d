import Fasco.Core.Op

/-!
# The Switch

What one `McoSwap` does, said once. Each of its parts has a lemma that lists
its outcomes (`occupy_cases`, `mcontextSwap_cases`, `swapTail_cases`), and the
lemmas after them read off what the parts leave alone.

Two views of the state keep later arguments apart. The control view of a
coroutine, `ctl`, is its record without the flag `stack_store`: the
bookkeeping of the common block never changes it, so everything about who
runs and who waits is stated over it. The shape of a stack, `shape`, is what
is fixed when the stack is made: which block it is and whether it is shared.

`mcoSwap_handover` is the summary. When the code of `sink` calls
`McoSwap(sink, co)` and `co`'s context leads into `co`'s own code, the calling
code is parked in `sink`'s context, `co` is what the thread executes, and no
other coroutine's control view changes.

## Main definitions

* `forget`, `World.ctl`: The control view of a coroutine.
* `World.shape`: The fixed part of a coroutine's stack.
* `parked`: A coroutine whose code has been saved by the switch.
* `called`: A coroutine whose callback has been called once more.
* `World.LeadsTo`: A coroutine's context leads into its own code.

## Theorems

* `occupy_cases`, `mcontextSwap_cases`, `swapTail_cases`: The outcomes of the
  parts of `McoSwap`.
* `mcoSwap_parts`: A switch that returns is its parts, each returning.
* `saveSp_sameControl`, `occupy_sameControl`, `swapTail_sameControl`: The
  bookkeeping leaves control, call stacks and shapes alone.
* `mcoSwap_handover`: Control passes from the caller to the target.
-/

namespace Fasco

/-- A coroutine's record without the flag the common block's bookkeeping
    uses. -/
def forget (r : McoRoutine) : McoRoutine := { r with stackStore := false }

namespace World

/-- The control view of a coroutine. -/
def ctl (w : World) (c : McoRef) : Option McoRoutine := (w.co c).map forget

/-- Where a coroutine's stack is, and whether it is shared. -/
def shape (w : World) (c : McoRef) : Option (Nat × Nat × Nat × Bool) :=
  (w.stack c).map (fun s => (s.stack, s.size, s.stackBp, s.isPrivate))

/-! ### The views under single updates -/

/-- The control view follows a record, and no other part of the state. -/
@[simp] theorem setCo_ctl (w : World) (c : McoRef) (r : McoRoutine) :
    (w.setCo c r).ctl = Function.update w.ctl c (some (forget r)) := by
  funext d
  by_cases hd : d = c
  · rw [hd]
    simp only [ctl, setCo, Function.update_self, Option.map_some]
  · simp only [ctl, setCo, Function.update_of_ne hd]

@[simp] theorem setStack_ctl (w : World) (c : McoRef) (s : McoStack) :
    (w.setStack c s).ctl = w.ctl := rfl

@[simp] theorem setCallstack_ctl (w : World) (t : Tid) (s : McoCallStack) :
    (w.setCallstack t s).ctl = w.ctl := rfl

@[simp] theorem setExec_ctl (w : World) (t : Tid) (x : Option McoRef) :
    (w.setExec t x).ctl = w.ctl := rfl

/-- A new coroutine in the control view. -/
theorem mcoCreate_ctl (w : World) (c : McoRef) (p : Bool) :
    (w.mcoCreate c p).ctl = Function.update w.ctl c (some
      { coctx := { ctx := none, coruns := 0 }, sink := none, stackMgr := none,
        usePrivate := p, isMain := false, inCallstack := false, shouldClose := false,
        start := false, running := false, done := false, doneYield := false,
        stackStore := false }) := by
  funext d
  by_cases hd : d = c
  · rw [hd]
    simp only [ctl, mcoCreate, Function.update_self, Option.map_some, forget]
  · simp only [ctl, mcoCreate, Function.update_of_ne hd]

/-- A stack record may change in the fields that are not in its shape. -/
theorem setStack_shape (w : World) (c : McoRef) (s s' : McoStack) (h : w.stack c = some s)
    (hs : (s'.stack, s'.size, s'.stackBp, s'.isPrivate)
      = (s.stack, s.size, s.stackBp, s.isPrivate)) :
    (w.setStack c s').shape = w.shape := by
  funext d
  by_cases hd : d = c
  · rw [hd]
    simp only [shape, setStack, Function.update_self, Option.map_some, h, hs]
  · simp only [shape, setStack, Function.update_of_ne hd]

/-- What is in the state is in the view. -/
theorem ctl_of_co {w : World} {c : McoRef} {r : McoRoutine} (h : w.co c = some r) :
    w.ctl c = some (forget r) := by
  rw [ctl, h, Option.map_some]

/-- What is in the view is in the state. -/
theorem co_of_ctl {w : World} {c : McoRef} {r : McoRoutine} (h : w.ctl c = some r) :
    ∃ r', w.co c = some r' ∧ forget r' = r := by
  rw [ctl] at h
  exact Option.map_eq_some_iff.mp h

/-- Both have the same coroutines. -/
theorem ctl_isSome (w : World) (c : McoRef) : (w.ctl c).isSome = (w.co c).isSome := by
  rw [ctl, Option.isSome_map]

theorem ctl_eq_none {w : World} {c : McoRef} : w.ctl c = none ↔ w.co c = none := by
  rw [ctl, Option.map_eq_none_iff]

/-! ### The outcomes of the parts -/

/-- The first assignment of `McoSwap`, if it does not fault. -/
theorem saveSp_ok {w w' : World} {c : McoRef} {sp : Nat} (h : w.saveSp c sp = .ok w') :
    ∃ s, w.stack c = some s ∧ w' = w.setStack c { s with stackSp := sp } := by
  unfold saveSp at h
  cases hs : w.stack c with
  | none =>
      rw [hs] at h
      cases h
  | some s =>
      rw [hs] at h
      injection h with h
      exact ⟨s, rfl, h.symm⟩

/-- What happens to the common block before a switch to `co`: nothing if `co`
    has its own stack; otherwise `co` becomes the occupant, and the old one is
    copied out if there is one other than `co` that has not finished. -/
theorem occupy_cases {w w' : World} {t : Tid} {co : McoRef} (h : w.occupy t co = .ok w') :
    ∃ s, w.stack co = some s ∧
      ((s.isPrivate = true ∧ w' = w) ∨
       (s.isPrivate = false ∧ w' = w.setCommonOccupy t (some co) ∧
          ∀ o, (w.mgr t).commonOccupy = some o → o ≠ co →
            ∃ r, w.co o = some r ∧ r.finished = true) ∨
       (s.isPrivate = false ∧ ∃ o r so, (w.mgr t).commonOccupy = some o ∧ o ≠ co ∧
          w.co o = some r ∧ r.finished = false ∧ w.stack o = some so ∧
          w' = ((w.setCommonOccupy t (some co)).setCo o { r with stackStore := true }).setStack o
            (storeUsedCommonStack w.mem so))) := by
  unfold occupy at h
  cases hs : w.stack co with
  | none =>
      rw [hs] at h
      cases h
  | some s =>
      rw [hs] at h
      refine ⟨s, rfl, ?_⟩
      simp only [] at h
      cases hp : s.isPrivate with
      | true =>
          rw [hp, if_pos rfl] at h
          injection h with h
          exact Or.inl ⟨rfl, h.symm⟩
      | false =>
          right
          rw [hp, if_neg (by decide)] at h
          cases ho : (w.mgr t).commonOccupy with
          | none =>
              rw [ho] at h
              injection h with h
              refine Or.inl ⟨rfl, h.symm, ?_⟩
              intro o hoo
              cases hoo
          | some o =>
              rw [ho] at h
              simp only [] at h
              by_cases hoc : o = co
              · rw [if_pos hoc] at h
                injection h with h
                refine Or.inl ⟨rfl, h.symm, ?_⟩
                intro o' hoo hne
                injection hoo with hoo
                exact absurd (hoo ▸ hoc) hne
              -- Another coroutine has the block. It is copied out unless it has ended.
              · rw [if_neg hoc] at h
                cases hr : w.co o with
                | none =>
                    rw [hr] at h
                    cases h
                | some r =>
                    rw [hr] at h
                    simp only [] at h
                    cases hf : r.finished with
                    | true =>
                        rw [hf, if_pos rfl] at h
                        injection h with h
                        refine Or.inl ⟨rfl, h.symm, ?_⟩
                        intro o' hoo _
                        injection hoo with hoo
                        exact ⟨r, by rw [← hoo]; exact hr, hf⟩
                    | false =>
                        rw [hf, if_neg (by decide)] at h
                        cases hso : w.stack o with
                        | none =>
                            rw [hso] at h
                            cases h
                        | some so =>
                            rw [hso] at h
                            injection h with h
                            exact Or.inr ⟨rfl, o, r, so, rfl, hoc, hr, hf, hso, h.symm⟩

/-- A coroutine whose context holds a saved position of `x`'s code. -/
def parked (x : Option McoRef) (r : McoRoutine) : McoRoutine :=
  { r with coctx :=
    { r.coctx with ctx := r.coctx.ctx.map (fun m => { m with regs := .inSwap x }) } }

/-- A coroutine whose callback has been called once more. -/
def called (r : McoRoutine) : McoRoutine :=
  { r with coctx := { r.coctx with coruns := r.coctx.coruns + 1 } }

/-- The register switch: the caller's position goes into `sink`'s context and
    the thread goes on where `co`'s context then points. -/
theorem mcontextSwap_outcome {w w' : World} {t : Tid} {sink co : McoRef} {back : Bool}
    (h : w.mcontextSwap t sink co = .ok (w', back)) :
    ∃ rs rc m, w.co sink = some rs ∧ rs.coctx.ctx.isSome ∧
      (w.setCo sink (parked (w.exec t) rs)).co co = some rc ∧ rc.coctx.ctx = some m ∧
      ((∃ c, m.regs = .entry c ∧ back = false ∧
          w' = (w.setCo sink (parked (w.exec t) rs)).setExec t (some c)) ∨
       (∃ x, m.regs = .inSwap x ∧ back = true ∧
          w' = (w.setCo sink (parked (w.exec t) rs)).setExec t x)) := by
  unfold mcontextSwap at h
  cases hrs : w.co sink with
  | none =>
      rw [hrs] at h
      cases h
  | some rs =>
      rw [hrs] at h
      simp only [] at h
      cases hms : rs.coctx.ctx with
      | none =>
          rw [hms] at h
          cases h
      | some ms =>
          rw [hms] at h
          simp only [] at h
          -- The position saved is that of the code executing, whatever `sink` is.
          have hpark : { rs with coctx := { rs.coctx with
                    ctx := some { ms with regs := .inSwap (w.exec t) } } }
              = parked (w.exec t) rs := by
            simp only [parked, hms, Option.map_some]
          rw [hpark] at h
          cases hrc : (w.setCo sink (parked (w.exec t) rs)).co co with
          | none =>
              rw [hrc] at h
              cases h
          | some rc =>
              rw [hrc] at h
              simp only [] at h
              cases hm : rc.coctx.ctx with
              | none =>
                  rw [hm] at h
                  cases h
              | some m =>
                  rw [hm] at h
                  simp only [] at h
                  refine ⟨rs, rc, m, rfl, by rw [hms]; rfl, hrc, hm, ?_⟩
                  cases hregs : m.regs with
                  | zero =>
                      rw [hregs] at h
                      cases h
                  | entry c =>
                      rw [hregs] at h
                      injection h with h
                      injection h with h1 h2
                      exact Or.inl ⟨c, rfl, h2.symm, h1.symm⟩
                  | inSwap x =>
                      rw [hregs] at h
                      injection h with h
                      injection h with h1 h2
                      exact Or.inr ⟨x, rfl, h2.symm, h1.symm⟩

/-- Between two different coroutines, the context loaded is the one `co` had
    before. -/
theorem mcontextSwap_cases {w w' : World} {t : Tid} {sink co : McoRef} {back : Bool}
    (hne : sink ≠ co) (h : w.mcontextSwap t sink co = .ok (w', back)) :
    ∃ rs rc m, w.co sink = some rs ∧ rs.coctx.ctx.isSome ∧ w.co co = some rc ∧
      rc.coctx.ctx = some m ∧
      ((∃ c, m.regs = .entry c ∧ back = false ∧
          w' = (w.setCo sink (parked (w.exec t) rs)).setExec t (some c)) ∨
       (∃ x, m.regs = .inSwap x ∧ back = true ∧
          w' = (w.setCo sink (parked (w.exec t) rs)).setExec t x)) := by
  rcases mcontextSwap_outcome h with ⟨rs, rc, m, hrs, hctx, hrc, hm, hcase⟩
  simp only [setCo, Function.update_of_ne hne.symm] at hrc
  exact ⟨rs, rc, m, hrs, hctx, hrc, hm, hcase⟩

/-- The recovery step does nothing, or clears `stack_store` of the topmost
    coroutine and copies its stack back. -/
theorem swapTail_cases {w w' : World} {t : Tid} (h : w.swapTail t = .ok w') :
    ((w.callstack t).getCurMco = none ∧ w' = w) ∨
    (∃ c s r, (w.callstack t).getCurMco = some c ∧ w.stack c = some s ∧ w.co c = some r ∧
      (((s.isPrivate = true ∨ r.stackStore = false) ∧ w' = w) ∨
       (s.isPrivate = false ∧ r.stackStore = true ∧
         ∃ mem, recoverUsedCommonStack w.mem s = .ok mem ∧
           w' = { w.setCo c { r with stackStore := false } with mem := mem }))) := by
  unfold swapTail at h
  cases hc : (w.callstack t).getCurMco with
  | none =>
      rw [hc] at h
      injection h with h
      exact Or.inl ⟨rfl, h.symm⟩
  | some c =>
      right
      rw [hc] at h
      simp only [] at h
      cases hs : w.stack c with
      | none =>
          rw [hs] at h
          cases h
      | some s =>
          cases hr : w.co c with
          | none =>
              rw [hs, hr] at h
              cases h
          | some r =>
              rw [hs, hr] at h
              simp only [] at h
              refine ⟨c, s, r, rfl, hs, hr, ?_⟩
              -- Only a common stack that has been copied out is copied back.
              cases hb : (!s.isPrivate && r.stackStore) with
              | false =>
                  rw [hb, if_neg (by decide)] at h
                  injection h with h
                  refine Or.inl ⟨?_, h.symm⟩
                  simpa only [Bool.and_eq_false_iff, Bool.not_eq_false'] using hb
              | true =>
                  rw [hb, if_pos rfl] at h
                  right
                  simp only [Bool.and_eq_true, Bool.not_eq_true'] at hb
                  cases hm : recoverUsedCommonStack w.mem s with
                  | error e =>
                      rw [hm] at h
                      cases h
                  | ok mem =>
                      rw [hm] at h
                      injection h with h
                      exact ⟨hb.1, hb.2, mem, rfl, h.symm⟩

/-- The call of a callback, if it does not fault. -/
theorem enterCallback_ok {w w' : World} {t : Tid} {c : McoRef} (hx : w.exec t = some c)
    (h : w.enterCallback t = .ok w') : ∃ r, w.co c = some r ∧ w' = w.setCo c (called r) := by
  unfold enterCallback at h
  rw [hx] at h
  simp only [] at h
  cases hr : w.co c with
  | none =>
      rw [hr] at h
      cases h
  | some r =>
      rw [hr] at h
      injection h with h
      exact ⟨r, rfl, h.symm⟩

/-- A switch that returns is its parts, each returning. -/
theorem mcoSwap_parts {w w' : World} {t : Tid} {sink co : McoRef} {sp : Nat}
    (h : w.mcoSwap t sink co sp = .ok w') :
    ∃ w1 w2 w3 back, w.saveSp sink sp = .ok w1 ∧ w1.occupy t co = .ok w2 ∧
      w2.mcontextSwap t sink co = .ok (w3, back) ∧ w3.land t back = .ok w' := by
  unfold mcoSwap at h
  rcases (Fallible.bind_eq_ok_iff _ _ _).mp h with ⟨w1, h1, h⟩
  rcases (Fallible.bind_eq_ok_iff _ _ _).mp h with ⟨w2, h2, h⟩
  rcases (Fallible.bind_eq_ok_iff _ _ _).mp h with ⟨⟨w3, back⟩, h3, h⟩
  exact ⟨w1, w2, w3, back, h1, h2, h3, h⟩

/-! ### What the parts leave alone -/

/-- Two states with the same control view, call stacks, running code and
    stack shapes: they differ in the bookkeeping of the common blocks and in
    memory only. -/
structure SameControl (w w' : World) : Prop where
  ctl : w'.ctl = w.ctl
  callstack : w'.callstack = w.callstack
  exec : w'.exec = w.exec
  shape : w'.shape = w.shape
  block : ∀ t, (w'.mgr t).commonStack = (w.mgr t).commonStack ∧
    (w'.mgr t).commonSize = (w.mgr t).commonSize

theorem SameControl.refl (w : World) : SameControl w w :=
  ⟨rfl, rfl, rfl, rfl, fun _ => ⟨rfl, rfl⟩⟩

theorem SameControl.trans {a b c : World} (h1 : SameControl a b) (h2 : SameControl b c) :
    SameControl a c where
  ctl := h2.ctl.trans h1.ctl
  callstack := h2.callstack.trans h1.callstack
  exec := h2.exec.trans h1.exec
  shape := h2.shape.trans h1.shape
  block := fun t => ⟨(h2.block t).1.trans (h1.block t).1, (h2.block t).2.trans (h1.block t).2⟩

/-- Who has the block is no matter of control. -/
theorem setCommonOccupy_sameControl (w : World) (t : Tid) (o : Option McoRef) :
    SameControl w (w.setCommonOccupy t o) := by
  refine ⟨rfl, rfl, rfl, rfl, fun u => ?_⟩
  by_cases hu : u = t
  · rw [hu]
    simp only [setCommonOccupy, Function.update_self, and_self]
  · simp only [setCommonOccupy, Function.update_of_ne hu, and_self]

/-- Copying out leaves the shape of the stack. -/
theorem storeUsedCommonStack_shape (mem : Nat → UInt8) (s : McoStack) :
    ((storeUsedCommonStack mem s).stack, (storeUsedCommonStack mem s).size,
      (storeUsedCommonStack mem s).stackBp, (storeUsedCommonStack mem s).isPrivate)
      = (s.stack, s.size, s.stackBp, s.isPrivate) := by
  unfold storeUsedCommonStack
  split <;> rfl

/-- The control view forgets `stack_store`. -/
theorem setStackStore_ctl (w : World) (c : McoRef) (r : McoRoutine) (b : Bool)
    (h : w.co c = some r) : (w.setCo c { r with stackStore := b }).ctl = w.ctl := by
  rw [setCo_ctl]
  have hr : forget { r with stackStore := b } = forget r := rfl
  rw [hr, ← ctl_of_co h, Function.update_eq_self]

/-- The three parts of `McoSwap` around the switch change nothing in control. -/
theorem saveSp_sameControl {w w' : World} {c : McoRef} {sp : Nat}
    (h : w.saveSp c sp = .ok w') : SameControl w w' := by
  rcases saveSp_ok h with ⟨s, hs, rfl⟩
  exact ⟨rfl, rfl, rfl, setStack_shape w c s _ hs rfl, fun _ => ⟨rfl, rfl⟩⟩

theorem occupy_sameControl {w w' : World} {t : Tid} {co : McoRef}
    (h : w.occupy t co = .ok w') : SameControl w w' := by
  rcases occupy_cases h with ⟨s, _, ⟨_, rfl⟩ | ⟨_, rfl, _⟩ | ⟨_, o, r, so, _, _, hr, _, hso, rfl⟩⟩
  · exact SameControl.refl _
  · exact setCommonOccupy_sameControl _ _ _
  -- Copying out changes a flag that the control view forgets, and the copy.
  · refine (setCommonOccupy_sameControl w t (some co)).trans ?_
    refine ⟨?_, rfl, rfl, ?_, fun _ => ⟨rfl, rfl⟩⟩
    · rw [setStack_ctl]
      exact setStackStore_ctl (w.setCommonOccupy t (some co)) o r true hr
    · exact setStack_shape _ o so _ hso (storeUsedCommonStack_shape _ _)

theorem swapTail_sameControl {w w' : World} {t : Tid} (h : w.swapTail t = .ok w') :
    SameControl w w' := by
  rcases swapTail_cases h with ⟨_, rfl⟩ | ⟨c, s, r, _, _, hr, ⟨_, rfl⟩ | ⟨_, _, mem, _, rfl⟩⟩
  · exact SameControl.refl _
  · exact SameControl.refl _
  · exact ⟨setStackStore_ctl w c r false hr, rfl, rfl, rfl, fun _ => ⟨rfl, rfl⟩⟩

/-! ### The switch as a whole -/

/-- `co`'s context leads into `co`'s own code: to the start of its callback,
    or to where it last gave up control. -/
def LeadsTo (w : World) (co : McoRef) : Prop :=
  ∃ r m, w.ctl co = some r ∧ r.coctx.ctx = some m ∧
    (m.regs = .entry co ∨ m.regs = .inSwap (some co))

theorem forget_parked (x : Option McoRef) (r : McoRoutine) :
    forget (parked x r) = parked x (forget r) := rfl

theorem forget_called (r : McoRoutine) : forget (called r) = called (forget r) := rfl

/-- What a switch does to control. `a` is the coroutine whose code called
    `McoSwap(a, b)`. -/
structure Handover (w w' : World) (t : Tid) (a b : McoRef) : Prop where
  callstack : w'.callstack = w.callstack
  exec : w'.exec = Function.update w.exec t (some b)
  ctl_other : ∀ c, c ≠ a → c ≠ b → w'.ctl c = w.ctl c
  ctl_from : ∃ r, w.ctl a = some r ∧ w'.ctl a = some (parked (some a) r)
  ctl_to : ∃ r m, w.ctl b = some r ∧ r.coctx.ctx = some m ∧
    ((m.regs = .entry b ∧ w'.ctl b = some (called r)) ∨
     (m.regs = .inSwap (some b) ∧ w'.ctl b = some r))
  shape : w'.shape = w.shape
  block : ∀ u, (w'.mgr u).commonStack = (w.mgr u).commonStack ∧
    (w'.mgr u).commonSize = (w.mgr u).commonSize

/-- The switch hands control from the code that called it to the coroutine
    it names. -/
theorem mcoSwap_handover {w w' : World} {t : Tid} {a b : McoRef} {sp : Nat}
    (h : w.mcoSwap t a b sp = .ok w') (hne : a ≠ b) (hx : w.exec t = some a)
    (hlead : w.LeadsTo b) :
    Handover w w' t a b := by
  rcases mcoSwap_parts h with ⟨w1, w2, w3, back, h1, h2, h3, h4⟩
  have hsame : SameControl w w2 := (saveSp_sameControl h1).trans (occupy_sameControl h2)
  have hx2 : w2.exec t = some a := by rw [hsame.exec]; exact hx
  rcases mcontextSwap_cases hne h3 with ⟨rs, rc, m, hrs, hctx, hrc, hm, hcase⟩
  rcases hlead with ⟨r, m', hr, hm', hregs⟩
  -- The record the switch reads is the one the hypothesis speaks of.
  have hrr : forget rc = r := by
    have hc := ctl_of_co hrc
    rw [hsame.ctl, hr] at hc
    injection hc with hc
    exact hc.symm
  have hmm : m = m' := by
    rw [← hrr] at hm'
    have : rc.coctx.ctx = some m' := hm'
    rw [hm] at this
    injection this
  -- What the parts before the switch have changed does not show in the control view.
  have hfrom : w.ctl a = some (forget rs) := by
    rw [← hsame.ctl]
    exact ctl_of_co hrs
  rw [hx2] at hcase
  have hmid : ∀ x, ((w2.setCo a (parked (some a) rs)).setExec t x).ctl
      = Function.update w.ctl a (some (parked (some a) (forget rs))) := by
    intro x
    rw [setExec_ctl, setCo_ctl, hsame.ctl, forget_parked]
  rcases hcase with ⟨c, hc, rfl, rfl⟩ | ⟨x, hxx, rfl, rfl⟩
  · -- The callback starts.
    have hcb : c = b := by
      rw [hmm] at hc
      rcases hregs with hb | hb
      · rw [hb] at hc
        injection hc with hc
        exact hc.symm
      · rw [hb] at hc
        cases hc
    rw [hcb] at h4
    have h4' : ((w2.setCo a (parked (some a) rs)).setExec t (some b)).enterCallback t = .ok w' := h4
    have hx3 : ((w2.setCo a (parked (some a) rs)).setExec t (some b)).exec t = some b := by
      simp only [setExec, Function.update_self]
    rcases enterCallback_ok hx3 h4' with ⟨r', hr', rfl⟩
    have hr'' : forget r' = r := by
      have hc' := ctl_of_co hr'
      rw [hmid, Function.update_of_ne hne.symm, hr] at hc'
      injection hc' with hc'
      exact hc'.symm
    refine ⟨hsame.callstack, ?_, ?_, ⟨forget rs, hfrom, ?_⟩, ⟨r, m', hr, hm', Or.inl ⟨?_, ?_⟩⟩,
      hsame.shape, hsame.block⟩
    · change Function.update w2.exec t (some b) = _
      rw [hsame.exec]
    · intro d hda hdb
      rw [setCo_ctl, Function.update_of_ne hdb, hmid, Function.update_of_ne hda]
    · rw [setCo_ctl, Function.update_of_ne hne, hmid, Function.update_self]
    · rw [← hmm, hc, hcb]
    · rw [setCo_ctl, Function.update_self, forget_called, hr'']
  · -- The coroutine goes on inside `McoSwap`.
    have hxb : x = some b := by
      rw [hmm] at hxx
      rcases hregs with hb | hb
      · rw [hb] at hxx
        cases hxx
      · rw [hb] at hxx
        injection hxx with hxx
        exact hxx.symm
    rw [hxb] at h4
    have h4' : ((w2.setCo a (parked (some a) rs)).setExec t (some b)).swapTail t = .ok w' := h4
    have htail := swapTail_sameControl h4'
    refine ⟨htail.callstack.trans hsame.callstack, ?_, ?_, ⟨forget rs, hfrom, ?_⟩,
      ⟨r, m', hr, hm', Or.inr ⟨?_, ?_⟩⟩, htail.shape.trans hsame.shape, fun u => ?_⟩
    · rw [htail.exec]
      change Function.update w2.exec t (some b) = _
      rw [hsame.exec]
    · intro d hda hdb
      rw [htail.ctl, hmid, Function.update_of_ne hda]
    · rw [htail.ctl, hmid, Function.update_self]
    · rw [← hmm, hxx, hxb]
    · rw [htail.ctl, hmid, Function.update_of_ne hne.symm, hr]
    · exact ⟨(htail.block u).1.trans (hsame.block u).1, (htail.block u).2.trans (hsame.block u).2⟩

end World

end Fasco
