import Fasco.Theory.Switch

/-!
# Transitions of the Call Stack

The operations that move control do one of three things to a thread's call
stack: they put the main coroutine on an empty one, push a coroutine on top
of the running one, or take the running one off. This file says what each
does to the control view and which operation does which.

`Booted`, `Pushed` and `Popped` are the three effects. `mcoResume_cases`,
`mcoYield_cases` and `coroutineRun_cases` are the inversion lemmas: a call
that returns has changed nothing, or has gone through one of the effects. The
invariants of the later files are proved from these and never unfold an
operation again.

## Main definitions

* `mainRecord`: The coroutine `MainMco` makes.
* `Resumed`, `Yielded`: What a coroutine's record is after it has been
  switched to from below, and after it has given up control.
* `Booted`, `Pushed`, `Popped`: The three effects on the call stack.

## Theorems

* `mainMco_booted`: What `MainMco` does on an empty call stack.
* `pushCallstack_pushed`: What the pushing branch of `McoResume` does.
* `mcoYield_popped`: What a `McoYield` of the running coroutine does.
* `mcoResume_cases`, `mcoYield_cases`, `coroutineRun_cases`, `mcoFree_cases`:
  The outcomes of the operations.
-/

namespace Fasco

/-! ### Slots -/

namespace McoCallStack

theorem push_slot (s : McoCallStack) (c : McoRef) (i : Nat) :
    (s.push c).slot i = if i = s.index then some c else s.slot i := by
  unfold slot push put
  by_cases hi : i = s.index
  · rw [if_pos hi, hi]
    simp only [Function.update_self, Option.join_some]
  · rw [if_neg hi]
    simp only [Function.update_of_ne hi]

@[simp] theorem push_index (s : McoCallStack) (c : McoRef) : (s.push c).index = s.index + 1 := rfl

theorem push_fromTop_one (s : McoCallStack) (c : McoRef) : (s.push c).fromTop 1 = some c := by
  unfold fromTop
  rw [push_index, if_pos (by omega), push_slot, if_pos (by omega)]

theorem push_fromTop_two (s : McoCallStack) (c : McoRef) :
    (s.push c).fromTop 2 = s.fromTop 1 := by
  unfold fromTop
  by_cases h : 1 ≤ s.index
  · rw [push_index, if_pos (by omega), if_pos h, push_slot, if_neg (by omega),
      show s.index + 1 - 2 = s.index - 1 by omega]
  · rw [push_index, if_neg (by omega), if_neg h]

theorem fromTop_some {s : McoCallStack} {k : Nat} {c : McoRef} (h : s.fromTop k = some c) :
    k ≤ s.index ∧ s.slot (s.index - k) = some c := by
  unfold fromTop at h
  by_cases hk : k ≤ s.index
  · rw [if_pos hk] at h
    exact ⟨hk, h⟩
  · rw [if_neg hk] at h
    cases h

/-- The call stack with its topmost entry taken off; the entry stays in the
    map, above the index. -/
def pop (s : McoCallStack) : McoCallStack := { s with index := s.index - 1 }

theorem pop_fromTop_one {s : McoCallStack} {c : McoRef} (h : s.fromTop 2 = some c) :
    s.pop.fromTop 1 = some c := by
  rcases fromTop_some h with ⟨hk, hs⟩
  unfold fromTop pop
  simp only []
  rw [if_pos (by omega), show s.index - 1 - 1 = s.index - 2 by omega]
  exact hs

end McoCallStack

/-! ### The effects -/

/-- The coroutine `MainMco` makes on thread `t`, at address `m`. -/
def mainRecord (t : Tid) (m : McoRef) (size sp : Nat) : McoRoutine :=
  { coctx := { ctx := some { regs := .entry m, ssSize := size, ssSp := sp }, coruns := 0 },
    sink := none, stackMgr := some t, usePrivate := true, isMain := true, inCallstack := true,
    shouldClose := false, start := true, running := true, done := false, doneYield := false,
    stackStore := false }

/-- `r'` is `r` after the coroutine has been put on top of `cur` on thread `t`
    and switched to. -/
structure Resumed (t : Tid) (cur : McoRef) (r r' : McoRoutine) : Prop where
  running : r'.running = true
  sink : r'.sink = some cur
  start : r'.start = true
  done : r'.done = r.done
  doneYield : r'.doneYield = r.doneYield
  isMain : r'.isMain = r.isMain
  shouldClose : r'.shouldClose = r.shouldClose
  usePrivate : r'.usePrivate = r.usePrivate
  ctx : r'.coctx.ctx.isSome
  coruns : r'.coctx.coruns = r.coctx.coruns + if r.start then 0 else 1
  stackMgr : r'.stackMgr = if r.start then r.stackMgr else some t

/-- `r'` is `r` after the code of `c` has given up control through `McoYield`;
    a finished callback gives it up for good. -/
structure Yielded (c : McoRef) (r r' : McoRoutine) : Prop where
  running : r'.running = false
  sink : r'.sink = r.sink
  start : r'.start = if r.done then false else r.start
  done : r'.done = r.done
  doneYield : r'.doneYield = if r.done then true else r.doneYield
  isMain : r'.isMain = r.isMain
  shouldClose : r'.shouldClose = r.shouldClose
  usePrivate : r'.usePrivate = r.usePrivate
  ctx : ∃ m, r'.coctx.ctx = some m ∧ m.regs = .inSwap (some c)
  coruns : r'.coctx.coruns = r.coctx.coruns
  stackMgr : r'.stackMgr = r.stackMgr

/-- Giving up control, for good or not, leaves the context alone. -/
theorem McoRoutine.giveUp_coctx (r : McoRoutine) : r.giveUp.coctx = r.coctx := by
  unfold McoRoutine.giveUp McoRoutine.endDone
  by_cases hd : r.done = true
  · rw [if_pos hd]
  · rw [if_neg hd]

theorem McoRoutine.giveUp_stackMgr (r : McoRoutine) : r.giveUp.stackMgr = r.stackMgr := by
  unfold McoRoutine.giveUp McoRoutine.endDone
  by_cases hd : r.done = true
  · rw [if_pos hd]
  · rw [if_neg hd]

theorem McoRoutine.giveUp_shouldClose (r : McoRoutine) :
    r.giveUp.shouldClose = r.shouldClose := by
  unfold McoRoutine.giveUp McoRoutine.endDone
  by_cases hd : r.done = true
  · rw [if_pos hd]
  · rw [if_neg hd]

/-- The record `CoroutineRun` leaves for `McoYield` when a callback ends. -/
def McoRoutine.ending (r : McoRoutine) (ended : Bool) : McoRoutine :=
  { r with done := r.done || ended }

namespace World

/-- The main coroutine `m` has been put on the empty call stack of `t`. -/
structure Booted (w w' : World) (t : Tid) (m : McoRef) : Prop where
  empty : (w.callstack t).index = 0
  callstack : w'.callstack = Function.update w.callstack t ((w.callstack t).push m)
  exec : w'.exec = Function.update w.exec t (some m)
  ctl : ∃ size sp, w'.ctl = Function.update w.ctl m (some (mainRecord t m size sp))
  shape : ∀ d, d ≠ m → w'.shape d = w.shape d
  shape_main : ∃ a b e, w'.shape m = some (a, b, e, true)
  mgr : w'.mgr = w.mgr
  mem : w'.mem = w.mem

/-- `c` has been put on top of `cur` on thread `t` and switched to. -/
structure Pushed (w w' : World) (t : Tid) (cur c : McoRef) : Prop where
  ne : cur ≠ c
  callstack : w'.callstack = Function.update w.callstack t ((w.callstack t).push c)
  exec : w'.exec = Function.update w.exec t (some c)
  ctl_other : ∀ d, d ≠ cur → d ≠ c → w'.ctl d = w.ctl d
  ctl_from : ∃ r, w.ctl cur = some r ∧
    w'.ctl cur = some (parked (some cur) { r with running := false })
  ctl_to : ∃ r r', w.ctl c = some r ∧ w'.ctl c = some r' ∧ Resumed t cur r r'
  shape : ∀ d, (d ≠ c ∨ ∃ r, w.ctl c = some r ∧ r.start = true) → w'.shape d = w.shape d
  shape_new : ∀ r, w.ctl c = some r → r.start = false →
    (r.usePrivate = true ∧ ∃ a b e, w'.shape c = some (a, b, e, true)) ∨
    (r.usePrivate = false ∧ w'.shape c = some ((w.mgr t).commonStack, (w.mgr t).commonSize,
      (w.mgr t).commonStack + (w.mgr t).commonSize, false))
  block : ∀ u, (w'.mgr u).commonStack = (w.mgr u).commonStack ∧
    (w'.mgr u).commonSize = (w.mgr u).commonSize

/-- The running coroutine `c` has been taken off the call stack of `t`,
    because it yielded or, with `ended`, because its callback ended, and
    control is back with `s`, which resumed it. -/
structure Popped (w w' : World) (t : Tid) (c s : McoRef) (ended : Bool) : Prop where
  ne : c ≠ s
  callstack : w'.callstack = Function.update w.callstack t (w.callstack t).pop
  exec : w'.exec = Function.update w.exec t (some s)
  below : (w.callstack t).fromTop 2 = some s
  ctl_other : ∀ d, d ≠ c → d ≠ s → w'.ctl d = w.ctl d
  ctl_from : ∃ r r', w.ctl c = some r ∧ r.sink = some s ∧ w'.ctl c = some r' ∧
    Yielded c (r.ending ended) r'
  ctl_to : ∃ r, w.ctl s = some r ∧ w'.ctl s = some { r with running := true }
  shape : w'.shape = w.shape
  block : ∀ u, (w'.mgr u).commonStack = (w.mgr u).commonStack ∧
    (w'.mgr u).commonSize = (w.mgr u).commonSize

/-! ### Which operation has which effect -/

theorem mainMco_of_nonempty {w : World} {t : Tid} {e : CallSite}
    (h : (w.callstack t).index ≠ 0) : (w.mainMco t e).1 = w := by
  simp only [mainMco, if_neg h]

/-- `if (index == 0) MainMco();` is a call of `MainMco`. -/
theorem mainMco_ensured (w : World) (t : Tid) (e : CallSite) :
    (if (w.callstack t).index = 0 then (w.mainMco t e).1 else w) = (w.mainMco t e).1 := by
  by_cases h0 : (w.callstack t).index = 0
  · rw [if_pos h0]
  · rw [if_neg h0, mainMco_of_nonempty h0]

/-- On an empty call stack `MainMco` makes a coroutine with a private stack,
    puts it on the call stack, and the code that called it is its code. -/
theorem mainMco_eq {w : World} {t : Tid} {e : CallSite} (h : (w.callstack t).index = 0) :
    (w.mainMco t e).1 =
      { w with
        co := Function.update w.co e.main
          (some (mainRecord t e.main (w.mgr t).privateSize e.mainBlk))
        stack := Function.update w.stack e.main
          (some ((w.mgr t).createPrivateMcoStack e.mainBlk))
        callstack := Function.update w.callstack t ((w.callstack t).push e.main)
        exec := Function.update w.exec t (some e.main) } := by
  simp only [mainMco, h, if_true, mcoCreate, initMcoContext, Function.update_self, setStack, setCo,
    Option.isSome_some, setExec, setCallstack, madeContext, mcontextMake, Option.map_some,
    Function.update_idem, McoStackManager.createPrivateMcoStack, mainRecord]

theorem mainMco_booted (w : World) (t : Tid) (e : CallSite)
    (h : (w.callstack t).index = 0) : Booted w (w.mainMco t e).1 t e.main := by
  rw [mainMco_eq h]
  refine ⟨h, rfl, rfl, ⟨(w.mgr t).privateSize, e.mainBlk, ?_⟩, fun d hd => ?_,
    ⟨e.mainBlk, (w.mgr t).privateSize, 0, ?_⟩, rfl, rfl⟩
  · funext d
    by_cases hd : d = e.main
    · rw [hd]
      simp only [ctl, Function.update_self, Option.map_some]
      rfl
    · simp only [ctl, Function.update_of_ne hd]
  · simp only [shape, Function.update_of_ne hd]
  · simp only [shape, Function.update_self, Option.map_some]
    rfl

/-- `MainMco` leaves every live coroutine alone. -/
theorem mainMco_co {w : World} {t : Tid} {e : CallSite} {c : McoRef} {r : McoRoutine}
    (hfresh : w.FreshMain t e) (h : w.co c = some r) : (w.mainMco t e).1.co c = some r := by
  by_cases h0 : (w.callstack t).index = 0
  · have hne : c ≠ e.main := by
      rintro rfl
      rw [hfresh h0] at h
      cases h
    rw [mainMco_eq h0]
    exact (Function.update_of_ne hne _ _).trans h
  · rw [mainMco_of_nonempty h0]
    exact h

theorem setRunning_ok {w w' : World} {c : McoRef} {b : Bool} (h : w.setRunning c b = .ok w') :
    ∃ r, w.co c = some r ∧ w' = w.setCo c { r with running := b } := by
  unfold setRunning at h
  cases hr : w.co c with
  | none =>
      rw [hr] at h
      cases h
  | some r =>
      rw [hr] at h
      injection h with h
      exact ⟨r, rfl, h.symm⟩

/-- The record `McoResume` switches to when it starts `c` on thread `t`, and
    the state just before. -/
def started (w : World) (t : Tid) (c : McoRef) (r : McoRoutine) (blk : Nat) :
    World × McoRoutine :=
  let w' := (w.initMcoContext t c r blk).2
  let s := if r.usePrivate then (w.mgr t).createPrivateMcoStack blk
    else (w.mgr t).createCommonMcoStack
  (w', { r with
    stackMgr := some t
    start := true
    coctx := { r.coctx with ctx := some { regs := .entry c, ssSize := s.size, ssSp := s.stack } } })

/-- A `McoResume` that returns has changed nothing, because there was nothing
    to resume, or has yielded to the coroutine that resumed the caller, or has
    pushed the coroutine, making its context and stack first if it is new. -/
theorem mcoResume_cases {w w' : World} {t : Tid} {co : Option McoRef} {e : CallSite}
    (h : w.mcoResume t co e = .ok w') :
    (w' = w ∧ ∀ c, co = some c →
      ∃ r, w.co c = some r ∧ (r.running = true ∨ r.finished = true)) ∨
    (∃ c r cur rcur, co = some c ∧ w.co c = some r ∧ r.running = false ∧ r.finished = false ∧
      (w.mainMco t e).1.top t = some cur ∧ (w.mainMco t e).1.co cur = some rcur ∧
      ((rcur.sink = some c ∧ (w.mainMco t e).1.mcoYield t (some cur) e.sp = .ok w') ∨
       (rcur.sink ≠ some c ∧ r.start = true ∧
          (w.mainMco t e).1.pushCallstack t c r e.sp = .ok w') ∨
       (rcur.sink ≠ some c ∧ r.start = false ∧
          ((w.mainMco t e).1.started t c r e.blk).1.pushCallstack t c
            ((w.mainMco t e).1.started t c r e.blk).2 e.sp = .ok w'))) := by
  unfold mcoResume at h
  cases co with
  | none =>
      injection h with h
      exact Or.inl ⟨h.symm, fun c hc => by cases hc⟩
  | some c =>
      simp only [] at h
      cases hr : w.co c with
      | none =>
          rw [hr] at h
          cases h
      | some r =>
          rw [hr] at h
          simp only [] at h
          by_cases hign : (r.running || r.finished) = true
          · rw [if_pos hign] at h
            injection h with h
            refine Or.inl ⟨h.symm, fun d hd => ?_⟩
            injection hd with hd
            rw [Bool.or_eq_true] at hign
            exact ⟨r, by rw [← hd]; exact hr, hign⟩
          · right
            rw [if_neg hign] at h
            simp only [Bool.not_eq_true, Bool.or_eq_false_iff] at hign
            rw [mainMco_ensured] at h
            cases hcur : ((w.mainMco t e).1.callstack t).fromTop 1 with
            | none =>
                rw [hcur] at h
                cases h
            | some cur =>
                rw [hcur] at h
                simp only [] at h
                cases hrcur : (w.mainMco t e).1.co cur with
                | none =>
                    rw [hrcur] at h
                    cases h
                | some rcur =>
                    rw [hrcur] at h
                    simp only [] at h
                    refine ⟨c, r, cur, rcur, rfl, hr, hign.1, hign.2, hcur, hrcur, ?_⟩
                    by_cases hsink : rcur.sink = some c
                    · rw [if_pos hsink] at h
                      exact Or.inl ⟨hsink, h⟩
                    · right
                      rw [if_neg hsink] at h
                      cases hst : r.start with
                      | true =>
                          rw [hst, if_pos rfl] at h
                          exact Or.inl ⟨hsink, rfl, h⟩
                      | false =>
                          rw [hst, if_neg (by decide)] at h
                          -- Making the stack does not fail, and neither does the call.
                          refine Or.inr ⟨hsink, rfl, ?_⟩
                          simpa only [started, initMcoContext, setCo, setStack,
                            Function.update_self, Option.isSome_some, madeContext,
                            mcontextMake, Option.map_some] using h

/-- A `McoYield` that returns has changed nothing, because the coroutine is
    not running, or has passed the assertion and switched. -/
theorem mcoYield_cases {w w' : World} {t : Tid} {co : Option McoRef} {sp : Nat}
    (h : w.mcoYield t co sp = .ok w') :
    (w' = w ∧ ∀ c, co = some c →
      ∃ r, w.co c = some r ∧ (r.running = false ∨ r.finished = true)) ∨
    (∃ c r s, co = some c ∧ w.co c = some r ∧ r.running = true ∧ r.finished = false ∧
      r.sink = some s ∧ (w.callstack t).fromTop 2 = some s ∧
      ∃ w1, ((w.setCallstack t (w.callstack t).pop).setCo c r.giveUp).setRunning s true = .ok w1 ∧
        w1.mcoSwap t c s sp = .ok w') := by
  unfold mcoYield at h
  cases co with
  | none =>
      injection h with h
      exact Or.inl ⟨h.symm, fun c hc => by cases hc⟩
  | some c =>
      simp only [] at h
      cases hr : w.co c with
      | none =>
          rw [hr] at h
          cases h
      | some r =>
          rw [hr] at h
          simp only [] at h
          by_cases hign : (!r.running || r.finished) = true
          · rw [if_pos hign] at h
            injection h with h
            refine Or.inl ⟨h.symm, fun d hd => ?_⟩
            injection hd with hd
            rw [Bool.or_eq_true, Bool.not_eq_true'] at hign
            exact ⟨r, by rw [← hd]; exact hr, hign⟩
          · right
            rw [if_neg hign] at h
            simp only [Bool.not_eq_true, Bool.or_eq_false_iff, Bool.not_eq_false'] at hign
            -- The assertion compares the two before either is used.
            by_cases has : r.sink = (w.callstack t).fromTop 2
            · rw [if_neg (fun hc => hc has)] at h
              cases hs : r.sink with
              | none =>
                  rw [hs] at h
                  cases h
              | some s =>
                  rw [hs] at h
                  rcases (Fallible.bind_eq_ok_iff _ _ _).mp h with ⟨w1, h1, h2⟩
                  refine ⟨c, r, s, rfl, hr, hign.1, hign.2, hs, ?_, w1, h1, h2⟩
                  rw [← has, hs]
            · rw [if_pos has] at h
              cases h

/-- What the pushing branch does from a state where `cur` is on top and its
    code is running, and the record `r` written for `c` leads into `c`'s own
    code. -/
theorem pushCallstack_effect {b w' : World} {t : Tid} {cur c : McoRef} {r : McoRoutine}
    {m : Mcontext} {sp : Nat} (hcur : b.top t = some cur) (hx : b.exec t = some cur)
    (hne : cur ≠ c) (hm : r.coctx.ctx = some m)
    (hregs : m.regs = .entry c ∨ m.regs = .inSwap (some c))
    (h : b.pushCallstack t c r sp = .ok w') :
    w'.callstack = Function.update b.callstack t ((b.callstack t).push c) ∧
    w'.exec = Function.update b.exec t (some c) ∧
    (∀ d, d ≠ cur → d ≠ c → w'.ctl d = b.ctl d) ∧
    (∃ rc, b.ctl cur = some rc ∧
      w'.ctl cur = some (parked (some cur) { rc with running := false })) ∧
    (∃ r', w'.ctl c = some r' ∧
      ((m.regs = .entry c ∧ r' = called (forget (r.takeOver (some cur)))) ∨
       (m.regs = .inSwap (some c) ∧ r' = forget (r.takeOver (some cur))))) ∧
    w'.shape = b.shape ∧
    ∀ u, (w'.mgr u).commonStack = (b.mgr u).commonStack ∧
      (w'.mgr u).commonSize = (b.mgr u).commonSize := by
  unfold pushCallstack at h
  have hsink : ((b.callstack t).push c).fromTop 2 = some cur := by
    rw [McoCallStack.push_fromTop_two]
    exact hcur
  simp only [hsink] at h
  rcases (Fallible.bind_eq_ok_iff _ _ _).mp h with ⟨w1, h1, h2⟩
  rcases setRunning_ok h1 with ⟨rc, hrc, rfl⟩
  have hrc' : b.co cur = some rc := by
    simpa only [setCo, setCallstack, Function.update_of_ne hne] using hrc
  -- The control view the switch starts from.
  have hpre : (((b.setCallstack t ((b.callstack t).push c)).setCo c (r.takeOver (some cur))).setCo
      cur { rc with running := false }).ctl
      = Function.update (Function.update b.ctl c (some (forget (r.takeOver (some cur))))) cur
        (some (forget { rc with running := false })) := by
    rw [setCo_ctl, setCo_ctl, setCallstack_ctl]
  have hto : (((b.setCallstack t ((b.callstack t).push c)).setCo c (r.takeOver (some cur))).setCo
      cur { rc with running := false }).ctl c
      = some (forget (r.takeOver (some cur))) := by
    rw [hpre, Function.update_of_ne hne.symm, Function.update_self]
  have hover := mcoSwap_handover h2 hne hx ⟨_, m, hto, hm, hregs⟩
  rcases hover with ⟨hcs, hex, hother, ⟨ra, hra, hra'⟩, ⟨rb, mb, hrb, hmb, hcase⟩, hsh, hbl⟩
  rw [hpre, Function.update_self] at hra
  rw [hto] at hrb
  injection hra with hra
  injection hrb with hrb
  refine ⟨hcs, hex, ?_, ⟨forget rc, ctl_of_co hrc', ?_⟩, ?_, hsh, hbl⟩
  · intro d hd1 hd2
    rw [hother d hd1 hd2, hpre, Function.update_of_ne hd1, Function.update_of_ne hd2]
  · rw [hra', ← hra]
    rfl
  -- The context loaded is that of the record written for `c`.
  · have hmm : m = mb := by
      rw [← hrb] at hmb
      have : r.coctx.ctx = some mb := hmb
      rw [hm] at this
      injection this
    rcases hcase with ⟨he, hw⟩ | ⟨he, hw⟩
    · exact ⟨_, hw, Or.inl ⟨by rw [hmm]; exact he, by rw [hrb]⟩⟩
    · exact ⟨_, hw, Or.inr ⟨by rw [hmm]; exact he, by rw [hrb]⟩⟩

/-- Pushing a coroutine that has already been started. -/
theorem pushCallstack_pushed {b w' : World} {t : Tid} {cur c : McoRef} {r : McoRoutine}
    {m : Mcontext} {sp : Nat} (hcur : b.top t = some cur) (hx : b.exec t = some cur)
    (hne : cur ≠ c) (hr : b.co c = some r) (hst : r.start = true)
    (hm : r.coctx.ctx = some m) (hregs : m.regs = .inSwap (some c))
    (h : b.pushCallstack t c r sp = .ok w') : Pushed b w' t cur c := by
  rcases pushCallstack_effect hcur hx hne hm (Or.inr hregs) h with
    ⟨hcs, hex, hother, hfrom, ⟨r', hr', hcase⟩, hsh, hbl⟩
  refine ⟨hne, hcs, hex, hother, hfrom, ⟨forget r, r', ctl_of_co hr, hr', ?_⟩, ?_, ?_, hbl⟩
  · rcases hcase with ⟨he, _⟩ | ⟨_, rfl⟩
    -- A started coroutine goes on where it was, so its callback is not called again.
    · rw [hregs] at he
      cases he
    · refine ⟨rfl, rfl, hst, rfl, rfl, rfl, rfl, rfl, by change r.coctx.ctx.isSome; rw [hm]; rfl,
        ?_, ?_⟩
      · change r.coctx.coruns = r.coctx.coruns + if r.start then 0 else 1
        rw [hst, if_pos rfl, Nat.add_zero]
      · change r.stackMgr = if r.start then r.stackMgr else some t
        rw [hst, if_pos rfl]
  · intro d _
    rw [hsh]
  · intro r1 hr1 hst1
    rw [ctl_of_co hr] at hr1
    injection hr1 with hr1
    rw [← hr1] at hst1
    have : r.start = false := hst1
    rw [hst] at this
    cases this

/-- Pushing a coroutine for the first time, after `InitMcoContext` and
    `McontextMake`. -/
theorem pushCallstack_started {b w' : World} {t : Tid} {cur c : McoRef} {r : McoRoutine}
    {sp blk : Nat} (hcur : b.top t = some cur) (hx : b.exec t = some cur)
    (hne : cur ≠ c) (hr : b.co c = some r) (hst : r.start = false)
    (h : (b.started t c r blk).1.pushCallstack t c (b.started t c r blk).2 sp = .ok w') :
    Pushed b w' t cur c := by
  have hother0 : ∀ d, d ≠ c → (b.started t c r blk).1.ctl d = b.ctl d := by
    intro d hd
    simp only [started, initMcoContext, setCo_ctl, setStack_ctl, Function.update_of_ne hd]
  rcases pushCallstack_effect (b := (b.started t c r blk).1) hcur hx hne rfl (Or.inl rfl) h with
    ⟨hcs, hex, hother, ⟨rc, hrc, hrc'⟩, ⟨r', hr', hcase⟩, hsh, hbl⟩
  refine ⟨hne, hcs, hex, ?_, ⟨rc, ?_, hrc'⟩, ⟨forget r, r', ctl_of_co hr, hr', ?_⟩, ?_, ?_, hbl⟩
  · intro d hd1 hd2
    rw [hother d hd1 hd2, hother0 d hd2]
  · rw [← hother0 cur hne]
    exact hrc
  · rcases hcase with ⟨_, rfl⟩ | ⟨he, _⟩
    · refine ⟨rfl, rfl, rfl, rfl, rfl, rfl, rfl, rfl, rfl, ?_, ?_⟩
      · change r.coctx.coruns + 1 = r.coctx.coruns + if r.start then 0 else 1
        rw [hst, if_neg (by decide)]
      · change some t = if r.start then r.stackMgr else some t
        rw [hst, if_neg (by decide)]
    · cases he
  · intro d hd
    rcases hd with hd | ⟨r1, hr1, hst1⟩
    · rw [hsh]
      simp only [shape, started, initMcoContext, setCo, setStack, Function.update_of_ne hd]
    · rw [ctl_of_co hr] at hr1
      injection hr1 with hr1
      rw [← hr1] at hst1
      have : r.start = true := hst1
      rw [hst] at this
      cases this
  · intro r1 hr1 _
    rw [ctl_of_co hr] at hr1
    injection hr1 with hr1
    rw [← hr1]
    change (r.usePrivate = true ∧ _) ∨ (r.usePrivate = false ∧ _)
    rw [hsh]
    cases hp : r.usePrivate with
    | true =>
        refine Or.inl ⟨rfl, blk, (b.mgr t).privateSize, 0, ?_⟩
        simp only [shape, started, initMcoContext, setCo, setStack, Function.update_self, hp,
          if_true, Option.map_some, McoStackManager.createPrivateMcoStack]
    | false =>
        refine Or.inr ⟨rfl, ?_⟩
        simp only [shape, started, initMcoContext, setCo, setStack, Function.update_self, hp,
          Bool.false_eq_true, if_false, Option.map_some, McoStackManager.createCommonMcoStack]

theorem giveUp_yielded (c : McoRef) (r : McoRoutine) (m : Mcontext)
    (hm : r.giveUp.coctx.ctx = some m) :
    Yielded c (forget r) (parked (some c) (forget r.giveUp)) := by
  have hctx : ∃ m', (parked (some c) (forget r.giveUp)).coctx.ctx = some m' ∧
      m'.regs = .inSwap (some c) := by
    refine ⟨{ m with regs := .inSwap (some c) }, ?_, rfl⟩
    change r.giveUp.coctx.ctx.map _ = _
    rw [hm, Option.map_some]
  cases hd : r.done <;>
    constructor <;>
    simp only [parked, forget, McoRoutine.giveUp, McoRoutine.endDone, hd, if_true, if_false,
      Bool.false_eq_true] at hctx ⊢ <;>
    exact hctx

/-- A `McoYield` of the running coroutine `c` that gets past its assertion
    takes `c` off the call stack and hands control to the coroutine below. -/
theorem mcoYield_popped {w w' w1 : World} {t : Tid} {c s : McoRef} {r : McoRoutine} {sp : Nat}
    (hx : w.exec t = some c) (hne : c ≠ s) (hr : w.co c = some r) (hsink : r.sink = some s)
    (hbelow : (w.callstack t).fromTop 2 = some s)
    (hlead : ∃ rs m, w.ctl s = some rs ∧ rs.coctx.ctx = some m ∧ m.regs = .inSwap (some s))
    (h1 : ((w.setCallstack t (w.callstack t).pop).setCo c r.giveUp).setRunning s true = .ok w1)
    (h2 : w1.mcoSwap t c s sp = .ok w') : Popped w w' t c s false := by
  rcases hlead with ⟨rs, m, hrs, hm, hregs⟩
  rcases setRunning_ok h1 with ⟨rs', hrs', rfl⟩
  have hrs0 : w.co s = some rs' := by
    simpa only [setCo, setCallstack, Function.update_of_ne hne.symm] using hrs'
  have hrsf : forget rs' = rs := by
    have hc := ctl_of_co hrs0
    rw [hrs] at hc
    injection hc with hc
    exact hc.symm
  have hpre : (((w.setCallstack t (w.callstack t).pop).setCo c r.giveUp).setCo s
      { rs' with running := true }).ctl
      = Function.update (Function.update w.ctl c (some (forget r.giveUp))) s
        (some (forget { rs' with running := true })) := by
    rw [setCo_ctl, setCo_ctl, setCallstack_ctl]
  have hto : (((w.setCallstack t (w.callstack t).pop).setCo c r.giveUp).setCo s
      { rs' with running := true }).ctl s
      = some { rs with running := true } := by
    rw [hpre, Function.update_self, ← hrsf]
    rfl
  have hover := mcoSwap_handover h2 hne hx ⟨_, m, hto, hm, Or.inr hregs⟩
  rcases hover with ⟨hcs, hex, hother, ⟨ra, hra, hra'⟩, ⟨rb, mb, hrb, hmb, hcase⟩, hsh, hbl⟩
  rw [hpre, Function.update_of_ne hne, Function.update_self] at hra
  injection hra with hra
  rw [hto] at hrb
  injection hrb with hrb
  refine ⟨hne, hcs, hex, hbelow, ?_, ⟨forget r, _, ctl_of_co hr, hsink, hra', ?_⟩,
    ⟨rs, hrs, ?_⟩, hsh, hbl⟩
  · intro d hd1 hd2
    rw [hother d hd1 hd2, hpre, Function.update_of_ne hd2, Function.update_of_ne hd1]
  · rw [← hra]
    -- `McoSwap` found a context to save the position in.
    have hsome : ∃ mc, r.giveUp.coctx.ctx = some mc := by
      rcases mcoSwap_parts h2 with ⟨v1, v2, v3, back, k1, k2, k3, _⟩
      rcases mcontextSwap_cases hne k3 with ⟨ra2, _, _, hra2, hctx2, _⟩
      have hsame := (saveSp_sameControl k1).trans (occupy_sameControl k2)
      have hc := ctl_of_co hra2
      rw [hsame.ctl, hpre, Function.update_of_ne hne, Function.update_self] at hc
      injection hc with hc
      have hcc : (forget r.giveUp).coctx = (forget ra2).coctx := by rw [hc]
      change r.giveUp.coctx = ra2.coctx at hcc
      rw [hcc]
      exact Option.isSome_iff_exists.mp hctx2
    rcases hsome with ⟨mc, hmc⟩
    have hend : (forget r).ending false = forget r := by
      simp only [McoRoutine.ending, Bool.or_false]
    rw [hend]
    exact giveUp_yielded c r mc hmc
  -- The coroutine below was suspended in `McoSwap`, so no callback starts.
  · rcases hcase with ⟨he, _⟩ | ⟨_, hw⟩
    · have hmm : m = mb := by
        rw [← hrb] at hmb
        have : rs.coctx.ctx = some mb := hmb
        rw [hm] at this
        injection this
      rw [← hmm, hregs] at he
      cases he
    · rw [hw, hrb]

/-- The end of a callback: `done` is set and the coroutine yields. -/
theorem coroutineRun_cases {w w' : World} {t : Tid} {sp : Nat}
    (h : w.coroutineRun t sp = .ok w') :
    ∃ c r, w.exec t = some c ∧ w.co c = some r ∧ r.running = true ∧ r.doneYield = false ∧
      (w.setCo c { r with done := true }).mcoYield t (some c) sp = .ok w' := by
  unfold coroutineRun at h
  cases hx : w.exec t with
  | none =>
      rw [hx] at h
      cases h
  | some c =>
      rw [hx] at h
      simp only [] at h
      cases hr : w.co c with
      | none =>
          rw [hr] at h
          cases h
      | some r =>
          rw [hr] at h
          simp only [] at h
          by_cases hign : (!r.running || ({ r with done := true } : McoRoutine).finished) = true
          · rw [if_pos hign] at h
            cases h
          · rw [if_neg hign] at h
            simp only [Bool.not_eq_true, Bool.or_eq_false_iff, Bool.not_eq_false'] at hign
            exact ⟨c, r, rfl, hr, hign.1, hign.2, h⟩

/-- Setting `done` just before the yield makes it the last one. -/
theorem Popped.ended {w w' : World} {t : Tid} {c s : McoRef} {r : McoRoutine}
    (hr : w.co c = some r) (h : Popped (w.setCo c { r with done := true }) w' t c s false) :
    Popped w w' t c s true := by
  have hother : ∀ d, d ≠ c → (w.setCo c { r with done := true }).ctl d = w.ctl d := fun d hd => by
    rw [setCo_ctl, Function.update_of_ne hd]
  rcases h.ctl_from with ⟨r0, r', hr0, hsink, hr', hy⟩
  rw [setCo_ctl, Function.update_self] at hr0
  injection hr0 with hr0
  refine ⟨h.ne, h.callstack, h.exec, h.below, ?_, ⟨forget r, r', ctl_of_co hr, ?_, hr', ?_⟩, ?_,
    h.shape, h.block⟩
  · intro d hd1 hd2
    rw [h.ctl_other d hd1 hd2, hother d hd1]
  · rw [← hr0] at hsink
    exact hsink
  -- The record in between already has `done` set.
  · have heq : r0.ending false = (forget r).ending true := by
      rw [← hr0]
      simp only [McoRoutine.ending, forget, Bool.or_false, Bool.or_true]
    rw [← heq]
    exact hy
  · rcases h.ctl_to with ⟨rs, hrs, hrs'⟩
    refine ⟨rs, ?_, hrs'⟩
    rw [← hother s h.ne.symm]
    exact hrs

/-- A `McoFree` does nothing, postpones, or destroys the object and clears
    the calling thread's occupant if it was the object. -/
theorem mcoFree_cases {w w' : World} {t : Tid} {co : Option McoRef}
    (h : w.mcoFree t co = .ok w') :
    (co = none ∧ w' = w) ∨
    (∃ c r, co = some c ∧ w.co c = some r ∧ r.running = true ∧
      w' = w.setCo c { r with shouldClose := true }) ∨
    (∃ c r, co = some c ∧ w.co c = some r ∧ r.running = false ∧
      w' = { (if (w.mgr t).commonOccupy = some c then w.setCommonOccupy t none else w) with
        co := Function.update w.co c none
        stack := Function.update w.stack c none }) := by
  unfold mcoFree at h
  cases co with
  | none =>
      injection h with h
      exact Or.inl ⟨rfl, h.symm⟩
  | some c =>
      right
      simp only [] at h
      cases hr : w.co c with
      | none =>
          rw [hr] at h
          cases h
      | some r =>
          rw [hr] at h
          simp only [] at h
          by_cases hrun : r.running = true
          · rw [if_pos hrun] at h
            injection h with h
            exact Or.inl ⟨c, r, rfl, hr, hrun, h.symm⟩
          · rw [if_neg hrun] at h
            injection h with h
            refine Or.inr ⟨c, r, rfl, hr, Bool.eq_false_iff.mpr hrun, ?_⟩
            rw [← h]
            by_cases ho : (w.mgr t).commonOccupy = some c
            · simp only [if_pos ho, setCommonOccupy]
            · simp only [if_neg ho]

theorem mcoFree_ctl (w : World) (t : Tid) (c : McoRef) :
    ({ (if (w.mgr t).commonOccupy = some c then w.setCommonOccupy t none else w) with
        co := Function.update w.co c none
        stack := Function.update w.stack c none } : World).ctl
      = Function.update w.ctl c none := by
  funext d
  by_cases hd : d = c
  · rw [hd]
    simp only [ctl, Function.update_self, Option.map_none]
  · simp only [ctl, Function.update_of_ne hd]

end World

end Fasco
