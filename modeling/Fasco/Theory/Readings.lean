import Fasco.Core.Asserts
import Fasco.Theory.Transition

/-!
# One Program, Two Descriptions

`Core.Routine` describes the coroutine operations with the size assertions of
`McoCallStack` compiled out and the one on `sink` compiled in, and reads the
call stack without inserting keys. `Core.Asserts` describes them with any
choice of assertions and the insertions. With the choice of `Core.Routine` the
two descriptions are one: they take the same steps and stop at the same faults
along every run.

What makes them agree is the state of the map. It holds every key below its
index, so that nothing is inserted where the call stack is read, and it holds
nothing at the keys a subtraction below zero wraps to, so that a `McoYield`
with nobody to yield to finds a null pointer in both. A key is stored where the
index stands and none is ever removed, so every operation keeps the first; the
second needs the index to stay away from the end of its range.

## Main definitions

* `Asserts.sinkOnly`: The choice of `Core.Routine`.
* `McoCallStack.Keyed`: The keys below the index are there, those at the end
  of the range are not.
* `World.Roomy`: No thread's index is near the end of its range.

## Theorems

* `mcoSwapA_eq`, `mainMcoA_eq`, `mcoYieldA_eq`, `mcoResumeA_eq`,
  `coroutineRunA_eq`: The operations agree on a call stack that is `Keyed`.
* `stepA_eq`: So does every step.
* `keyed_step`: Every step keeps the call stacks `Keyed`.
* `runs_iff_runsA`, `stepA_eq_of_runs`: The runs of the two descriptions are
  the same, up to and including a last step that faults.
-/

namespace Fasco

open Fallible

/-- The assertion on `sink`, and not those on the size. -/
def Asserts.sinkOnly : Asserts := { size := false, sink := true, ownMgr := true }

-- Two computations with a part that knows no size assertion in front.
theorem liftStop_bind {α β : Type} (x : Except Fault α) (f : α → Except Stop β)
    (g : α → Except Fault β) (h : ∀ a, x = .ok a → f a = liftStop (g a)) :
    (liftStop x >>= f) = liftStop (x >>= g) := by
  cases x with
  | error e => rfl
  | ok a => exact h a rfl

namespace McoCallStack

/-- Every key below the index is in the map, and there is nothing at the keys
    that `index - 2` wraps to. -/
structure Keyed (s : McoCallStack) : Prop where
  below : ∀ i, i < s.index → (s.callStack i).isSome
  wrapped : ∀ i, 2 ^ 64 - 2 ≤ i → s.slot i = none

variable {s : McoCallStack} {i : Nat}

/-- A key that is there is not inserted. -/
theorem touch_of_key (h : (s.callStack i).isSome) : s.touch i = s := if_pos h

theorem subscript_of_key (h : (s.callStack i).isSome) :
    s.subscript Asserts.sinkOnly i = .ok (s, s.slot i) := by
  simp only [subscript, touch_of_key h]
  rfl

/-- A key is stored where the index stands. -/
theorem Keyed.push (h : s.Keyed) (hroom : s.index < 2 ^ 64 - 2) (c : McoRef) :
    (s.push c).Keyed where
  below := by
    intro i hi
    have hi' : i < s.index + 1 := hi
    change (Function.update s.callStack s.index (some (some c)) i).isSome
    by_cases his : i = s.index
    · rw [his, Function.update_self]
      rfl
    · rw [Function.update_of_ne his]
      exact h.below i (by omega)
  wrapped := by
    intro i hi
    rw [push_slot, if_neg (by omega)]
    exact h.wrapped i hi

/-- Taking an entry off leaves its key. -/
theorem Keyed.pop (h : s.Keyed) : s.pop.Keyed where
  below := by
    intro i hi
    have hi' : i < s.index - 1 := hi
    exact h.below i (by omega)
  wrapped := h.wrapped

/-- With no size assertion the store is a push. -/
theorem store_eq (s : McoCallStack) (c : McoRef) :
    s.store Asserts.sinkOnly c = .ok (s.push c) := rfl

end McoCallStack

namespace World

variable {w : World} {t : Tid}

/-- A call stack put where it is. -/
@[simp] theorem setCallstack_self (w : World) (t : Tid) :
    w.setCallstack t (w.callstack t) = w := by
  simp only [setCallstack, Function.update_eq_self]

/-- Reading a key that is there only reads. -/
theorem subscriptA_of_key {i : Nat} (h : ((w.callstack t).callStack i).isSome) :
    w.subscriptA Asserts.sinkOnly t i = .ok (w, (w.callstack t).slot i) := by
  simp only [subscriptA, McoCallStack.subscript_of_key h]
  change Except.ok (w.setCallstack t (w.callstack t), _) = _
  rw [setCallstack_self]

/-- The end of `McoSwap`, on a call stack that is not empty. -/
theorem swapTailA_eq (hk : (w.callstack t).Keyed) (hi : 1 ≤ (w.callstack t).index) :
    w.swapTailA Asserts.sinkOnly t = liftStop (w.swapTail t) := by
  have hkey := hk.below ((w.callstack t).index - 1) (by omega)
  have hcur : (w.callstack t).getCurMcoA Asserts.sinkOnly
      = .ok (w.callstack t, (w.callstack t).getCurMco) := by
    unfold McoCallStack.getCurMcoA McoCallStack.getCurMco McoCallStack.fromTop sizeSub
    rw [if_pos hi, if_pos hi, McoCallStack.touch_of_key hkey]
    by_cases hs : 0 < (w.callstack t).size
    · rw [if_pos hs, if_pos hs]
      rfl
    · rw [if_neg hs, if_neg hs]
      rfl
  unfold swapTailA swapTail
  rw [hcur, ok_bind]
  dsimp only
  rw [setCallstack_self]
  cases (w.callstack t).getCurMco with
  | none => rfl
  | some c =>
      simp only []
      cases w.stack c with
      | none => rfl
      | some s =>
          cases w.co c with
          | none => rfl
          | some r =>
              simp only []
              by_cases hst : (!s.isPrivate && r.stackStore) = true
              · rw [if_pos hst, if_pos hst]
                cases recoverUsedCommonStack w.mem s with
                | error e => rfl
                | ok mem => rfl
              · rw [if_neg hst, if_neg hst]
                rfl

/-- The switch leaves the call stacks alone. -/
theorem mcontextSwap_callstack {w' : World} {sink co : McoRef} {back : Bool}
    (h : w.mcontextSwap t sink co = .ok (w', back)) : w'.callstack = w.callstack := by
  rcases mcontextSwap_outcome h with ⟨rs, rc, m, _, _, _, _, ⟨c, _, _, rfl⟩ | ⟨x, _, _, rfl⟩⟩
  · rfl
  · rfl

/-- `McoSwap`. -/
theorem mcoSwapA_eq {sink co : McoRef} {sp : Nat} (hk : (w.callstack t).Keyed)
    (hi : 1 ≤ (w.callstack t).index) :
    w.mcoSwapA Asserts.sinkOnly t sink co sp = liftStop (w.mcoSwap t sink co sp) := by
  refine liftStop_bind _ _ _ (fun w1 h1 => ?_)
  refine liftStop_bind _ _ _ (fun w2 h2 => ?_)
  refine liftStop_bind _ _ _ (fun ⟨w3, back⟩ h3 => ?_)
  have hcs : w3.callstack = w.callstack := by
    rw [mcontextSwap_callstack h3, (occupy_sameControl h2).callstack,
      (saveSp_sameControl h1).callstack]
  cases back with
  | true =>
      change w3.swapTailA Asserts.sinkOnly t = liftStop (w3.swapTail t)
      refine swapTailA_eq ?_ ?_
      · rw [hcs]
        exact hk
      · rw [hcs]
        exact hi
  | false => rfl

/-- The assertion in `McoYield`, with somebody to yield to. -/
theorem assertSink_of_two (hk : (w.callstack t).Keyed) (hi : 2 ≤ (w.callstack t).index)
    (sink : Option McoRef) :
    w.assertSink Asserts.sinkOnly t sink = if sink = (w.callstack t).fromTop 2 then .ok w
      else .error (.fault .assertion) := by
  have hsub : sizeSub (w.callstack t).index 2 = (w.callstack t).index - 2 := if_pos hi
  have htop : (w.callstack t).fromTop 2 = (w.callstack t).slot ((w.callstack t).index - 2) :=
    if_pos hi
  have hkey := subscriptA_of_key (hk.below ((w.callstack t).index - 2) (by omega))
  change (w.subscriptA Asserts.sinkOnly t (sizeSub (w.callstack t).index 2) >>= _) = _
  rw [hsub, hkey, htop]
  rfl

/-- With nobody to yield to it reads, and inserts, a null pointer at the end
    of the range. -/
theorem assertSink_of_low (hk : (w.callstack t).Keyed) (hi : (w.callstack t).index < 2)
    (sink : Option McoRef) :
    ∃ v, w.assertSink Asserts.sinkOnly t sink = if sink = none then .ok v
      else .error (.fault .assertion) := by
  have hsub : 2 ^ 64 - 2 ≤ sizeSub (w.callstack t).index 2 := by
    unfold sizeSub
    rw [if_neg (by omega)]
    omega
  have hslot := hk.wrapped _ hsub
  refine ⟨w.setCallstack t ((w.callstack t).touch (sizeSub (w.callstack t).index 2)), ?_⟩
  change (if sink = (w.callstack t).slot (sizeSub (w.callstack t).index 2) then _ else _) = _
  rw [hslot]

/-- `McoYield`. -/
theorem mcoYieldA_eq {co : Option McoRef} {sp : Nat} (hk : (w.callstack t).Keyed) :
    w.mcoYieldA Asserts.sinkOnly t co sp = liftStop (w.mcoYield t co sp) := by
  unfold mcoYieldA mcoYield
  cases co with
  | none => rfl
  | some c =>
      simp only []
      cases hr : w.co c with
      | none => rfl
      | some r =>
          simp only []
          by_cases hgo : (!r.running || r.finished) = true
          · rw [if_pos hgo, if_pos hgo]
            rfl
          · rw [if_neg hgo, if_neg hgo]
            by_cases hi : 2 ≤ (w.callstack t).index
            · have hassert := assertSink_of_two (w := w.setCo c r.endDone) (t := t) hk hi r.sink
              rw [hassert]
              change ((if r.sink = (w.callstack t).fromTop 2 then _ else _) >>= _) = _
              by_cases hsink : r.sink = (w.callstack t).fromTop 2
              · rw [if_pos hsink, if_neg (fun hc => hc hsink)]
                cases hs : r.sink with
                | none => rfl
                | some s =>
                    have hidx : sizeSub (w.callstack t).index 1 = (w.callstack t).index - 1 :=
                      if_pos (by omega)
                    -- The record is written twice, and nothing reads the first.
                    have heq : ((w.setCo c r.endDone).setCallstack t
                        { w.callstack t with index := sizeSub (w.callstack t).index 1 }).setCo c
                          r.giveUp
                        = (w.setCallstack t (w.callstack t).pop).setCo c r.giveUp := by
                      rw [hidx]
                      simp only [setCo, setCallstack, Function.update_idem, McoCallStack.pop]
                    refine (congrArg (fun v => liftStop (v.setRunning s true) >>=
                      fun v => v.mcoSwapA Asserts.sinkOnly t c s sp) heq).trans ?_
                    refine liftStop_bind _ _ _ (fun w1 h1 => ?_)
                    rcases setRunning_ok h1 with ⟨q, _, rfl⟩
                    have hcs : ((((w.setCallstack t (w.callstack t).pop).setCo c r.giveUp).setCo s
                        { q with running := true }).callstack t) = (w.callstack t).pop :=
                      Function.update_self _ _ _
                    refine mcoSwapA_eq ?_ ?_
                    · rw [hcs]
                      exact hk.pop
                    · rw [hcs]
                      change 1 ≤ (w.callstack t).index - 1
                      omega
              · rw [if_neg hsink, if_pos hsink]
                rfl
            -- Below the topmost entry is nothing: a null `sink` passes, and is followed.
            · have htop : (w.callstack t).fromTop 2 = none := if_neg hi
              rcases assertSink_of_low (w := w.setCo c r.endDone) (t := t) hk
                (Nat.lt_of_not_le hi) r.sink with ⟨v, hv⟩
              rw [hv, htop]
              cases r.sink with
              | none => rfl
              | some s => rfl

/-- `MainMco`. -/
theorem mainMcoA_eq (hk : (w.callstack t).Keyed) (e : CallSite) :
    w.mainMcoA Asserts.sinkOnly t e = .ok (w.mainMco t e) := by
  unfold mainMcoA mainMco
  by_cases h0 : (w.callstack t).index = 0
  · rw [if_pos h0, if_pos h0]
    simp only []
    cases (w.mcoCreate e.main true).co e.main with
    | none => rfl
    | some r =>
        simp only []
        have hcs : ((w.mcoCreate e.main true).initMcoContext t e.main r e.mainBlk).2.callstack
            = w.callstack := rfl
        have hown : (w.mcoCreate e.main true).initMcoContextA Asserts.sinkOnly t e.main r e.mainBlk
            = .ok ((w.mcoCreate e.main true).initMcoContext t e.main r e.mainBlk) := rfl
        rw [hown, ok_bind]
        rcases hinit : (w.mcoCreate e.main true).initMcoContext t e.main r e.mainBlk with ⟨b, w1⟩
        rw [hinit] at hcs
        have hcs1 : w1.callstack = w.callstack := hcs
        cases b with
        | false => rfl
        | true =>
            simp only []
            cases w1.co e.main with
            | none => rfl
            | some q =>
                simp only []
                have hkey : ((((w1.setCallstack t ((w1.callstack t).push e.main)).setCo e.main
                    { madeContext e.main q with
                      isMain := true, start := true, running := true, inCallstack := true }).setExec
                    t (some e.main)).callstack t).Keyed := by
                  change (Function.update w1.callstack t ((w1.callstack t).push e.main) t).Keyed
                  rw [Function.update_self, hcs1]
                  exact hk.push (by omega) e.main
                refine subscriptA_of_key (hkey.below 0 ?_)
                change 0 < (Function.update w1.callstack t ((w1.callstack t).push e.main) t).index
                rw [Function.update_self, McoCallStack.push_index]
                exact Nat.succ_pos _
  · rw [if_neg h0, if_neg h0]
    exact subscriptA_of_key (hk.below 0 (Nat.pos_of_ne_zero h0))

/-- The push in `McoResume`. -/
theorem pushCallstackA_eq {c : McoRef} {r : McoRoutine} {sp : Nat}
    (hk : (w.callstack t).Keyed) (hroom : (w.callstack t).index < 2 ^ 64 - 2)
    (hi : 1 ≤ (w.callstack t).index) :
    w.pushCallstackA Asserts.sinkOnly t c r sp = liftStop (w.pushCallstack t c r sp) := by
  have hk' : ((w.callstack t).push c).Keyed := hk.push hroom c
  have hlen : ((w.callstack t).push c).index = (w.callstack t).index + 1 :=
    McoCallStack.push_index _ _
  have hsub : sizeSub ((w.callstack t).push c).index 2 = ((w.callstack t).push c).index - 2 :=
    if_pos (by omega)
  have htop : ((w.callstack t).push c).fromTop 2
      = ((w.callstack t).push c).slot (((w.callstack t).push c).index - 2) := if_pos (by omega)
  have hcs : ((w.setCo c { r with running := true }).setCallstack t
      ((w.callstack t).push c)).callstack t = (w.callstack t).push c := Function.update_self _ _ _
  have hkey := subscriptA_of_key (w := (w.setCo c { r with running := true }).setCallstack t
    ((w.callstack t).push c)) (t := t) (i := ((w.callstack t).push c).index - 2)
    (by rw [hcs]; exact hk'.below _ (by omega))
  rw [hcs, ← htop] at hkey
  unfold pushCallstackA pushCallstack
  simp only [McoCallStack.store_eq, ok_bind]
  change (World.subscriptA Asserts.sinkOnly ((w.setCo c { r with running := true }).setCallstack t
    ((w.callstack t).push c)) t (sizeSub ((w.callstack t).push c).index 2) >>= _) = _
  rw [hsub, hkey, ok_bind]
  simp only []
  have heq : ((w.setCo c { r with running := true }).setCallstack t ((w.callstack t).push c)).setCo
      c (r.takeOver (((w.callstack t).push c).fromTop 2))
      = (w.setCallstack t ((w.callstack t).push c)).setCo c
        (r.takeOver (((w.callstack t).push c).fromTop 2)) := by
    simp only [setCo, setCallstack, Function.update_idem]
  cases hs : ((w.callstack t).push c).fromTop 2 with
  | none => rfl
  | some s =>
      rw [hs] at heq
      refine (congrArg (fun v => liftStop (v.setRunning s false) >>=
        fun v => v.mcoSwapA Asserts.sinkOnly t s c sp) heq).trans ?_
      refine liftStop_bind _ _ _ (fun w1 h1 => ?_)
      rcases setRunning_ok h1 with ⟨q, _, rfl⟩
      have hcs1 : ((((w.setCallstack t ((w.callstack t).push c)).setCo c
          (r.takeOver (some s))).setCo s { q with running := false }).callstack t)
          = (w.callstack t).push c := Function.update_self _ _ _
      refine mcoSwapA_eq ?_ ?_
      · rw [hcs1]
        exact hk'
      · rw [hcs1]
        omega

/-- The call stack once the thread has a coroutine for its own code. -/
theorem mainMco_keyed (hk : (w.callstack t).Keyed) (hroom : (w.callstack t).index < 2 ^ 64 - 2)
    (e : CallSite) :
    ((w.mainMco t e).1.callstack t).Keyed ∧ 1 ≤ ((w.mainMco t e).1.callstack t).index ∧
      ((w.mainMco t e).1.callstack t).index < 2 ^ 64 - 2 := by
  by_cases h0 : (w.callstack t).index = 0
  · rw [(mainMco_booted w t e h0).callstack, Function.update_self]
    refine ⟨hk.push hroom e.main, ?_⟩
    rw [McoCallStack.push_index]
    omega
  · rw [mainMco_of_nonempty h0]
    exact ⟨hk, by omega, hroom⟩

/-- The state after `MainMco`, if that is called. -/
theorem ensureMainA_eq (hk : (w.callstack t).Keyed) (e : CallSite) :
    w.ensureMainA Asserts.sinkOnly t e = .ok (w.mainMco t e).1 := by
  unfold ensureMainA
  by_cases h0 : (w.callstack t).index = 0
  · rw [if_pos h0, mainMcoA_eq hk]
    rfl
  · rw [if_neg h0, mainMco_of_nonempty h0]

/-- `McoResume`. -/
theorem mcoResumeA_eq {co : Option McoRef} {e : CallSite} (hk : (w.callstack t).Keyed)
    (hroom : (w.callstack t).index < 2 ^ 64 - 2) :
    w.mcoResumeA Asserts.sinkOnly t co e = liftStop (w.mcoResume t co e) := by
  cases co with
  | none => rfl
  | some c =>
      unfold mcoResumeA mcoResume
      simp only []
      cases hr : w.co c with
      | none => rfl
      | some r =>
          simp only []
          by_cases hgo : (r.running || r.finished) = true
          · rw [if_pos hgo, if_pos hgo]
            rfl
          · rw [if_neg hgo, if_neg hgo]
            rw [ensureMainA_eq hk, ok_bind, mainMco_ensured]
            rcases mainMco_keyed hk hroom e with ⟨hkv, hiv, hrv⟩
            generalize (w.mainMco t e).1 = v at *
            have hsub : sizeSub (v.callstack t).index 1 = (v.callstack t).index - 1 := if_pos hiv
            have hslot : (v.callstack t).slot ((v.callstack t).index - 1)
                = (v.callstack t).fromTop 1 := (if_pos hiv).symm
            have hkey := subscriptA_of_key (hkv.below ((v.callstack t).index - 1) (by omega))
            rw [hsub, hkey, ok_bind, hslot]
            simp only []
            cases hcur : (v.callstack t).fromTop 1 with
            | none => rfl
            | some cur =>
                simp only []
                cases hrc : v.co cur with
                | none => rfl
                | some rcur =>
                    simp only []
                    by_cases hsink : rcur.sink = some c
                    · rw [if_pos hsink, if_pos hsink]
                      exact mcoYieldA_eq hkv
                    · rw [if_neg hsink, if_neg hsink]
                      by_cases hst : r.start = true
                      · rw [if_pos hst, if_pos hst]
                        exact pushCallstackA_eq hkv hrv hiv
                      · rw [if_neg hst, if_neg hst]
                        have hown : v.initMcoContextA Asserts.sinkOnly t c r e.blk
                            = .ok (v.initMcoContext t c r e.blk) := rfl
                        rw [hown, ok_bind]
                        rcases hinit : v.initMcoContext t c r e.blk with ⟨b, u⟩
                        have hcs : u.callstack = v.callstack := by
                          have := congrArg (fun x => x.2.callstack) hinit
                          exact this.symm
                        cases b with
                        | false => rfl
                        | true =>
                            simp only []
                            cases u.co c with
                            | none => rfl
                            | some q =>
                                refine pushCallstackA_eq ?_ ?_ ?_
                                · rw [hcs]
                                  exact hkv
                                · rw [hcs]
                                  exact hrv
                                · rw [hcs]
                                  exact hiv

/-- The end of a callback. -/
theorem coroutineRunA_eq {sp : Nat} (hk : (w.callstack t).Keyed) :
    w.coroutineRunA Asserts.sinkOnly t sp = liftStop (w.coroutineRun t sp) := by
  unfold coroutineRunA coroutineRun
  cases w.exec t with
  | none => rfl
  | some c =>
      simp only []
      cases w.co c with
      | none => rfl
      | some r =>
          simp only []
          by_cases hend : (!r.running || ({ r with done := true } : McoRoutine).finished) = true
          · rw [if_pos hend, if_pos hend]
            rfl
          · rw [if_neg hend, if_neg hend]
            exact mcoYieldA_eq (w := w.setCo c { r with done := true }) hk

/-! ### Steps -/

/-- No thread's index is near the end of its range. -/
def Roomy (w : World) : Prop := ∀ t, (w.callstack t).index < 2 ^ 64 - 2

-- An operation that returns nothing but the state.
theorem muted_state (x : Except Stop World) :
    (x >>= fun v => Except.ok (v, (none : Option McoRef))).map Prod.fst = x := by
  cases x with
  | error f => rfl
  | ok v => rfl

/-- In a state whose call stacks are `Keyed`, one step of the two descriptions
    is the same, fault for fault. -/
theorem stepA_eq {a : Op} (hk : ∀ t, (w.callstack t).Keyed) (hroom : w.Roomy) :
    mute (World.stepA Asserts.sinkOnly) w a = liftStop (w.step a) := by
  cases a with
  | create t c usePrivate => rfl
  | mainMco t e => exact congrArg (Except.map Prod.fst) (mainMcoA_eq (hk t) e)
  | resume t co e => exact (muted_state _).trans (mcoResumeA_eq (hk t) (hroom t))
  | yield t co sp => exact (muted_state _).trans (mcoYieldA_eq (hk t))
  | finish t sp => exact (muted_state _).trans (coroutineRunA_eq (hk t))
  | free t co => exact muted_state _
  | write t a b => rfl

/-! ### The call stacks along a run -/

theorem enterCallback_callstack {w' : World} (h : w.enterCallback t = .ok w') :
    w'.callstack = w.callstack := by
  cases hx : w.exec t with
  | none =>
      rw [enterCallback, hx] at h
      cases h
  | some c =>
      rcases enterCallback_ok hx h with ⟨r, _, rfl⟩
      rfl

/-- `McoSwap` leaves the call stacks alone. -/
theorem mcoSwap_callstack {w' : World} {sink co : McoRef} {sp : Nat}
    (h : w.mcoSwap t sink co sp = .ok w') : w'.callstack = w.callstack := by
  rcases mcoSwap_parts h with ⟨w1, w2, w3, back, h1, h2, h3, h4⟩
  have hcs : w3.callstack = w.callstack := by
    rw [mcontextSwap_callstack h3, (occupy_sameControl h2).callstack,
      (saveSp_sameControl h1).callstack]
  cases back with
  | true => rw [(swapTail_sameControl h4).callstack, hcs]
  | false => rw [enterCallback_callstack h4, hcs]

-- One thread's call stack is replaced by another that is `Keyed`.
theorem keyed_update {w' : World} {s : McoCallStack} (hk : ∀ u, (w.callstack u).Keyed)
    (hs : s.Keyed) (h : w'.callstack = Function.update w.callstack t s) (u : Tid) :
    (w'.callstack u).Keyed := by
  rw [h]
  by_cases hu : u = t
  · rw [hu, Function.update_self]
    exact hs
  · rw [Function.update_of_ne hu]
    exact hk u

/-- Pushing a coroutine keeps the call stacks `Keyed`. -/
theorem keyed_pushed {w' : World} {c : McoRef} {r : McoRoutine} {sp : Nat}
    (hk : ∀ u, (w.callstack u).Keyed) (hroom : (w.callstack t).index < 2 ^ 64 - 2)
    (h : w.pushCallstack t c r sp = .ok w') (u : Tid) : (w'.callstack u).Keyed := by
  unfold pushCallstack at h
  simp only [] at h
  cases hs : ((w.callstack t).push c).fromTop 2 with
  | none =>
      rw [hs] at h
      cases h
  | some s =>
      rw [hs] at h
      rcases (bind_eq_ok_iff _ _ _).mp h with ⟨w1, h1, h2⟩
      rcases setRunning_ok h1 with ⟨q, _, rfl⟩
      exact keyed_update hk ((hk t).push hroom c) (mcoSwap_callstack h2) u

/-- A `McoYield` keeps them so, whether it takes one off or does nothing. -/
theorem keyed_yielded {w' : World} {co : Option McoRef} {sp : Nat}
    (hk : ∀ u, (w.callstack u).Keyed) (h : w.mcoYield t co sp = .ok w') (u : Tid) :
    (w'.callstack u).Keyed := by
  rcases mcoYield_cases h with ⟨rfl, _⟩ | ⟨c, r, s, _, _, _, _, _, _, w1, h1, h2⟩
  · exact hk u
  · rcases setRunning_ok h1 with ⟨q, _, rfl⟩
    exact keyed_update hk (hk t).pop (mcoSwap_callstack h2) u

/-- So does `MainMco`. -/
theorem keyed_main (hk : ∀ u, (w.callstack u).Keyed) (hroom : w.Roomy) (e : CallSite) (u : Tid) :
    ((w.mainMco t e).1.callstack u).Keyed := by
  by_cases h0 : (w.callstack t).index = 0
  · exact keyed_update hk ((hk t).push (hroom t) e.main) (mainMco_booted w t e h0).callstack u
  · rw [mainMco_of_nonempty h0]
    exact hk u

/-- Every step keeps the call stacks `Keyed`. -/
theorem keyed_step {w' : World} {a : Op} (hk : ∀ u, (w.callstack u).Keyed) (hroom : w.Roomy)
    (h : w.step a = .ok w') (u : Tid) : (w'.callstack u).Keyed := by
  cases a with
  | create t c usePrivate =>
      injection h with h
      rw [← h]
      exact hk u
  | mainMco t e =>
      injection h with h
      rw [← h]
      exact keyed_main hk hroom e u
  | resume t co e =>
      have hkm : ∀ u, ((w.mainMco t e).1.callstack u).Keyed := keyed_main hk hroom e
      have hrm := (mainMco_keyed (hk t) (hroom t) e).2.2
      rcases mcoResume_cases h with ⟨rfl, _⟩ |
        ⟨c, r, cur, rcur, _, _, _, _, _, _, ⟨_, hy⟩ | ⟨_, _, hp⟩ | ⟨_, _, hp⟩⟩
      · exact hk u
      · exact keyed_yielded hkm hy u
      · exact keyed_pushed hkm hrm hp u
      -- Making a context and a stack touches no call stack.
      · exact keyed_pushed (w := ((w.mainMco t e).1.started t c r e.blk).1) hkm hrm hp u
  | yield t co sp => exact keyed_yielded hk h u
  | finish t sp =>
      rcases coroutineRun_cases h with ⟨c, r, _, _, _, _, hy⟩
      exact keyed_yielded (w := w.setCo c { r with done := true }) hk hy u
  | free t co =>
      rcases mcoFree_cases h with ⟨_, rfl⟩ | ⟨c, r, _, _, _, rfl⟩ | ⟨c, r, _, _, _, rfl⟩
      · exact hk u
      · exact hk u
      · by_cases ho : (w.mgr t).commonOccupy = some c
        · simp only [if_pos ho]
          exact hk u
        · simp only [if_neg ho]
          exact hk u
  | write t a b =>
      injection h with h
      rw [← h]
      exact hk u

end World

/-- The empty call stacks a program starts with. -/
theorem keyed_init {w : World} (hinit : Init w) (t : Tid) : (w.callstack t).Keyed := by
  rw [hinit.callstack t]
  exact ⟨fun i hi => absurd hi (Nat.not_lt_zero i), fun _ _ => rfl⟩

theorem liftStop_eq_ok {α : Type} {x : Except Fault α} {a : α} (h : liftStop x = .ok a) :
    x = .ok a := by
  cases x with
  | error f => cases h
  | ok b =>
      injection h with h
      rw [h]

/-- Wherever a run has led, the next step is the same in both descriptions,
    also if it faults. -/
theorem stepA_eq_of_runs {ok : World → Op → Prop} (hok : ∀ w a, ok w a → w.Roomy)
    {w w' : World} {as : List Op} (hinit : Init w) (hrun : Runs World.step ok w as w') (a : Op)
    (ha : ok w' a) : mute (World.stepA Asserts.sinkOnly) w' a = liftStop (w'.step a) := by
  have hk : ∀ t, (w'.callstack t).Keyed :=
    hrun.invariant (fun v b v' hv hb hst => World.keyed_step hv (hok v b hb) hst)
      (keyed_init hinit)
  exact World.stepA_eq hk (hok w' a ha)

/-- The two descriptions have the same runs. -/
theorem runs_iff_runsA {ok : World → Op → Prop} (hok : ∀ w a, ok w a → w.Roomy)
    {w w' : World} {as : List Op} (hinit : Init w) :
    Runs World.step ok w as w' ↔ Runs (mute (World.stepA Asserts.sinkOnly)) ok w as w' := by
  refine runs_congr (I := fun v => ∀ t, (v.callstack t).Keyed) ?_ ?_ (keyed_init hinit)
  · intro v a v' hk ha hst
    exact World.keyed_step hk (hok v a ha) hst
  · intro v a v' hk ha
    rw [World.stepA_eq hk (hok v a ha)]
    exact ⟨fun h => by rw [h]; rfl, liftStop_eq_ok⟩

end Fasco
