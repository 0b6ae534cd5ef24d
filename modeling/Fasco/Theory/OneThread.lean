import Fasco.Theory.Contents

/-!
# One Thread That Behaves

Runs of coroutine operations on one thread, used the way an event loop uses
them: nobody resumes a coroutine that waits further down than the one that
resumed the caller, nobody yields the main coroutine, and nobody frees a
coroutine in the call stack.

`Disciplined` is that promise. Under it the invariants of the earlier files
hold in every state a run reaches (`carried_run`), and with them what a caller
of `McoYield` wants to know: `common_stack_survives` says that a coroutine on
the common block finds its stack as it left it.

## Main definitions

* `Disciplined`: The promise of the callers.
* `OnThread`: An operation of the thread that keeps it.

## Theorems

* `flat_of_disciplined`: What the promise means for the call stack.
* `carried_run`: The invariant holds along every run.
* `common_stack_survives`: A stack comes back as it was.
-/

namespace Fasco

open World

/-- No resume of a coroutine below the caller's parent, no yield of a main
    coroutine, no freeing of a coroutine in the call stack. -/
def Disciplined (w : World) : Op → Prop
  | .resume t (some c) _ => ∀ i, i + 2 < (w.callstack t).index → (w.callstack t).slot i ≠ some c
  | .yield _ (some c) _ => w.mainOf c ≠ some true
  | .free t (some c) => ∀ i, i < (w.callstack t).index → (w.callstack t).slot i ≠ some c
  | _ => True

/-- An operation of thread `t` by code that keeps the promise. -/
def OnThread (t : Tid) (w : World) (a : Op) : Prop :=
  a.thread = t ∧ Admissible w a ∧ Disciplined w a

instance (w : World) : ∀ a, Decidable (Disciplined w a)
  | .resume t (some c) _ => decidable_of_iff
      (∀ i, i < (w.callstack t).index - 2 → (w.callstack t).slot i ≠ some c)
      ⟨fun h i hi => h i (by omega), fun h i hi => h i (by omega)⟩
  | .yield _ (some c) _ => inferInstanceAs (Decidable (w.mainOf c ≠ some true))
  | .free t (some c) => inferInstanceAs
      (Decidable (∀ i, i < (w.callstack t).index → (w.callstack t).slot i ≠ some c))
  | .create _ _ _ => isTrue trivial
  | .mainMco _ _ => isTrue trivial
  | .resume _ none _ => isTrue trivial
  | .yield _ none _ => isTrue trivial
  | .finish _ _ => isTrue trivial
  | .free _ none => isTrue trivial
  | .write _ _ _ => isTrue trivial

instance (t : Tid) (w : World) (a : Op) : Decidable (OnThread t w a) :=
  inferInstanceAs (Decidable (_ ∧ _ ∧ _))

/-- On a thread that is alone in using coroutines, the promise leaves the
    call stack flat. -/
theorem flat_of_disciplined {w : World} {f : Frames} {t : Tid} {a : Op} (ho : Orderly w f)
    (halone : ∀ u, u ≠ t → f u = []) (ht : a.thread = t) (hd : Disciplined w a) : Flat w a := by
  -- A coroutine waits on `t` or nowhere.
  have hon : ∀ u c, w.Waits u c → u = t := by
    intro u c hw
    by_contra hu
    have hmem := ho.waits_iff.mp hw
    rw [halone u hu] at hmem
    exact List.not_mem_nil hmem
  cases a with
  | resume v co e =>
      cases co with
      | none => trivial
      | some c =>
          change v = t at ht
          intro u hw
          have hu := hon u c hw
          refine ⟨hu.trans ht.symm, ?_⟩
          rw [hu] at hw
          rcases hw with ⟨i, hi, hs⟩
          rw [ht] at hd ⊢
          have hnot : ¬ i + 2 < (w.callstack t).index := fun hlt => hd i hlt hs
          unfold World.parent McoCallStack.fromTop
          rw [if_pos (by omega), show (w.callstack t).index - 2 = i by omega]
          exact hs
  | free v co =>
      cases co with
      | none => trivial
      | some c =>
          change v = t at ht
          intro u hw
          have hu := hon u c hw
          rw [hu] at hw
          rcases hw with ⟨i, hi, hs⟩
          rw [ht] at hd
          exact hd i (by omega) hs
  | create _ _ _ => trivial
  | mainMco _ _ => trivial
  | yield _ _ _ => trivial
  | finish _ _ => trivial
  | write _ _ _ => trivial

/-- A step of the thread keeps the invariant, and what the others own. -/
theorem onThread_step {w w' : World} {t : Tid} {a : Op} (hc : ∃ f, Carried w f t)
    (ha : OnThread t w a) (h : w.step a = .ok w') : (∃ f, Carried w' f t) ∧ Kept w w' t := by
  rcases hc with ⟨f, hc⟩
  rcases ha with ⟨ht, hadm, hd⟩
  rcases carried_step hc ht hadm (flat_of_disciplined hc.orderly hc.alone ht hd) h
    with ⟨f', hc', hk⟩
  exact ⟨⟨f', hc'⟩, hk⟩

/-- The invariant holds wherever a run ends. -/
theorem carried_run {w w' : World} {t : Tid} {as : List Op} (hinit : Init w)
    (h : Fallible.Runs World.step (OnThread t) w as w') : ∃ f, Carried w' f t :=
  h.invariant (I := fun v => ∃ f, Carried v f t)
    (fun _ _ _ hc ha hstep => (onThread_step hc ha hstep).1) ⟨_, carried_init hinit t⟩

/-- While `c` does not run, it owns what it owned, unless it is gone. -/
theorem content_run {w w' : World} {t : Tid} {c : McoRef} {as : List Op}
    {X : Option (Nat × Nat × List UInt8)} (hc : ∃ f, Carried w f t)
    (h : Fallible.Runs World.step (fun v a => OnThread t v a ∧ v.exec t ≠ some c) w as w')
    (hx' : w'.exec t ≠ some c) (hX : w.client c = none ∨ (w.block t).content c = X) :
    w'.client c = none ∨ (w'.block t).content c = X := by
  have hinv : (∃ f, Carried w' f t) ∧
      (w'.exec t ≠ some c → w'.client c = none ∨ (w'.block t).content c = X) := by
    refine h.invariant (I := fun v => (∃ f, Carried v f t) ∧
      (v.exec t ≠ some c → v.client c = none ∨ (v.block t).content c = X)) ?_ ⟨hc, fun _ => hX⟩
    rintro v a v' ⟨hcv, hv⟩ ⟨ha, hxv⟩ hstep
    rcases onThread_step hcv ha hstep with ⟨hcv', hk⟩
    refine ⟨hcv', fun hxv' => ?_⟩
    cases hcl : v'.client c with
    | none => exact Or.inl rfl
    | some k =>
        right
        rcases hk.other c k hcl hxv with ⟨_, hx1⟩ | heq
        · exact absurd hx1 hxv'
        · rw [heq]
          rcases hv hxv with hn | hX'
          · -- Owning something now, `c` owned it before.
            exfalso
            have hcl' : (v'.block t).client c = some k := hcl
            have hsome := Spill.Block.content_eq hcl'
            have hn' : (v.block t).client c = none := hn
            rw [heq, Spill.Block.content, hn'] at hsome
            cases hsome
          · exact hX'
  exact hinv.2 hx'

-- The proof follows the bytes of `c` through the three stretches of the run: given up at
-- `a`, kept while others run, in place again after `b`.
/-- A coroutine on the common block that regains control finds, from its saved
    stack pointer to the base of its stack, the bytes that were there when it
    gave control up. -/
theorem common_stack_survives {w0 w1 w2 w3 w4 : World} {t : Tid} {c : McoRef} {as bs : List Op}
    {a b : Op} {r : McoRoutine} {s : McoStack} (hinit : Init w0)
    (hbefore : Fallible.Runs World.step (OnThread t) w0 as w1)
    (ha : OnThread t w1 a) (hgive : w1.step a = .ok w2)
    (hrun : w1.exec t = some c) (hleft : w2.exec t ≠ some c)
    (hothers : Fallible.Runs World.step (fun v o => OnThread t v o ∧ v.exec t ≠ some c) w2 bs w3)
    (haway : w3.exec t ≠ some c) (hr : w3.co c = some r) (hstart : r.start = true)
    (hs : w3.stack c = some s) (hcommon : s.isPrivate = false)
    (hb : OnThread t w3 b) (hregain : w3.step b = .ok w4) (hback : w4.exec t = some c) :
    ∃ s2 s4, w2.stack c = some s2 ∧ w4.stack c = some s4 ∧
      s2.stackSp = s4.stackSp ∧ s2.stackBp = s4.stackBp ∧
      ∀ x, s4.stackSp ≤ x → x < s4.stackBp → w4.mem x = w1.mem x := by
  have hc1 := carried_run hinit hbefore
  rcases onThread_step hc1 ha hgive with ⟨hc2, hk12⟩
  have hcl3 : w3.client c = some (region s r.stackStore) := by
    rw [client_eq hr hs, hstart, hcommon]
    rfl
  have hkeep := content_run hc2 hothers haway (Or.inr rfl)
  rcases hkeep with hn | hX
  · rw [hcl3] at hn
    cases hn
  · have hcl3' : (w3.block t).client c = some (region s r.stackStore) := hcl3
    rw [Spill.Block.content_eq hcl3'] at hX
    rcases Option.map_eq_some_iff.mp hX.symm with ⟨k2, hk2, htri2⟩
    have hcl2 : w2.client c = some k2 := hk2
    -- What `c` owned when it gave up control is what the block held.
    have hgave := hk12.caller c k2 hcl2 hrun hleft
    have hc3 : ∃ f, Carried w3 f t :=
      hothers.invariant (I := fun v => ∃ f, Carried v f t)
        (fun _ _ _ hc ho hstep => (onThread_step hc ho.1 hstep).1) hc2
    rcases onThread_step hc3 hb hregain with ⟨⟨f4, hc4⟩, hk34⟩
    have hhead4 : (f4 t).head? = some c := by
      rw [← hc4.orderly.steady.exec t, hback]
    rcases hc4.orderly.steady.ready t c (List.mem_of_head? hhead4) with ⟨r4, hr4, _⟩
    rcases hk34.stays c _ hcl3 haway with hgone | ⟨k4, hcl4⟩
    · rw [ctl_eq_none.mpr hgone] at hr4
      cases hr4
    · rcases hk34.other c k4 hcl4 haway with ⟨hn, _⟩ | heq
      · rw [hcl3] at hn
        cases hn
      · have hcl4' : (w4.block t).client c = some k4 := hcl4
        rw [Spill.Block.content_eq hcl4', Spill.Block.content_eq hcl3', ← htri2] at heq
        injection heq with heq
        injection heq with hlo heq
        injection heq with hhi hcontent
        have hsaved := hc4.settled c k4 (hc4.holder c k4 hhead4 hcl4) hcl4
        rw [Spill.Client.content_unsaved hsaved] at hcontent
        rcases client_eq_some.mp hcl2 with ⟨r2, s2, _, hs2, _, _, hreg2⟩
        rcases client_eq_some.mp hcl4 with ⟨r4', s4, _, hs4, _, _, hreg4⟩
        have hlo2 : s2.stackSp = k2.lo := by rw [← hreg2]; rfl
        have hhi2 : s2.stackBp = k2.hi := by rw [← hreg2]; rfl
        have hlo4 : s4.stackSp = k4.lo := by rw [← hreg4]; rfl
        have hhi4 : s4.stackBp = k4.hi := by rw [← hreg4]; rfl
        refine ⟨s2, s4, hs2, hs4, by rw [hlo2, hlo4, hlo], by rw [hhi2, hhi4, hhi], ?_⟩
        intro x hx1 hx2
        have hread : Spill.read w4.mem k4.lo (k4.hi - k4.lo)
            = Spill.read w1.mem k4.lo (k4.hi - k4.lo) := by
          have hcontent' : Spill.read w4.mem k4.lo (k4.hi - k4.lo) = k2.content w2.mem := hcontent
          rw [hcontent', hgave, hlo, hhi]
        exact Spill.read_eq hread x (by omega) (by omega)

/-- A coroutine stores a byte and yields; another stores a byte at the same
    place and yields; the first is resumed. -/
theorem common_stack_survives_two :
    let e : CallSite := { sp := 0, main := 1, mainBlk := 0x7000, blk := 0 }
    let w1 := Fallible.after World.step World.blank
      [.create 0 10 false, .create 0 11 false, .resume 0 (some 10) e, .write 0 0x10ff0 7]
    let w2 := Fallible.next World.step w1 (.yield 0 (some 10) 0x10fe0)
    let w3 := Fallible.after World.step w2
      [.resume 0 (some 11) e, .write 0 0x10ff0 9, .yield 0 (some 11) 0x10fd0]
    let w4 := Fallible.next World.step w3 (.resume 0 (some 10) e)
    ∃ s2 s4, w2.stack 10 = some s2 ∧ w4.stack 10 = some s4 ∧
      s2.stackSp = s4.stackSp ∧ s2.stackBp = s4.stackBp ∧
      ∀ x, s4.stackSp ≤ x → x < s4.stackBp → w4.mem x = w1.mem x :=
  common_stack_survives (t := 0) (c := 10) blank_init
    (Fallible.Checks.runs (by decide)) (by decide) (Fallible.step_next (by decide)) (by decide)
    (by decide) (Fallible.Checks.runs (by decide)) (by decide) rfl rfl rfl rfl
    (by decide) (Fallible.step_next (by decide)) (by decide)

end Fasco
