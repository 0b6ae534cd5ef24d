import Fasco.Theory.SharedStack

/-!
# Ready to Switch

What `McoYield` and `McoResume` do between their checks and their `McoSwap`,
as far as the common block is concerned. A coroutine whose callback has ended
stops being a client; one that is resumed for the first time becomes one; in
every other case the block sees nothing. In each case the state is one a switch
can be made from (`SwapReady`).

## Main definitions

* `World.beforePop`, `World.beforePush`: The states `McoYield` and `McoResume`
  call `McoSwap` in.

## Theorems

* `Backed.change`: One coroutine's record and stack change.
* `mcoYield_eq`, `pushCallstack_eq`: The switching branches as a state and a
  switch.
* `beforePop_ready`, `beforePush_ready`, `started_ready`: Those states are
  ready to switch.
-/

namespace Fasco

namespace World

/-! ### Changes to one coroutine -/

/-- The record and the stack of `c` change, so that `c` is not stored. Whether
    `c` is a client afterwards is left to the caller. -/
theorem Backed.change {w w' : World} {t : Tid} {c : McoRef} {b : Option McoRef}
    (hb : Backed w t none) (hs : (w.block t).Settled)
    (hduty : ∀ d, d ≠ c → w'.duty d = w.duty d) (hstack : ∀ d, d ≠ c → w'.stack d = w.stack d)
    (hocc : ∀ o, (w'.mgr t).commonOccupy = some o → (w.mgr t).commonOccupy = some o)
    (hocc' : ∀ o, o ≠ c → (w.mgr t).commonOccupy = some o → (w'.mgr t).commonOccupy = some o)
    (hself : (w'.mgr t).commonOccupy = some c → ∃ r s, w'.co c = some r ∧ w'.stack c = some s ∧
      s.isPrivate = false ∧ (r.start = true ∨ r.finished = true))
    (hflag : ∀ r, w'.co c = some r → r.stackStore = false)
    (hbegun : ∀ r, w'.co c = some r → r.start = true → r.finished = false ∧ (w'.stack c).isSome)
    (hfit : ∀ k, w'.client c = some k → b = some c ∨ (w'.mgr t).commonOccupy = some c) :
    Backed w' t b ∧ (w'.block t).Settled := by
  have hunsaved : ∀ k, w'.client c = some k → k.saved = none := by
    intro k hk
    rcases client_eq_some.mp hk with ⟨r, s, hr, _, _, _, hk'⟩
    rw [← hk']
    simp only [region, hflag r hr, Bool.false_eq_true, if_false]
  have hclient : ∀ d, d ≠ c → w'.client d = w.client d := fun d hd =>
    client_congr (hduty d hd) (hstack d hd)
  have hrec : ∀ d r', d ≠ c → w'.co d = some r' → ∃ r, w.co d = some r ∧ r'.start = r.start ∧
      r'.finished = r.finished ∧ r'.stackStore = r.stackStore := by
    intro d r' hd hr'
    have h := hduty d hd
    simp only [duty, hr', Option.map_some] at h
    rcases Option.map_eq_some_iff.mp h.symm with ⟨r, hr, heq⟩
    injection heq with h1 h2
    injection h2 with h2 h3
    exact ⟨r, hr, h1.symm, h2.symm, h3.symm⟩
  -- Each part is asked of `c` and of the others: for `c` it is a hypothesis, and the
  -- others are as they were.
  refine ⟨⟨⟨?_, ?_⟩, ?_, ?_, ?_⟩, ?_⟩
  · intro d k hk hne hh
    by_cases hd : d = c
    · rw [hd] at hk hne hh
      rcases hfit k hk with hbc | hoc
      · exact absurd hbc.symm hne
      · exact absurd hoc hh
    · have hk' : (w.block t).client d = some k := (hclient d hd).symm.trans hk
      exact hb.fit.placed d k hk' (fun he => by cases he) (fun he => hh (hocc' d hd he))
  · intro d k hk l hl
    by_cases hd : d = c
    · rw [hd] at hk
      rw [hunsaved k hk] at hl
      cases hl
    · have hk' : (w.block t).client d = some k := (hclient d hd).symm.trans hk
      exact hb.fit.sized d k hk' l hl
  · intro o ho
    by_cases hoc : o = c
    · rw [hoc] at ho ⊢
      exact hself ho
    · rcases hb.occ o (hocc o ho) with ⟨r, s, hr, hso, hp, hst⟩
      have h := hduty o hoc
      simp only [duty, hr, Option.map_some] at h
      rcases Option.map_eq_some_iff.mp h with ⟨r', hr', heq⟩
      injection heq with h1 h2
      injection h2 with h2 _
      exact ⟨r', s, hr', by rw [hstack o hoc]; exact hso, hp, by rw [h1, h2]; exact hst⟩
  · intro d r' hr' hst
    by_cases hd : d = c
    · rw [hd] at hr'
      rw [hflag r' hr'] at hst
      cases hst
    · rcases hrec d r' hd hr' with ⟨r, hr, h1, _, h3⟩
      rw [h3] at hst
      rw [h1, hstack d hd]
      exact hb.stored d r hr hst
  · intro d r' hr' hst
    by_cases hd : d = c
    · rw [hd] at hr' ⊢
      exact hbegun r' hr' hst
    · rcases hrec d r' hd hr' with ⟨r, hr, h1, h2, _⟩
      rw [h1] at hst
      rw [h2, hstack d hd]
      exact hb.begun d r hr hst
  · intro d k hh hk
    by_cases hd : d = c
    · rw [hd] at hk
      exact hunsaved k hk
    · have hk' : (w.block t).client d = some k := (hclient d hd).symm.trans hk
      exact hs d k (hocc d hh) hk'

theorem content_congr {w w' : World} {t : Tid} {d : McoRef} (hd : w'.duty d = w.duty d)
    (hs : w'.stack d = w.stack d) (hmem : w'.mem = w.mem) :
    (w'.block t).content d = (w.block t).content d := by
  have hclient : (w'.block t).client d = (w.block t).client d := client_congr hd hs
  have hm : (w'.block t).mem = (w.block t).mem := hmem
  simp only [Spill.Block.content, hclient, hm]

theorem Backed.weaken {w : World} {t : Tid} (hb : Backed w t none) (b : Option McoRef) :
    Backed w t b :=
  ⟨⟨fun c k hk _ hh => hb.fit.placed c k hk (fun he => by cases he) hh, hb.fit.sized⟩, hb.occ,
    hb.stored, hb.begun⟩

/-! ### The states a switch starts from -/

/-- Where `McoYield` of `c` calls `McoSwap`. -/
def beforePop (w : World) (t : Tid) (c : McoRef) (r : McoRoutine) (s : McoRef) (rs : McoRoutine) :
    World :=
  ((w.setCallstack t (w.callstack t).pop).setCo c r.giveUp).setCo s { rs with running := true }

/-- Where the pushing branch of `McoResume` calls `McoSwap`. -/
def beforePush (w : World) (t : Tid) (cur : McoRef) (rcur : McoRoutine) (c : McoRef)
    (r : McoRoutine) : World :=
  ((w.setCallstack t ((w.callstack t).push c)).setCo c (r.takeOver (some cur))).setCo cur
    { rcur with running := false }

theorem mcoYield_eq {w : World} {t : Tid} {c s : McoRef} {r rs : McoRoutine} {sp : Nat}
    (hr : w.co c = some r) (hrun : r.running = true) (hfin : r.finished = false)
    (hsink : r.sink = some s) (hbelow : (w.callstack t).fromTop 2 = some s) (hne : c ≠ s)
    (hrs : w.co s = some rs) :
    w.mcoYield t (some c) sp = (w.beforePop t c r s rs).mcoSwap t c s sp := by
  unfold mcoYield
  simp only [hr]
  rw [if_neg (by rw [hrun, hfin]; decide), if_neg (by rw [hsink, hbelow]; exact fun h => h rfl)]
  simp only [hsink]
  have hset : ((w.setCallstack t { w.callstack t with index := (w.callstack t).index - 1 }).setCo c
      r.giveUp).setRunning s true = .ok (w.beforePop t c r s rs) := by
    unfold setRunning
    have hs : ((w.setCallstack t { w.callstack t with index := (w.callstack t).index - 1 }).setCo c
        r.giveUp).co s = some rs := by
      simp only [setCo, setCallstack, Function.update_of_ne hne.symm]
      exact hrs
    rw [hs]
    rfl
  rw [hset]
  rfl

theorem pushCallstack_eq {w : World} {t : Tid} {cur c : McoRef} {r rcur : McoRoutine} {sp : Nat}
    (htop : w.top t = some cur) (hne : cur ≠ c) (hrcur : w.co cur = some rcur) :
    w.pushCallstack t c r sp = (w.beforePush t cur rcur c r).mcoSwap t cur c sp := by
  unfold pushCallstack
  have hsink : ((w.callstack t).push c).fromTop 2 = some cur := by
    rw [McoCallStack.push_fromTop_two]
    exact htop
  simp only [hsink]
  have hset : ((w.setCallstack t ((w.callstack t).push c)).setCo c
      (r.takeOver (some cur))).setRunning cur false = .ok (w.beforePush t cur rcur c r) := by
    unfold setRunning
    have hs : ((w.setCallstack t ((w.callstack t).push c)).setCo c (r.takeOver (some cur))).co cur
        = some rcur := by
      simp only [setCo, setCallstack, Function.update_of_ne hne]
      exact hrcur
    rw [hs]
    rfl
  rw [hset]
  rfl

/-- A started coroutine that has the block if it is on it is not stored. -/
theorem unstored {w : World} {t : Tid} {b : Option McoRef} {c : McoRef} {r : McoRoutine}
    (hb : Backed w t b) (hs : (w.block t).Settled) (hr : w.co c = some r)
    (hhold : ∀ k, w.client c = some k → (w.mgr t).commonOccupy = some c) :
    r.stackStore = false := by
  cases hflag : r.stackStore with
  | false => rfl
  | true =>
      exfalso
      rcases hb.stored c r hr hflag with ⟨hst, s, hsc, hp, _⟩
      have hk : w.client c = some (region s true) := by
        rw [client_eq hr hsc, hst, hp, hflag]
        rfl
      -- A stored coroutine is a client, and whoever has the block is not stored.
      have hn := hs c _ (hhold _ hk) hk
      simp only [region, if_true] at hn
      cases hn

/-- What `McoYield` has done before it switches leaves the block ready: the
    coroutine has stopped being a client if its callback has ended. -/
theorem beforePop_ready {w : World} {t : Tid} {c s : McoRef} {r rs : McoRoutine}
    (hb : Backed w t none) (hset : (w.block t).Settled) (hr : w.co c = some r)
    (hhold : ∀ k, w.client c = some k → (w.mgr t).commonOccupy = some c) (hne : c ≠ s)
    (hrs : w.co s = some rs) (hrst : rs.start = true)
    (hsaved : ∀ m, rs.coctx.ctx = some m → m.regs = .inSwap (some s))
    (htop : (w.callstack t).pop.getCurMco = some s) :
    SwapReady (w.beforePop t c r s rs) t c s ∧
      (∀ d k, (w.beforePop t c r s rs).client d = some k → w.client d = some k ∧
        ((w.beforePop t c r s rs).block t).content d = (w.block t).content d) ∧
      ∀ d, d ≠ c → (w.beforePop t c r s rs).client d = w.client d := by
  have hrs1 : ((w.setCallstack t (w.callstack t).pop).setCo c r.giveUp).co s = some rs := by
    simp only [setCo, setCallstack, Function.update_of_ne hne.symm]
    exact hrs
  have hduty2 : (w.beforePop t c r s rs).duty
      = ((w.setCallstack t (w.callstack t).pop).setCo c r.giveUp).duty :=
    setCo_duty _ hrs1 rfl
  -- The state after `c` has been marked, in both cases, and what is left of the clients.
  have hmid : Backed ((w.setCallstack t (w.callstack t).pop).setCo c r.giveUp) t none ∧
      (((w.setCallstack t (w.callstack t).pop).setCo c r.giveUp).block t).Settled ∧
      ∀ d k, ((w.setCallstack t (w.callstack t).pop).setCo c r.giveUp).client d = some k →
        w.client d = some k ∧ (((w.setCallstack t (w.callstack t).pop).setCo c r.giveUp).block
          t).content d = (w.block t).content d := by
    cases hdone : r.done with
    | false =>
        -- The callback has not ended: what the block goes by stays the same.
        have hgive : (r.giveUp.start, r.giveUp.finished, r.giveUp.stackStore)
            = (r.start, r.finished, r.stackStore) := by
          simp only [McoRoutine.giveUp, McoRoutine.endDone, McoRoutine.finished, hdone,
            Bool.false_eq_true, if_false, Bool.false_and]
        have hd1 := setCo_duty (w.setCallstack t (w.callstack t).pop) hr hgive
        rcases hb.congr hd1 rfl rfl rfl with ⟨hblk, hbk⟩
        refine ⟨hbk, by rw [hblk]; exact hset, fun d k hk => ⟨?_, by rw [hblk]⟩⟩
        rw [← hk]
        exact (client_congr (congrFun hd1 d) rfl).symm
    -- The callback has ended, so `c` is no client any more.
    | true =>
        have hstart : r.giveUp.start = false := by
          simp only [McoRoutine.giveUp, McoRoutine.endDone, hdone, if_true]
        have hfin : r.giveUp.finished = true := by
          simp only [McoRoutine.giveUp, McoRoutine.endDone, McoRoutine.finished, hdone, if_true,
            Bool.and_self]
        have hstore : r.giveUp.stackStore = false := by
          have h0 := unstored hb hset hr hhold
          simp only [McoRoutine.giveUp, McoRoutine.endDone, hdone, if_true]
          exact h0
        have hself : ((w.setCallstack t (w.callstack t).pop).setCo c r.giveUp).co c
            = some r.giveUp := by
          simp only [setCo, Function.update_self]
        have hnone : ((w.setCallstack t (w.callstack t).pop).setCo c r.giveUp).client c = none := by
          cases hk : ((w.setCallstack t (w.callstack t).pop).setCo c r.giveUp).client c with
          | none => rfl
          | some k =>
              rcases client_eq_some.mp hk with ⟨r1, _, hr1, _, hst1, _⟩
              rw [hself] at hr1
              injection hr1 with hr1
              rw [← hr1, hstart] at hst1
              cases hst1
        have hch : Backed ((w.setCallstack t (w.callstack t).pop).setCo c r.giveUp) t none ∧
            (((w.setCallstack t (w.callstack t).pop).setCo c r.giveUp).block t).Settled :=
          hb.change (c := c) hset
          (fun d hd => setCo_duty_of_ne (w.setCallstack t (w.callstack t).pop) r.giveUp hd)
          (fun _ _ => rfl) (fun _ ho => ho) (fun _ _ ho => ho)
          (fun ho => by
            rcases hb.occ c ho with ⟨_, so, _, hso, hp, _⟩
            exact ⟨_, so, hself, hso, hp, Or.inr hfin⟩)
          (fun r1 hr1 => by
            rw [hself] at hr1
            injection hr1 with hr1
            rw [← hr1]
            exact hstore)
          (fun r1 hr1 hst1 => by
            rw [hself] at hr1
            injection hr1 with hr1
            rw [← hr1, hstart] at hst1
            cases hst1)
          (fun k hk => by
            rw [hnone] at hk
            cases hk)
        refine ⟨hch.1, hch.2, fun d k hk => ?_⟩
        have hdc : d ≠ c := by
          rintro rfl
          rw [hnone] at hk
          cases hk
        have hdd := setCo_duty_of_ne (w.setCallstack t (w.callstack t).pop) r.giveUp hdc
        refine ⟨?_, content_congr hdd rfl rfl⟩
        rw [← hk]
        exact (client_congr hdd rfl).symm
  rcases hmid with ⟨hbk, hset1, hcl⟩
  rcases hbk.congr hduty2 rfl rfl rfl with ⟨hblk, hbk2⟩
  have hclient2 : (w.beforePop t c r s rs).client
      = ((w.setCallstack t (w.callstack t).pop).setCo c r.giveUp).client :=
    congrArg Spill.Block.client hblk
  refine ⟨⟨hbk2.weaken _, by rw [hblk]; exact hset1, ?_, ?_, ?_⟩, ?_, ?_⟩
  · intro k hk
    rw [hclient2] at hk
    exact hhold k (hcl c k hk).1
  · refine ⟨{ rs with running := true }, ?_, hrst, ?_⟩
    · simp only [beforePop, setCo, Function.update_self]
    · intro m hm he
      rw [hsaved m hm] at he
      cases he
  · have : (w.beforePop t c r s rs).callstack t = (w.callstack t).pop := by
      simp only [beforePop, setCo, setCallstack, Function.update_self]
    rw [this]
    exact htop
  · intro d k hk
    rw [hclient2] at hk
    rw [hblk]
    exact hcl d k hk
  · intro d hd
    rw [hclient2]
    exact client_congr (setCo_duty_of_ne (w.setCallstack t (w.callstack t).pop) r.giveUp hd) rfl

/-- What `McoResume` has done before it switches to a coroutine that has run
    before leaves the block ready. -/
theorem beforePush_ready {w : World} {t : Tid} {cur c : McoRef} {rcur r : McoRoutine}
    (hb : Backed w t (some c)) (hset : (w.block t).Settled) (hrcur : w.co cur = some rcur)
    (hhold : ∀ k, w.client cur = some k → (w.mgr t).commonOccupy = some cur) (hne : cur ≠ c)
    (hr : w.co c = some r) (hst : r.start = true)
    (hflag : ∀ m, r.coctx.ctx = some m → m.regs = .entry c → r.stackStore = false)
    (htop : ((w.callstack t).push c).getCurMco = some c) :
    SwapReady (w.beforePush t cur rcur c r) t cur c ∧
      (w.beforePush t cur rcur c r).block t = w.block t := by
  -- Neither record changes in a field that the block goes by.
  have hd1 : ((w.setCallstack t ((w.callstack t).push c)).setCo c (r.takeOver (some cur))).duty
      = w.duty := setCo_duty (w.setCallstack t ((w.callstack t).push c)) hr rfl
  have hrcur1 : ((w.setCallstack t ((w.callstack t).push c)).setCo c (r.takeOver (some cur))).co cur
      = some rcur := by
    simp only [setCo, setCallstack, Function.update_of_ne hne]
    exact hrcur
  have hd2' : (w.beforePush t cur rcur c r).duty = ((w.setCallstack t
      ((w.callstack t).push c)).setCo c (r.takeOver (some cur))).duty := setCo_duty _ hrcur1 rfl
  have hd2 := hd2'.trans hd1
  rcases hb.congr hd2 rfl rfl rfl with ⟨hblk, hbk⟩
  refine ⟨⟨hbk, by rw [hblk]; exact hset, ?_, ?_, ?_⟩, hblk⟩
  · intro k hk
    refine hhold k ?_
    rw [← hk]
    exact (client_congr (congrFun hd2 cur) rfl).symm
  · refine ⟨r.takeOver (some cur), ?_, hst, hflag⟩
    simp only [beforePush, setCo, Function.update_of_ne hne.symm, Function.update_self]
  · have : (w.beforePush t cur rcur c r).callstack t = (w.callstack t).push c := by
      simp only [beforePush, setCo, setCallstack, Function.update_self]
    rw [this]
    exact htop

/-- A coroutine that is started becomes a client whose bytes are not in the
    block yet. -/
theorem started_ready {w : World} {t : Tid} {c : McoRef} {r : McoRoutine} (blk : Nat)
    (hb : Backed w t none) (hset : (w.block t).Settled) (hr : w.co c = some r)
    (hst : r.start = false) (hfin : r.finished = false) :
    Backed ((w.started t c r blk).1.setCo c (w.started t c r blk).2) t (some c) ∧
      (((w.started t c r blk).1.setCo c (w.started t c r blk).2).block t).Settled ∧
      ∀ d, d ≠ c → (((w.started t c r blk).1.setCo c (w.started t c r blk).2).block t).content d
        = (w.block t).content d := by
  have hocc : (w.mgr t).commonOccupy ≠ some c := by
    intro ho
    rcases hb.occ c ho with ⟨r1, _, hr1, _, _, hst1⟩
    rw [hr] at hr1
    injection hr1 with hr1
    rw [← hr1, hst, hfin] at hst1
    rcases hst1 with h | h <;> cases h
  have hself : ((w.started t c r blk).1.setCo c (w.started t c r blk).2).co c
      = some (w.started t c r blk).2 := by
    simp only [setCo, Function.update_self]
  have hduty : ∀ d, d ≠ c → ((w.started t c r blk).1.setCo c (w.started t c r blk).2).duty d
      = w.duty d := by
    intro d hd
    simp only [duty, started, initMcoContext, setCo, setStack, Function.update_of_ne hd]
  have hstack : ∀ d, d ≠ c → ((w.started t c r blk).1.setCo c (w.started t c r blk).2).stack d
      = w.stack d := by
    intro d hd
    simp only [started, initMcoContext, setCo, setStack, Function.update_of_ne hd]
  have hflag : r.stackStore = false := by
    cases hf : r.stackStore with
    | false => rfl
    | true =>
        have := (hb.stored c r hr hf).1
        rw [hst] at this
        cases this
  have hch : Backed ((w.started t c r blk).1.setCo c (w.started t c r blk).2) t (some c) ∧
      (((w.started t c r blk).1.setCo c (w.started t c r blk).2).block t).Settled :=
    hb.change (c := c) hset hduty hstack (fun _ ho => ho) (fun _ _ ho => ho)
      (fun ho => absurd ho hocc)
      (fun r1 hr1 => by
        rw [hself] at hr1
        injection hr1 with hr1
        rw [← hr1]
        exact hflag)
      (fun r1 hr1 _ => by
        rw [hself] at hr1
        injection hr1 with hr1
        rw [← hr1]
        refine ⟨hfin, ?_⟩
        simp only [started, initMcoContext, setCo, setStack, Function.update_self,
          Option.isSome_some])
      (fun _ _ => Or.inl rfl)
  exact ⟨hch.1, hch.2, fun d hd => content_congr (hduty d hd) (hstack d hd) rfl⟩

end World

end Fasco
