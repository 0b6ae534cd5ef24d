import Fasco.Theory.OneThread

/-!
# Operations That Return

Under the invariant of one thread no operation faults. A switch returns
because every pointer it follows is good (`mcoSwap_returns`): the caller and
the target have stacks and contexts, the occupant is a live coroutine, and a
stored coroutine has its copy. So `McoYield` and the end of a callback return
unless the main coroutine is on top, and `McoResume` returns for every live
coroutine, also for one that waits further down.

## Theorems

* `mcoSwap_returns`: A switch that is ready returns.
* `Carried.yield_returns`, `Carried.finish_returns`: Taking the topmost
  coroutine off.
* `Carried.resume_returns`: Resuming any live coroutine.
* `onThread_returns`: Every operation of a thread that behaves.
-/

namespace Fasco

open World

/-- Every pointer the first half of `McoSwap` follows is good. -/
theorem occupy_returns {w : World} {t : Tid} {b : McoRef} {p : Option McoRef} (hb : Backed w t p)
    (hs : (w.stack b).isSome) : ∃ w', w.occupy t b = .ok w' := by
  rcases Option.isSome_iff_exists.mp hs with ⟨s, hs⟩
  unfold occupy
  simp only [hs]
  by_cases hp : s.isPrivate = true
  · rw [if_pos hp]
    exact ⟨_, rfl⟩
  · rw [if_neg hp]
    cases ho : (w.mgr t).commonOccupy with
    | none => exact ⟨_, rfl⟩
    | some o =>
        rcases hb.occ o ho with ⟨r, so, hr, hso, _, _⟩
        simp only [hr, hso]
        by_cases hob : o = b
        · rw [if_pos hob]
          exact ⟨_, rfl⟩
        · rw [if_neg hob]
          by_cases hf : r.finished = true
          · rw [if_pos hf]
            exact ⟨_, rfl⟩
          · rw [if_neg hf]
            exact ⟨_, rfl⟩

theorem mcontextSwap_returns {w : World} {t : Tid} {a b : McoRef} (hne : a ≠ b)
    (ha : w.HasCtx a) (hb : w.LeadsTo b) : ∃ w' back, w.mcontextSwap t a b = .ok (w', back) := by
  rcases ha with ⟨ra0, hra0, hctx⟩
  rcases co_of_ctl hra0 with ⟨ra, hra, hfa⟩
  have hctx' : ra.coctx.ctx.isSome := by
    rw [← hfa] at hctx
    exact hctx
  rcases Option.isSome_iff_exists.mp hctx' with ⟨ma, hma⟩
  rcases hb with ⟨rb0, mb, hrb0, hmb, hregs⟩
  rcases co_of_ctl hrb0 with ⟨rb, hrb, hfb⟩
  have hmb' : rb.coctx.ctx = some mb := by
    rw [← hfb] at hmb
    exact hmb
  unfold mcontextSwap
  simp only [hra, hma, setCo, Function.update_of_ne hne.symm, hrb, hmb']
  rcases hregs with hregs | hregs
  · rw [hregs]
    exact ⟨_, _, rfl⟩
  · rw [hregs]
    exact ⟨_, _, rfl⟩

theorem swapTail_returns {w : World} {t : Tid} {b : McoRef} {p : Option McoRef} {r : McoRoutine}
    (hb : Backed w t p) (htop : (w.callstack t).getCurMco = some b) (hr : w.co b = some r)
    (hst : r.start = true) : ∃ w', w.swapTail t = .ok w' := by
  rcases Option.isSome_iff_exists.mp (hb.begun b r hr hst).2 with ⟨s, hs⟩
  unfold swapTail
  simp only [htop, hs, hr]
  by_cases hcond : (!s.isPrivate && r.stackStore) = true
  · rw [if_pos hcond]
    rw [Bool.and_eq_true] at hcond
    rcases hb.stored b r hr hcond.2 with ⟨_, s', hs', _, htmp⟩
    rw [hs] at hs'
    injection hs' with hs'
    rw [← hs'] at htmp
    rcases Option.isSome_iff_exists.mp htmp with ⟨bytes, hbytes⟩
    unfold recoverUsedCommonStack
    by_cases hz : s.restoreSize = 0
    · rw [if_pos hz]
      exact ⟨_, rfl⟩
    · rw [if_neg hz, hbytes]
      exact ⟨_, rfl⟩
  · rw [if_neg hcond]
    exact ⟨_, rfl⟩

/-- A switch that is ready returns, if the caller has a stack and a context. -/
theorem mcoSwap_returns {w : World} {t : Tid} {a b : McoRef} {sp : Nat} (hne : a ≠ b)
    (hlead : w.LeadsTo b) (hr : SwapReady w t a b) (hstack : (w.stack a).isSome)
    (hctx : w.HasCtx a) : ∃ w', w.mcoSwap t a b sp = .ok w' := by
  rcases Option.isSome_iff_exists.mp hstack with ⟨sa, hsa⟩
  rcases hr.target with ⟨rb, hrb, hstb, _⟩
  have h1 : w.saveSp a sp = .ok (w.setStack a { sa with stackSp := sp }) := by
    unfold saveSp
    rw [hsa]
  rcases saveSp_block h1 hr.backed hr.settled hr.caller with ⟨_, hb1, _⟩
  have hsb : ((w.setStack a { sa with stackSp := sp }).stack b).isSome := by
    simp only [setStack, Function.update_of_ne hne.symm]
    exact (hr.backed.begun b rb hrb hstb).2
  rcases occupy_returns hb1 hsb with ⟨w2, h2⟩
  have hsame := (saveSp_sameControl h1).trans (occupy_sameControl h2)
  have hlead2 : w2.LeadsTo b := by
    rcases hlead with ⟨r, m, hrr, hm, hregs⟩
    exact ⟨r, m, by rw [hsame.ctl]; exact hrr, hm, hregs⟩
  have hctx2 : w2.HasCtx a := by
    rcases hctx with ⟨r, hrr, hc⟩
    exact ⟨r, by rw [hsame.ctl]; exact hrr, hc⟩
  rcases mcontextSwap_returns (t := t) hne hctx2 hlead2 with ⟨w3, back, h3⟩
  have hswap : w.mcoSwap t a b sp = w3.land t back := by
    unfold mcoSwap
    rw [h1]
    change (w.setStack a { sa with stackSp := sp }).occupy t b >>= _ = _
    rw [h2]
    change w2.mcontextSwap t a b >>= _ = _
    rw [h3]
    rfl
  rw [hswap]
  -- The three parts return; what is left is what the loaded position does first.
  rcases occupy_block h2 hb1 hrb hstb with ⟨hb2, _⟩
  rcases mcontextSwap_cases hne h3 with ⟨ra, rc, m, hra, _, hrc, hm, hcase⟩
  have hrcf : forget rc = forget rb := by
    have hc := ctl_of_co hrc
    rw [hsame.ctl, ctl_of_co hrb] at hc
    injection hc with hc
    exact hc.symm
  have hduty : ∀ x, ((w2.setCo a (parked (w2.exec t) ra)).setExec t x).duty = w2.duty :=
    fun _ => setCo_duty w2 hra rfl
  have hrc3 : ∀ x, ((w2.setCo a (parked (w2.exec t) ra)).setExec t x).co b = some rc := by
    intro x
    simp only [setExec, setCo, Function.update_of_ne hne.symm]
    exact hrc
  rcases hcase with ⟨c, hc, rfl, rfl⟩ | ⟨x, _, rfl, rfl⟩
  · have hcb : c = b := by
      rcases hlead2 with ⟨r, m', hrr, hm', hregs⟩
      rw [ctl_of_co hrc] at hrr
      injection hrr with hrr
      rw [← hrr] at hm'
      have hmm : rc.coctx.ctx = some m' := hm'
      rw [hm] at hmm
      injection hmm with hmm
      rw [← hmm, hc] at hregs
      rcases hregs with he | he
      · injection he
      · cases he
    rw [hcb]
    change ∃ w', ((w2.setCo a (parked (w2.exec t) ra)).setExec t (some b)).enterCallback t = .ok w'
    unfold enterCallback
    have hx : ((w2.setCo a (parked (w2.exec t) ra)).setExec t (some b)).exec t = some b := by
      simp only [setExec, Function.update_self]
    simp only [hx, hrc3]
    exact ⟨_, rfl⟩
  · change ∃ w', ((w2.setCo a (parked (w2.exec t) ra)).setExec t x).swapTail t = .ok w'
    refine swapTail_returns (hb2.congr (hduty x) rfl rfl rfl).2 ?_ (hrc3 x) ?_
    · change (w2.callstack t).getCurMco = some b
      rw [hsame.callstack]
      exact hr.top
    · have : (forget rc).start = (forget rb).start := by rw [hrcf]
      exact this.trans hstb

namespace Carried

variable {w w' : World} {f : Frames} {t : Tid}

/-- The topmost coroutine and the one below it. -/
theorem top_two {c s : McoRef} {l : List McoRef} (hc : Carried w f t) (hf : f t = c :: s :: l) :
    ∃ r rs, w.co c = some r ∧ w.co s = some rs ∧ r.running = true ∧ r.finished = false ∧
      r.doneYield = false ∧ r.sink = some s ∧ r.start = true := by
  have hmem : c ∈ f t := by
    rw [hf]
    exact List.mem_cons_self
  rcases hc.orderly.started t c hmem with ⟨r0, hr0, hst⟩
  rcases co_of_ctl hr0 with ⟨r, hr, hrf⟩
  rcases hc.orderly.steady.ready t s (by rw [hf]; exact List.mem_cons_of_mem c List.mem_cons_self)
    with ⟨rs0, hrs0, _⟩
  rcases co_of_ctl hrs0 with ⟨rs, hrs, _⟩
  have hdy0 := hc.orderly.unfinished hmem (ctl_of_co hr)
  have hdy : r.doneYield = false := hdy0
  have hruns := hc.orderly.steady.head_runs (t := t) (c := c) (by rw [hf]; rfl)
  rw [runs_of_ctl (ctl_of_co hr)] at hruns
  injection hruns with hruns
  have hlink := hc.orderly.linked t
  rw [hf] at hlink
  have hsink := hlink.1
  rw [sinkOf_ctl (ctl_of_co hr)] at hsink
  refine ⟨r, rs, hr, hrs, hruns, ?_, hdy, hsink, ?_⟩
  · rw [McoRoutine.finished, hdy, Bool.and_false]
  · rw [← hrf] at hst
    exact hst

/-- A switch from the state a pop starts in returns. -/
theorem pop_returns {v : World} {c s : McoRef} {r rs : McoRoutine} {l : List McoRef} {sp : Nat}
    (hc : Carried w f t) (hf : f t = c :: s :: l) (hduty : v.duty = w.duty)
    (hstack : v.stack = w.stack) (hmgr : v.mgr = w.mgr) (hmem : v.mem = w.mem)
    (hcs : v.callstack = w.callstack) (hr : v.co c = some r) (hrs : v.co s = some rs)
    (hctl : v.ctl s = w.ctl s) (hctx : r.coctx.ctx.isSome) :
    ∃ w', (v.beforePop t c r s rs).mcoSwap t c s sp = .ok w' := by
  rcases hc.pop_ready hf hduty hstack hmgr hmem hcs hr hrs hctl with ⟨_, hne, hlead, hready, _, _⟩
  refine mcoSwap_returns hne hlead hready ?_ ?_
  · change (v.stack c).isSome
    rw [hstack]
    rcases hc.top_two hf with ⟨r1, _, hr1, _, _, _, _, _, hst1⟩
    exact (hc.backed.begun c r1 hr1 hst1).2
  · refine ⟨forget r.giveUp, ctl_of_co ?_, ?_⟩
    · simp only [beforePop, setCo, Function.update_of_ne hne, Function.update_self]
    · change r.giveUp.coctx.ctx.isSome
      rw [r.giveUp_coctx]
      exact hctx

theorem top_ctx {c : McoRef} {l : List McoRef} {r : McoRoutine} (hc : Carried w f t)
    (hf : f t = c :: l) (hr : w.co c = some r) : r.coctx.ctx.isSome := by
  rcases hc.orderly.steady.ready t c (by rw [hf]; exact List.mem_cons_self) with ⟨r0, hr0, hctx⟩
  rw [ctl_of_co hr] at hr0
  injection hr0 with hr0
  rw [← hr0] at hctx
  exact hctx

theorem yield_returns {c s : McoRef} {l : List McoRef} (sp : Nat) (hc : Carried w f t)
    (hf : f t = c :: s :: l) : ∃ w', w.mcoYield t (some c) sp = .ok w' := by
  rcases hc.top_two hf with ⟨r, rs, hr, hrs, hrun, hfin, _, hsink, _⟩
  rcases hc.pop_ready hf rfl rfl rfl rfl rfl hr hrs rfl with ⟨hbelow, hne, _⟩
  rw [mcoYield_eq hr hrun hfin hsink hbelow hne hrs]
  exact hc.pop_returns hf rfl rfl rfl rfl rfl hr hrs rfl (hc.top_ctx hf hr)

theorem finish_returns {c s : McoRef} {l : List McoRef} (sp : Nat) (hc : Carried w f t)
    (hf : f t = c :: s :: l) : ∃ w', w.coroutineRun t sp = .ok w' := by
  rcases hc.top_two hf with ⟨r, rs, hr, hrs, hrun, _, hdy, hsink, _⟩
  rcases hc.pop_ready hf rfl rfl rfl rfl rfl hr hrs rfl with ⟨hbelow, hne, _⟩
  have hfin : ({ r with done := true } : McoRoutine).finished = false := by
    simp only [McoRoutine.finished, hdy, Bool.and_false]
  -- The end of the callback is a yield of the record with `done` set.
  have hrun' : w.coroutineRun t sp =
      (w.setCo c { r with done := true }).mcoYield t (some c) sp := by
    unfold coroutineRun
    have hx : w.exec t = some c := by
      rw [hc.orderly.steady.exec t, hf]
      rfl
    simp only [hx, hr]
    rw [if_neg]
    rw [Bool.or_eq_true, not_or]
    exact ⟨by simp only [hrun]; decide, by rw [hfin]; decide⟩
  have hself : (w.setCo c { r with done := true }).co c = some { r with done := true } := by
    simp only [setCo, Function.update_self]
  have hother : (w.setCo c { r with done := true }).co s = some rs := by
    simp only [setCo, Function.update_of_ne hne.symm]
    exact hrs
  have hduty : (w.setCo c { r with done := true }).duty = w.duty := by
    refine setCo_duty w hr ?_
    simp only [McoRoutine.finished, hdy, Bool.and_false]
  have hctl : (w.setCo c { r with done := true }).ctl s = w.ctl s := by
    rw [setCo_ctl, Function.update_of_ne hne.symm]
  have hctx := hc.top_ctx hf hr
  rw [hrun', mcoYield_eq hself hrun hfin hsink hbelow hne hother]
  exact hc.pop_returns hf hduty rfl rfl rfl rfl hself hother hctl hctx

/-- A switch from the state a push starts in returns. -/
theorem push_returns {v : World} {cur c : McoRef} {rcur r : McoRoutine} {l : List McoRef}
    (sp : Nat) (hc : Carried w f t) (hf : f t = cur :: l) (hne : cur ≠ c)
    (hv : PushFrom w v t cur c rcur r) (hstack : v.stack cur = w.stack cur)
    (hrcur : w.co cur = some rcur) :
    ∃ w', (v.beforePush t cur rcur c r).mcoSwap t cur c sp = .ok w' := by
  rcases hc.push_ready hf hne hv with ⟨hlead, hready, _⟩
  have hmem : cur ∈ f t := by
    rw [hf]
    exact List.mem_cons_self
  refine mcoSwap_returns hne hlead hready ?_ ?_
  · change (v.stack cur).isSome
    rw [hstack]
    rcases hc.orderly.started t cur hmem with ⟨r0, hr0, hst⟩
    rcases co_of_ctl hr0 with ⟨r1, hr1, hrf⟩
    rw [← hrf] at hst
    exact (hc.backed.begun cur r1 hr1 hst).2
  · have hctx := hc.top_ctx hf hrcur
    refine ⟨forget { rcur with running := false }, ctl_of_co ?_, hctx⟩
    simp only [beforePush, setCo, Function.update_self]

-- The cases are those of the source: nothing to do, a yield back, a first push, a later one.
/-- `McoResume` returns for every live coroutine, wherever it is. -/
theorem resume_returns {co : Option McoRef} {e : CallSite} (hc : Carried w f t)
    (hlive : w.Live co) (hfresh : w.FreshMain t e) : ∃ w', w.mcoResume t co e = .ok w' := by
  cases co with
  | none => exact ⟨w, rfl⟩
  | some c =>
      rcases Option.isSome_iff_exists.mp (hlive c rfl) with ⟨r, hr⟩
      unfold mcoResume
      simp only [hr]
      by_cases hign : (r.running || r.finished) = true
      · rw [if_pos hign]
        exact ⟨w, rfl⟩
      · rw [if_neg hign]
        simp only [Bool.not_eq_true, Bool.or_eq_false_iff] at hign
        rw [mainMco_ensured]
        have hcb := (hc.mainMco hfresh).1
        have hrb := mainMco_co hfresh hr
        rcases List.exists_cons_of_ne_nil (booted_ne_nil f t e.main) with ⟨cur, l, hf⟩
        have htop := hcb.top_eq hf
        rcases hcb.orderly.started t cur (by rw [hf]; exact List.mem_cons_self) with ⟨rc0, hrc0, _⟩
        rcases co_of_ctl hrc0 with ⟨rcur, hrcur, _⟩
        have htop' : ((w.mainMco t e).1.callstack t).fromTop 1 = some cur := htop
        -- The caller is running, and `c` is not.
        have hne : cur ≠ c := by
          rintro rfl
          have hruns := hcb.orderly.steady.head_runs (t := t) (c := cur) (by rw [hf]; rfl)
          rw [runs_of_ctl (ctl_of_co hrb)] at hruns
          injection hruns with hruns
          have hruns' : r.running = true := hruns
          rw [hign.1] at hruns'
          cases hruns'
        simp only [htop', hrcur]
        by_cases hsink : rcur.sink = some c
        · rw [if_pos hsink]
          -- The `sink` of the topmost is the one below it, so `c` is the parent.
          have hlink := hcb.orderly.linked t
          rw [hf] at hlink
          have hl := hlink.1
          rw [sinkOf_ctl (ctl_of_co hrcur)] at hl
          have hl' : l.head? = some c := hl.symm.trans hsink
          rcases List.head?_eq_some_iff.mp hl' with ⟨l', hl'⟩
          rw [hl'] at hf
          exact hcb.yield_returns e.sp hf
        · rw [if_neg hsink]
          cases hst : r.start with
          | true =>
              rw [if_pos rfl]
              rcases hcb.pushFrom_again hf hrb hst hign.1 with ⟨rcur', hv⟩
              rw [pushCallstack_eq htop hne hv.below]
              exact hcb.push_returns e.sp hf hne hv rfl hv.below
          | false =>
              rw [if_neg (by decide)]
              rcases hcb.pushFrom_first e.blk hf hne hrb hst hign.2 with ⟨rcur', hv, hsame, hrcur'⟩
              have hret := hcb.push_returns e.sp hf hne hv (by
                simp only [started, initMcoContext, setCo, setStack, Function.update_of_ne hne])
                (by
                  rw [← hrcur']
                  simp only [started, initMcoContext, setCo, setStack,
                    Function.update_of_ne hne])
              have htops : ((w.mainMco t e).1.started t c r e.blk).1.top t = some cur := htop
              rw [← hsame, ← pushCallstack_eq htops hne hrcur'] at hret
              simpa only [started, initMcoContext, setCo, setStack, Function.update_self,
                Option.isSome_some, madeContext, mcontextMake, Option.map_some] using hret

-- Only the main coroutine has nothing below it.
theorem below_top {c : McoRef} (hc : Carried w f t) (hhead : (f t).head? = some c)
    (hmain : w.mainOf c ≠ some true) : ∃ s l, f t = c :: s :: l := by
  rcases List.head?_eq_some_iff.mp hhead with ⟨l, hl⟩
  cases l with
  | nil =>
      refine absurd (hc.base c ?_) hmain
      rw [hl]
      rfl
  | cons s l => exact ⟨s, l, hl⟩

theorem free_returns {co : Option McoRef} (hlive : w.Live co) : ∃ w', w.mcoFree t co = .ok w' := by
  cases co with
  | none => exact ⟨w, rfl⟩
  | some c =>
      rcases Option.isSome_iff_exists.mp (hlive c rfl) with ⟨r, hr⟩
      unfold mcoFree
      simp only [hr]
      by_cases hrun : r.running = true
      · rw [if_pos hrun]
        exact ⟨_, rfl⟩
      · rw [if_neg hrun]
        exact ⟨_, rfl⟩

end Carried

/-- No operation of a thread that behaves faults. -/
theorem onThread_returns {w : World} {f : Frames} {t : Tid} {a : Op} (hc : Carried w f t)
    (ha : OnThread t w a) : ∃ w', w.step a = .ok w' := by
  rcases ha with ⟨ht, ⟨_, hsup⟩, hd⟩
  cases a with
  | create u c p => exact ⟨_, rfl⟩
  | mainMco u e => exact ⟨_, rfl⟩
  | resume u co e =>
      change u = t at ht
      rw [ht] at hsup ⊢
      exact hc.resume_returns hsup.1 hsup.2.2
  | yield u co sp =>
      change u = t at ht
      rw [ht] at hsup hd ⊢
      cases co with
      | none => exact ⟨w, rfl⟩
      | some c =>
          rcases Option.isSome_iff_exists.mp (hsup.1 c rfl) with ⟨r, hr⟩
          by_cases hign : (!r.running || r.finished) = true
          · refine ⟨w, ?_⟩
            change w.mcoYield t (some c) sp = .ok w
            unfold mcoYield
            simp only [hr]
            rw [if_pos hign]
          · simp only [Bool.not_eq_true, Bool.or_eq_false_iff, Bool.not_eq_false'] at hign
            -- What yields is on top, and is no main coroutine, so there is one below.
            have hhead := hc.head_of_running (ctl_of_co hr) hign.1
            rcases hc.below_top hhead hd with ⟨s, l, hf⟩
            exact hc.yield_returns sp hf
  | finish u sp =>
      change u = t at ht
      rw [ht] at hsup ⊢
      rcases hsup with ⟨⟨c, r, hx, hr, hm⟩, _⟩
      have hhead : (f t).head? = some c := by rw [← hc.orderly.steady.exec t, hx]
      have hmain : w.mainOf c ≠ some true := by
        unfold World.mainOf
        rw [ctl_of_co hr, Option.map_some]
        change some r.isMain ≠ some true
        rw [hm]
        decide
      rcases hc.below_top hhead hmain with ⟨s, l, hf⟩
      exact hc.finish_returns sp hf
  | free u co => exact Carried.free_returns hsup
  | write u x b => exact ⟨_, rfl⟩

end Fasco
