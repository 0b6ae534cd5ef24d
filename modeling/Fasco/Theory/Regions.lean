import Fasco.Theory.Beside

/-!
# Operations That Stay in Their Own Block

`Regions` is what a thread's own run keeps about its common block: each region
of it starts in the block, but for that of the coroutine running on it, whose
stack pointer is out of date until it gives up control. `McoSwap` copies out
the region of the old occupant from its stack pointer on, and copies in the
one of the coroutine that goes on, so under `Regions` neither copy leaves the
block.

With that every operation of the thread is local (`regions_step`). Run in a
state that has the thread's part and anything else beside it, it does to the
part what it does alone, and to the rest nothing.

## Main definitions

* `Regions`: Where the regions of a thread's block lie.

## Theorems

* `swap_regions`: A switch keeps the regions in the block.
* `Carried.pop_beside`, `Carried.push_beside`: The two moves of the call stack.
* `Carried.yield_beside`, `Carried.finish_beside`, `Carried.resume_beside`:
  The operations that switch.
* `regions_step`: What an operation does to a thread's part it does anywhere.
-/

namespace Fasco

open World

/-- The regions of the block of `t`, which has `size` bytes from `lo` on,
    start in it, but for that of the coroutine that runs. -/
structure Regions (t : Tid) (lo size : Nat) (w : World) : Prop where
  block : (w.mgr t).commonStack = lo ∧ (w.mgr t).commonSize = size
  laid : w.Laid t
  inside : w.Inside t (fun c => w.exec t = some c)

theorem regions_init {w : World} (h : Init w) (t : Tid) :
    Regions t (w.mgr t).commonStack (w.mgr t).commonSize w := by
  refine ⟨⟨rfl, rfl⟩, ?_, ?_⟩
  · intro c a n e hc
    rw [shape, h.stack c] at hc
    cases hc
  · intro c k hk
    rw [client, h.co c] at hk
    cases hk

/-- Nothing that places the regions has changed, and the clients are among
    those there were. -/
theorem Regions.kept {t : Tid} {lo size : Nat} {w w' : World} (hi : Regions t lo size w)
    (hblock : (w'.mgr t).commonStack = (w.mgr t).commonStack ∧
      (w'.mgr t).commonSize = (w.mgr t).commonSize)
    (hshape : ∀ c a n e, w'.shape c = some (a, n, e, false) → w.shape c = some (a, n, e, false))
    (hclient : ∀ c k, w'.client c = some k → w.client c = some k)
    (hexec : ∀ c k, w'.client c = some k → w.exec t = some c → w'.exec t = some c) :
    Regions t lo size w' := by
  refine ⟨⟨hblock.1.trans hi.block.1, hblock.2.trans hi.block.2⟩, ?_, ?_⟩
  · intro c a n e hc
    rw [hblock.1, hblock.2]
    exact hi.laid c a n e (hshape c a n e hc)
  · intro c k hk hx
    rw [hblock.1]
    exact hi.inside c k (hclient c k hk) (fun h => hx (hexec c k hk h))

/-- The stack pointer of a caller on the block lies in the block. -/
theorem Regions.sp {t : Tid} {lo size : Nat} {w : World} (hi : Regions t lo size w) {c : McoRef}
    {sp : Nat} {s : McoStack} (hx : w.exec t = some c) (hsp : w.OnStack t sp)
    (hs : w.stack c = some s) (hp : s.isPrivate = false) : (w.mgr t).commonStack ≤ sp := by
  rw [← (hi.laid.stack hs hp).1]
  exact (hsp c s hx hs hp).1

/-! ### The two moves -/

/-- A switch whose bytes lie in the block is local, and leaves the regions in
    the block. -/
theorem swap_regions {t : Tid} {lo size : Nat} {pre w' b : World} {a c : McoRef} {sp : Nat}
    (hne : a ≠ c) (hx : pre.exec t = some a) (hlead : pre.LeadsTo c) (hr : SwapReady pre t a c)
    (hi : SwapInside pre t a c sp) (ha : (pre.co a).isSome)
    (hblock : (pre.mgr t).commonStack = lo ∧ (pre.mgr t).commonSize = size)
    (h : pre.mcoSwap t a c sp = .ok w') :
    Regions t lo size w' ∧ (beside t pre b).mcoSwap t a c sp = .ok (beside t w' b) := by
  have hover := mcoSwap_handover h hne hx hlead
  refine ⟨⟨?_, hi.laid.congr hover.shape (hover.block t), ?_⟩, mcoSwap_beside hne hr hi ha h⟩
  · rw [(hover.block t).1, (hover.block t).2]
    exact hblock
  · intro d k hk hxd
    rw [hover.exec, Function.update_self] at hxd
    exact mcoSwap_inside hne hlead hr hi h (hover.block t).1 d k hk (fun hd => hxd (by rw [hd]))

namespace Carried

variable {w w' b : World} {f : Frames} {t : Tid} {lo size : Nat}

/-- Taking the topmost coroutine off. -/
theorem pop_beside {v : World} {c s : McoRef} {r rs : McoRoutine} {l : List McoRef} {sp : Nat}
    (hc : Carried w f t) (hi : Regions t lo size w) (hf : f t = c :: s :: l)
    (hduty : v.duty = w.duty) (hstack : v.stack = w.stack) (hmgr : v.mgr = w.mgr)
    (hmem : v.mem = w.mem) (hcs : v.callstack = w.callstack) (hexec : v.exec = w.exec)
    (hr : v.co c = some r) (hrs : v.co s = some rs) (hctl : v.ctl s = w.ctl s)
    (hsp : w.OnStack t sp) (h : (v.beforePop t c r s rs).mcoSwap t c s sp = .ok w') :
    Regions t lo size w' ∧
      (beside t (v.beforePop t c r s rs) b).mcoSwap t c s sp = .ok (beside t w' b) := by
  rcases hc.pop_ready hf hduty hstack hmgr hmem hcs hr hrs hctl with
    ⟨_, hne, hlead, hready, _, hsame⟩
  have hx : w.exec t = some c := by
    rw [hc.orderly.steady.exec t, hf]
    rfl
  have hmgr' : (v.beforePop t c r s rs).mgr = w.mgr := hmgr
  have hstack' : (v.beforePop t c r s rs).stack = w.stack := hstack
  have hlaid : (v.beforePop t c r s rs).Laid t := by
    refine hi.laid.congr ?_ (by rw [hmgr']; exact ⟨rfl, rfl⟩)
    funext d
    rw [shape, shape, hstack']
  -- Every client but the one taken off started where it does now.
  have hlow : ∀ d k, d ≠ c → (v.beforePop t c r s rs).client d = some k →
      ((v.beforePop t c r s rs).mgr t).commonStack ≤ k.lo := by
    intro d k hd hk
    rw [hsame d hd] at hk
    rw [hmgr']
    refine hi.inside d k hk (fun hxd => hd ?_)
    rw [hx] at hxd
    injection hxd with hxd
    exact hxd.symm
  refine swap_regions hne (by rw [← hx, ← hexec]; rfl) hlead hready ⟨hlaid, ?_, ?_, ?_⟩ ?_
    (by rw [hmgr']; exact hi.block) h
  · exact fun d k hk hd => hlow d k (fun hdc => hd (Or.inl hdc)) hk
  · intro k hk
    rcases client_eq_some.mp hk with ⟨_, sc, _, hsc, _, hp, _⟩
    rw [hstack'] at hsc
    rw [hmgr']
    exact hi.sp hx hsp hsc hp
  · exact fun k hk _ => hlow s k hne.symm hk
  · simp only [beforePop, setCo, Function.update_of_ne hne, Function.update_self,
      Option.isSome_some]

/-- Putting a coroutine on top. -/
theorem push_beside {v : World} {cur c : McoRef} {rcur r : McoRoutine} {l : List McoRef} {sp : Nat}
    (hc : Carried w f t) (hi : Regions t lo size w) (hf : f t = cur :: l) (hne : cur ≠ c)
    (hv : PushFrom w v t cur c rcur r) (hstack : v.stack cur = w.stack cur)
    (hexec : v.exec = w.exec) (hlaid : v.Laid t)
    (hother : ∀ d, d ≠ c → v.client d = w.client d)
    (hself : ∀ k, v.client c = some k → k.saved.isSome → w.client c = some k)
    (hxc : w.exec t ≠ some c) (hsp : w.OnStack t sp)
    (h : (v.beforePush t cur rcur c r).mcoSwap t cur c sp = .ok w') :
    Regions t lo size w' ∧
      (beside t (v.beforePush t cur rcur c r) b).mcoSwap t cur c sp = .ok (beside t w' b) := by
  rcases hc.push_ready hf hne hv with ⟨hlead, hready, hblk⟩
  have hx : w.exec t = some cur := by
    rw [hc.orderly.steady.exec t, hf]
    rfl
  have hclient : (v.beforePush t cur rcur c r).client = v.client :=
    congrArg Spill.Block.client hblk
  have hmgr' : (v.beforePush t cur rcur c r).mgr = w.mgr := hv.mgr
  have hlaid' : (v.beforePush t cur rcur c r).Laid t := hlaid.congr rfl ⟨rfl, rfl⟩
  refine swap_regions hne (by rw [← hx, ← hexec]; rfl) hlead hready ⟨hlaid', ?_, ?_, ?_⟩ ?_
    (by rw [hmgr']; exact hi.block) h
  · intro d k hk hd
    rw [hclient, hother d (fun hdc => hd (Or.inr hdc))] at hk
    rw [hmgr']
    refine hi.inside d k hk (fun hxd => hd (Or.inl ?_))
    rw [hx] at hxd
    injection hxd with hxd
    exact hxd.symm
  · intro k hk
    rcases client_eq_some.mp hk with ⟨_, sc, _, hsc, _, hp, _⟩
    have hsc' : v.stack cur = some sc := hsc
    rw [hstack] at hsc'
    rw [hmgr']
    exact hi.sp hx hsp hsc' hp
  · intro k hk hsv
    rw [hclient] at hk
    rw [hmgr']
    exact hi.inside c k (hself k hk hsv) hxc
  · simp only [beforePush, setCo, Function.update_self, Option.isSome_some]

/-- Putting a coroutine that has run before on top. -/
theorem push_again_beside {cur c : McoRef} {r : McoRoutine} {l : List McoRef} {sp : Nat}
    (hc : Carried w f t) (hi : Regions t lo size w) (hf : f t = cur :: l) (hne : cur ≠ c)
    (hr : w.co c = some r) (hst : r.start = true) (hrun : r.running = false)
    (hsp : w.OnStack t sp) (h : w.pushCallstack t c r sp = .ok w') :
    Regions t lo size w' ∧ (beside t w b).pushCallstack t c r sp = .ok (beside t w' b) := by
  rcases hc.pushFrom_again hf hr hst hrun with ⟨rcur, hv⟩
  have htop := hc.top_eq hf
  have htop' : (beside t w b).top t = some cur := by
    rw [top, beside_callstack]
    exact htop
  have hxc : w.exec t ≠ some c := by
    rw [hc.orderly.steady.exec t, hf]
    intro he
    injection he with he
    exact hne he
  rw [pushCallstack_eq htop hne hv.below] at h
  rw [pushCallstack_eq htop' hne (beside_co hv.below),
    beforePush_beside _ _ (by rw [hv.below]; rfl) (by rw [hr]; rfl)]
  exact hc.push_beside hi hf hne hv rfl rfl hi.laid (fun _ _ => rfl) (fun _ hk _ => hk) hxc hsp h

/-- Starting a coroutine and putting it on top. -/
theorem push_first_beside {cur c : McoRef} {r : McoRoutine} {l : List McoRef} {sp blk : Nat}
    (hc : Carried w f t) (hi : Regions t lo size w) (hf : f t = cur :: l) (hne : cur ≠ c)
    (hr : w.co c = some r) (hst : r.start = false) (hfin : r.finished = false)
    (hsp : w.OnStack t sp)
    (h : (w.started t c r blk).1.pushCallstack t c (w.started t c r blk).2 sp = .ok w') :
    Regions t lo size w' ∧ ((beside t w b).started t c r blk).1.pushCallstack t c
      ((beside t w b).started t c r blk).2 sp = .ok (beside t w' b) := by
  rcases hc.pushFrom_first blk hf hne hr hst hfin with ⟨rcur, hv, hsame, hrcur⟩
  have htop : (w.started t c r blk).1.top t = some cur := hc.top_eq hf
  have htop' : (beside t (w.started t c r blk).1 b).top t = some cur := by
    rw [top, beside_callstack]
    exact htop
  have hlive : ((w.started t c r blk).1.co c).isSome := by
    simp only [started, initMcoContext, setCo, Function.update_self, Option.isSome_some]
  have hxc : w.exec t ≠ some c := by
    rw [hc.orderly.steady.exec t, hf]
    intro he
    injection he with he
    exact hne he
  have hself : ((w.started t c r blk).1.setCo c (w.started t c r blk).2).co c
      = some (w.started t c r blk).2 := by
    simp only [setCo, Function.update_self]
  rw [started_beside hr]
  rw [pushCallstack_eq htop hne hrcur, hsame] at h
  rw [pushCallstack_eq htop' hne (beside_co hrcur),
    beforePush_beside _ _ (by rw [hrcur]; rfl) hlive, hsame]
  refine hc.push_beside hi hf hne hv ?_ rfl ?_ ?_ ?_ hxc hsp h
  · simp only [started, initMcoContext, setCo, setStack, Function.update_of_ne hne]
  · -- The new stack, if it is common, is the block.
    intro d a n e hd
    by_cases hdc : d = c
    · rw [hdc] at hd
      cases hp : r.usePrivate with
      | true =>
          simp only [shape, started, initMcoContext, setCo, setStack, Function.update_self, hp,
            if_true, Option.map_some, McoStackManager.createPrivateMcoStack] at hd
          cases hd
      | false =>
          simp only [shape, started, initMcoContext, setCo, setStack, Function.update_self, hp,
            Bool.false_eq_true, if_false, Option.map_some, McoStackManager.createCommonMcoStack,
            Option.some.injEq, Prod.mk.injEq] at hd
          obtain ⟨ha, hn, he, _⟩ := hd
          exact ⟨ha.symm, hn.symm, he.symm⟩
    · refine hi.laid d a n e ?_
      rw [← hd]
      simp only [shape, started, initMcoContext, setCo, setStack, Function.update_of_ne hdc]
  · intro d hd
    refine client_congr ?_ ?_
    · simp only [duty, started, initMcoContext, setCo, setStack, Function.update_of_ne hd]
    · simp only [started, initMcoContext, setCo, setStack, Function.update_of_ne hd]
  · -- A coroutine that is started has never been stored.
    intro k hk hsv
    rcases client_eq_some.mp hk with ⟨r1, _, hr1, _, _, _, hk1⟩
    rw [hself] at hr1
    injection hr1 with hr1
    have hflag : r1.stackStore = false := by
      rw [← hr1]
      exact hv.flag _ rfl rfl
    rw [← hk1, region, hflag] at hsv
    cases hsv

/-! ### The operations that switch -/

/-- `McoYield` of the topmost coroutine of a thread, anywhere. -/
theorem mcoYield_beside_eq {v : World} {c s : McoRef} {r rs : McoRoutine} {sp : Nat}
    (hr : v.co c = some r) (hrun : r.running = true) (hfin : r.finished = false)
    (hsink : r.sink = some s) (hbelow : (v.callstack t).fromTop 2 = some s) (hne : c ≠ s)
    (hrs : v.co s = some rs) :
    (beside t v b).mcoYield t (some c) sp
      = (beside t (v.beforePop t c r s rs) b).mcoSwap t c s sp := by
  rw [mcoYield_eq (beside_co hr) hrun hfin hsink (by rw [beside_callstack]; exact hbelow) hne
    (beside_co hrs), beforePop_beside r rs (by rw [hr]; rfl) (by rw [hrs]; rfl)]

theorem yield_beside {co : Option McoRef} {sp : Nat} (hc : Carried w f t)
    (hi : Regions t lo size w) (hsp : w.OnStack t sp) (h : w.mcoYield t co sp = .ok w') :
    Regions t lo size w' ∧ (beside t w b).mcoYield t co sp = .ok (beside t w' b) := by
  rcases hc.orderly.yield h with ⟨rfl, hq⟩ | ⟨c, s, l, rfl, hf, hp, _⟩
  · refine ⟨hi, ?_⟩
    cases co with
    | none => rfl
    | some c =>
        rcases ctl_of_runs (hq c rfl) with ⟨r0, hr0, hrun0⟩
        rcases co_of_ctl hr0 with ⟨r, hr, hrf⟩
        have hrun : r.running = false := by
          rw [← hrf] at hrun0
          exact hrun0
        unfold mcoYield
        simp only [beside_co hr]
        rw [if_pos (by rw [hrun]; rfl)]
  · rcases hc.top_two hf with ⟨r, rs, hr, hrs, hrun, hfin, _, hsink, _⟩
    rw [mcoYield_beside_eq hr hrun hfin hsink hp.below hp.ne hrs]
    rw [mcoYield_eq hr hrun hfin hsink hp.below hp.ne hrs] at h
    exact hc.pop_beside hi hf rfl rfl rfl rfl rfl rfl hr hrs rfl hsp h

/-- The end of the callback of the coroutine that runs is a yield of its
    record with `done` set. -/
theorem coroutineRun_eq {v : World} {c : McoRef} {r : McoRoutine} {sp : Nat}
    (hx : v.exec t = some c) (hr : v.co c = some r) (hrun : r.running = true)
    (hdy : r.doneYield = false) :
    v.coroutineRun t sp = (v.setCo c { r with done := true }).mcoYield t (some c) sp := by
  unfold coroutineRun
  simp only [hx, hr]
  rw [if_neg]
  simp only [McoRoutine.finished, hrun, hdy, Bool.not_true, Bool.and_false, Bool.or_self]
  decide

theorem finish_beside {sp : Nat} (hc : Carried w f t) (hi : Regions t lo size w)
    (hsp : w.OnStack t sp) (h : w.coroutineRun t sp = .ok w') :
    Regions t lo size w' ∧ (beside t w b).coroutineRun t sp = .ok (beside t w' b) := by
  rcases hc.orderly.finish h with ⟨c, s, l, hf, hp, _⟩
  rcases hc.top_two hf with ⟨r, rs, hr, hrs, hrun, _, hdy, hsink, _⟩
  have hx : w.exec t = some c := by
    rw [hc.orderly.steady.exec t, hf]
    rfl
  have hself : (w.setCo c { r with done := true }).co c = some { r with done := true } := by
    simp only [setCo, Function.update_self]
  have hother : (w.setCo c { r with done := true }).co s = some rs := by
    simp only [setCo, Function.update_of_ne hp.ne.symm]
    exact hrs
  have hfin : ({ r with done := true } : McoRoutine).finished = false := by
    simp only [McoRoutine.finished, hdy, Bool.and_false]
  have hduty : (w.setCo c { r with done := true }).duty = w.duty := by
    refine setCo_duty w hr ?_
    simp only [McoRoutine.finished, hdy, Bool.and_false]
  have hctl : (w.setCo c { r with done := true }).ctl s = w.ctl s := by
    rw [setCo_ctl, Function.update_of_ne hp.ne.symm]
  rw [coroutineRun_eq hx hr hrun hdy, mcoYield_eq hself hrun hfin hsink hp.below hp.ne hother] at h
  rw [coroutineRun_eq (by rw [beside_exec]; exact hx) (beside_co hr) hrun hdy,
    setCo_beside (by rw [hr]; rfl),
    mcoYield_beside_eq hself hrun hfin hsink hp.below hp.ne hother]
  exact hc.pop_beside hi hf hduty rfl rfl rfl rfl rfl hself hother hctl hsp h

/-- Making the main coroutine leaves the regions where they are. -/
theorem regions_mainMco {e : CallSite} (hc : Carried w f t) (hi : Regions t lo size w) :
    Regions t lo size (w.mainMco t e).1 := by
  by_cases h0 : (w.callstack t).index = 0
  · have hbo := mainMco_booted w t e h0
    have hother : ∀ d, d ≠ e.main → (w.mainMco t e).1.client d = w.client d := by
      intro d hd
      rw [mainMco_eq h0]
      refine client_congr ?_ (Function.update_of_ne hd _ _)
      simp only [duty, Function.update_of_ne hd]
    rcases hbo.shape_main with ⟨a0, n0, e0, hmain⟩
    have hself : ∀ k, (w.mainMco t e).1.client e.main ≠ some k := by
      intro k hk
      rcases client_eq_some.mp hk with ⟨_, s, _, hs, _, hp, _⟩
      rw [shape, hs, Option.map_some, hp] at hmain
      cases hmain
    have hclient : ∀ d k, (w.mainMco t e).1.client d = some k → w.client d = some k := by
      intro d k hk
      have hd : d ≠ e.main := by
        rintro rfl
        exact hself k hk
      rw [← hother d hd]
      exact hk
    refine hi.kept (by rw [hbo.mgr]; exact ⟨rfl, rfl⟩) ?_ hclient ?_
    · intro d a n e1 hd
      have hne : d ≠ e.main := by
        rintro rfl
        rw [hmain] at hd
        cases hd
      rw [← hbo.shape d hne]
      exact hd
    · -- The thread had no coroutine running.
      intro d k _ hx
      rw [hc.orderly.steady.exec t, (hc.orderly.steady.empty_iff t).mp h0] at hx
      cases hx
  · rw [mainMco_of_nonempty h0]
    exact hi

/-- The stack pointer of the code that calls `McoResume` is good in the state
    after `MainMco` too. -/
theorem onStack_mainMco {e : CallSite} {sp : Nat} (hsp : w.OnStack t sp) :
    (w.mainMco t e).1.OnStack t sp := by
  by_cases h0 : (w.callstack t).index = 0
  · intro c s hx hs hp
    exfalso
    have hbo := mainMco_booted w t e h0
    rw [hbo.exec, Function.update_self] at hx
    injection hx with hx
    rcases hbo.shape_main with ⟨a0, n0, e0, hmain⟩
    rw [hx, shape, hs, Option.map_some, hp] at hmain
    cases hmain
  · rw [mainMco_of_nonempty h0]
    exact hsp

/-- What `McoResume` does with a coroutine that is neither running nor
    finished. -/
theorem mcoResume_eq {v : World} {c cur : McoRef} {r rcur : McoRoutine} {e : CallSite}
    (hr : v.co c = some r) (hrun : r.running = false) (hfin : r.finished = false)
    (htop : (v.mainMco t e).1.top t = some cur) (hrcur : (v.mainMco t e).1.co cur = some rcur) :
    v.mcoResume t (some c) e =
      if rcur.sink = some c then (v.mainMco t e).1.mcoYield t (some cur) e.sp
      else if r.start then (v.mainMco t e).1.pushCallstack t c r e.sp
      else ((v.mainMco t e).1.started t c r e.blk).1.pushCallstack t c
        ((v.mainMco t e).1.started t c r e.blk).2 e.sp := by
  have htop' : ((v.mainMco t e).1.callstack t).fromTop 1 = some cur := htop
  unfold mcoResume
  simp only [hr]
  rw [if_neg (by rw [hrun, hfin]; decide), mainMco_ensured]
  simp only [htop', hrcur]
  by_cases hsink : rcur.sink = some c
  · rw [if_pos hsink, if_pos hsink]
  · rw [if_neg hsink, if_neg hsink]
    cases hst : r.start with
    | true => rfl
    | false =>
        -- Making the stack does not fail, and neither does the call.
        simp only [Bool.false_eq_true, if_false, started, initMcoContext, setCo, setStack,
          Function.update_self, Option.isSome_some, madeContext, mcontextMake, Option.map_some]

theorem resume_beside {co : Option McoRef} {e : CallSite} (hc : Carried w f t)
    (hi : Regions t lo size w) (hfresh : w.FreshMain t e) (hsp : w.OnStack t e.sp)
    (h : w.mcoResume t co e = .ok w') :
    Regions t lo size w' ∧ (beside t w b).mcoResume t co e = .ok (beside t w' b) := by
  rcases mcoResume_cases h with ⟨rfl, hq⟩ | ⟨c, r, cur, rcur, rfl, hr, hrun, hfin, htop, hrcur, _⟩
  · refine ⟨hi, ?_⟩
    cases co with
    | none => rfl
    | some c =>
        rcases hq c rfl with ⟨r, hr, hign⟩
        unfold mcoResume
        simp only [beside_co hr]
        rw [if_pos (by rw [Bool.or_eq_true]; exact hign)]
  · have hcb := (hc.mainMco hfresh).1
    have hib := hc.regions_mainMco (e := e) hi
    have hspb := onStack_mainMco (e := e) hsp
    have hrb := mainMco_co hfresh hr
    rcases List.exists_cons_of_ne_nil (booted_ne_nil f t e.main) with ⟨cur', l, hf⟩
    have hcur : cur' = cur := by
      have := hcb.top_eq hf
      rw [htop] at this
      injection this with this
      exact this.symm
    rw [hcur] at hf
    -- The caller is running, and `c` is not.
    have hne : cur ≠ c := by
      rintro rfl
      have hruns := hcb.orderly.steady.head_runs (t := t) (c := cur) (by rw [hf]; rfl)
      rw [runs_of_ctl (ctl_of_co hrb)] at hruns
      injection hruns with hruns
      have hruns' : r.running = true := hruns
      rw [hrun] at hruns'
      cases hruns'
    have htop' : ((beside t w b).mainMco t e).1.top t = some cur := by
      rw [mainMco_beside, top, beside_callstack]
      exact htop
    have hrcur' : ((beside t w b).mainMco t e).1.co cur = some rcur := by
      rw [mainMco_beside]
      exact beside_co hrcur
    rw [mcoResume_eq hr hrun hfin htop hrcur] at h
    rw [mcoResume_eq (beside_co hr) hrun hfin htop' hrcur', mainMco_beside]
    by_cases hsink : rcur.sink = some c
    · rw [if_pos hsink] at h ⊢
      exact hcb.yield_beside hib hspb h
    · rw [if_neg hsink] at h ⊢
      cases hst : r.start with
      | true =>
          rw [hst, if_pos rfl] at h
          rw [if_pos rfl]
          exact hcb.push_again_beside hib hf hne hrb hst hrun hspb h
      | false =>
          rw [hst, if_neg (by decide)] at h
          rw [if_neg (by decide)]
          exact hcb.push_first_beside hib hf hne hrb hst hfin hspb h

/-! ### The operations that do not switch -/

theorem regions_create {c : McoRef} {p : Bool} (hi : Regions t lo size w) :
    Regions t lo size (w.mcoCreate c p) := by
  have hnone : (w.mcoCreate c p).client c = none := by
    simp only [client, mcoCreate, Function.update_self]
  refine hi.kept ⟨rfl, rfl⟩ ?_ ?_ (fun _ _ _ hx => hx)
  · intro d a n e hd
    by_cases hdc : d = c
    · rw [hdc, shape, mcoCreate] at hd
      simp only [Function.update_self, Option.map_none] at hd
      cases hd
    · simp only [shape, mcoCreate, Function.update_of_ne hdc] at hd
      exact hd
  · intro d k hk
    have hdc : d ≠ c := by
      rintro rfl
      rw [hnone] at hk
      cases hk
    rw [← hk]
    refine (client_congr ?_ ?_).symm
    · simp only [duty, mcoCreate, Function.update_of_ne hdc]
    · simp only [mcoCreate, Function.update_of_ne hdc]

/-- Freeing a coroutine of the thread takes nothing away beside it. -/
theorem free_beside {co : Option McoRef} (hi : Regions t lo size w)
    (hb : ∀ c, (w.co c).isSome → b.co c = none ∧ b.stack c = none)
    (h : w.mcoFree t co = .ok w') :
    Regions t lo size w' ∧ (beside t w b).mcoFree t co = .ok (beside t w' b) := by
  rcases mcoFree_cases h with ⟨rfl, rfl⟩ | ⟨c, r, rfl, hr, hrun, rfl⟩ | ⟨c, r, rfl, hr, hrun, hw⟩
  · exact ⟨hi, rfl⟩
  · refine ⟨hi.kept ⟨rfl, rfl⟩ (fun _ _ _ _ hd => hd) ?_ (fun _ _ _ hx => hx), ?_⟩
    · intro d k hk
      have hduty : (w.setCo c { r with shouldClose := true }).duty = w.duty :=
        setCo_duty w hr rfl
      rw [← hk]
      exact (client_congr (congrFun hduty d) rfl).symm
    · unfold mcoFree
      simp only [beside_co hr]
      rw [if_pos hrun, setCo_beside (by rw [hr]; rfl)]
  · have hco : w'.co = Function.update w.co c none := by rw [hw]
    have hstk : w'.stack = Function.update w.stack c none := by rw [hw]
    have hex : w'.exec = w.exec := by
      rw [hw]
      by_cases hoc : (w.mgr t).commonOccupy = some c
      · simp only [if_pos hoc, setCommonOccupy]
      · simp only [if_neg hoc]
    have hblock : (w'.mgr t).commonStack = (w.mgr t).commonStack ∧
        (w'.mgr t).commonSize = (w.mgr t).commonSize := by
      rw [hw]
      by_cases hoc : (w.mgr t).commonOccupy = some c
      · simp only [if_pos hoc, setCommonOccupy, Function.update_self, and_self]
      · simp only [if_neg hoc, and_self]
    have hnone : w'.client c = none := by
      simp only [client, hco, Function.update_self]
    refine ⟨hi.kept hblock ?_ ?_ (fun _ _ _ hx => by rw [hex]; exact hx), ?_⟩
    · intro d a n e hd
      by_cases hdc : d = c
      · rw [hdc, shape, hstk, Function.update_self] at hd
        cases hd
      · rw [shape, hstk, Function.update_of_ne hdc] at hd
        exact hd
    · intro d k hk
      have hdc : d ≠ c := by
        rintro rfl
        rw [hnone] at hk
        cases hk
      rw [← hk]
      refine (client_congr ?_ ?_).symm
      · simp only [duty, hco, Function.update_of_ne hdc]
      · simp only [hstk, Function.update_of_ne hdc]
    · have hbc := hb c (by rw [hr]; rfl)
      have hgone : ∀ u : World, ({ beside t u b with
            co := Function.update (beside t u b).co c none
            stack := Function.update (beside t u b).stack c none } : World)
          = beside t { u with
              co := Function.update u.co c none
              stack := Function.update u.stack c none } b := by
        intro u
        apply World.ext
        · funext d
          by_cases hd : d = c
          · rw [hd]
            simp only [beside, Function.update_self, Option.isSome_none, Bool.false_eq_true,
              if_false, hbc.1]
          · simp only [beside, Function.update_of_ne hd]
        · funext d
          by_cases hd : d = c
          · rw [hd]
            simp only [beside, Function.update_self, Option.isSome_none, Bool.false_eq_true,
              if_false, hbc.2]
          · simp only [beside, Function.update_of_ne hd]
        · rfl
        · rfl
        · rfl
        · rfl
      unfold mcoFree
      simp only [beside_co hr, beside_mgr]
      rw [if_neg (by rw [hrun]; decide), hw]
      by_cases hoc : (w.mgr t).commonOccupy = some c
      · simp only [if_pos hoc, setCommonOccupy_beside]
        exact congrArg Except.ok (hgone (w.setCommonOccupy t none))
      · simp only [if_neg hoc]
        exact congrArg Except.ok (hgone w)

/-- A byte is stored in the thread's own block. -/
theorem write_beside {x : Nat} {y : UInt8} (hi : Regions t lo size w)
    (hsup : ∃ c s, w.exec t = some c ∧ w.stack c = some s ∧ s.isPrivate = false ∧
      s.stack ≤ x ∧ x < s.stack + s.size) :
    Regions t lo size { w with mem := Function.update w.mem x y } ∧
      ({ beside t w b with mem := Function.update (beside t w b).mem x y } : World)
        = beside t { w with mem := Function.update w.mem x y } b := by
  rcases hsup with ⟨c, s, _, hs, hp, h1, h2⟩
  have hin : w.InBlock t x := by
    rcases hi.laid.stack hs hp with ⟨ha, hn, _⟩
    unfold World.InBlock
    omega
  refine ⟨hi.kept ⟨rfl, rfl⟩ (fun _ _ _ _ hd => hd) (fun _ _ hk => hk) (fun _ _ _ hx => hx), ?_⟩
  apply setMem_beside
  · intro z hz
    by_cases hzx : z = x
    · rw [hzx, Function.update_self, Function.update_self]
    · rw [Function.update_of_ne hzx, Function.update_of_ne hzx]
      exact beside_mem hz
  · intro z hz
    have hzx : z ≠ x := by
      rintro rfl
      exact hz hin
    rw [Function.update_of_ne hzx]
    exact if_neg hz

end Carried

/-- What an operation does to the thread's part of a state it does wherever
    that part is, and nothing else. -/
theorem regions_step {w w' b : World} {f : Frames} {t : Tid} {lo size : Nat} {a : Op}
    (hc : Carried w f t) (hi : Regions t lo size w) (ha : OnThread t w a)
    (hb : ∀ c, (w.co c).isSome → b.co c = none ∧ b.stack c = none) (h : w.step a = .ok w') :
    Regions t lo size w' ∧ (beside t w b).step a = .ok (beside t w' b) := by
  rcases ha with ⟨ht, ⟨_, hsup⟩, _⟩
  cases a with
  | create u c p =>
      injection h with h
      rw [← h]
      exact ⟨Carried.regions_create hi, congrArg Except.ok (mcoCreate_beside c p)⟩
  | mainMco u e =>
      change u = t at ht
      rw [ht] at hsup h ⊢
      injection h with h
      rw [← h]
      exact ⟨hc.regions_mainMco hi, congrArg Except.ok (mainMco_beside e)⟩
  | resume u co e =>
      change u = t at ht
      rw [ht] at hsup h ⊢
      exact hc.resume_beside hi hsup.2.2 hsup.2.1 h
  | yield u co sp =>
      change u = t at ht
      rw [ht] at hsup h ⊢
      exact hc.yield_beside hi hsup.2 h
  | finish u sp =>
      change u = t at ht
      rw [ht] at hsup h ⊢
      exact hc.finish_beside hi hsup.2 h
  | free u co =>
      change u = t at ht
      rw [ht] at h ⊢
      exact Carried.free_beside hi hb h
  | write u x y =>
      change u = t at ht
      rw [ht] at hsup
      injection h with h
      rw [← h]
      rcases Carried.write_beside (b := b) (y := y) hi hsup with ⟨hi', heq⟩
      exact ⟨hi', congrArg Except.ok heq⟩

end Fasco
