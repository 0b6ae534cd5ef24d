import Fasco.Theory.SwitchReady

/-!
# What a Coroutine Finds on Its Stack

The contents of the common block over whole runs of one thread whose callers
behave. `Carried` joins the order of the call stack to the state of the block:
the topmost coroutine, if it runs on the block, has it.

A step of the thread leaves what every other coroutine owns alone
(`carried_step`), so a coroutine that regains control finds the bytes that
were in its region when it gave control up, however many others have run on
the block since.

## Main definitions

* `Carried`: The invariant of a thread and its common block.
* `Kept`: What a step leaves to the coroutines that do not run.
* `PushFrom`: A state a coroutine can be put on top in.

## Theorems

* `swap_carried`, `swap_kept`: What a switch leaves behind.
* `Carried.pop_ready`, `Carried.push_ready`: A thread can switch.
* `Carried.pop`, `Carried.push`: The two moves keep the invariant.
* `carried_step`: A step keeps the invariant and the contents.
-/

namespace Fasco

open World

/-! ### The number of keys of the call stack -/

/-- `size` is not zero once there is a key. -/
def McoCallStack.Sized (s : McoCallStack) : Prop := ∀ i, (s.callStack i).isSome → 0 < s.size

theorem McoCallStack.Sized.push {s : McoCallStack} (h : s.Sized) (c : McoRef) :
    (s.push c).Sized := by
  have hpos : 0 < (s.push c).size := by
    unfold McoCallStack.push McoCallStack.put
    simp only []
    by_cases hk : (s.callStack s.index).isSome
    · rw [if_pos hk]
      exact h _ hk
    · rw [if_neg hk]
      omega
  exact fun _ _ => hpos

theorem McoCallStack.Sized.pop {s : McoCallStack} (h : s.Sized) : s.pop.Sized := h

theorem McoCallStack.Sized.getCurMco {s : McoCallStack} {c : McoRef} (h : s.Sized)
    (hc : s.fromTop 1 = some c) : s.getCurMco = some c := by
  have hpos : 0 < s.size := by
    rcases McoCallStack.fromTop_some hc with ⟨_, hs⟩
    refine h (s.index - 1) ?_
    unfold McoCallStack.slot at hs
    cases hk : s.callStack (s.index - 1) with
    | none =>
        rw [hk] at hs
        cases hs
    | some v => rfl
  unfold McoCallStack.getCurMco
  rw [if_pos hpos, hc]

/-! ### The invariant -/

/-- Whether a live coroutine is one `MainMco` made. -/
def World.mainOf (w : World) (c : McoRef) : Option Bool := (w.ctl c).map (fun r => r.isMain)

/-- On thread `t`, the only one to use coroutines, the call stack is in order
    above a main coroutine and every client's bytes are in the block or saved,
    those of the topmost in the block. -/
structure Carried (w : World) (f : Frames) (t : Tid) : Prop where
  orderly : Orderly w f
  alone : ∀ u, u ≠ t → f u = []
  backed : Backed w t none
  settled : (w.block t).Settled
  holder : ∀ c k, (f t).head? = some c → w.client c = some k → (w.mgr t).commonOccupy = some c
  sized : (w.callstack t).Sized
  base : ∀ c, (f t).getLast? = some c → w.mainOf c = some true

/-- What a step of thread `t` leaves on the stacks of the coroutines that do
    not run, and on that of one that gives up control. -/
structure Kept (w w' : World) (t : Tid) : Prop where
  other : ∀ c k, w'.client c = some k → w.exec t ≠ some c →
    (w.client c = none ∧ w'.exec t = some c) ∨ (w'.block t).content c = (w.block t).content c
  caller : ∀ c k, w'.client c = some k → w.exec t = some c → w'.exec t ≠ some c →
    k.content w'.mem = Spill.read w.mem k.lo (k.hi - k.lo)
  stays : ∀ c k, w.client c = some k → w.exec t ≠ some c →
    w'.co c = none ∨ ∃ k', w'.client c = some k'

theorem carried_init {w : World} (h : Init w) (t : Tid) : Carried w (fun _ => []) t := by
  have hclient : ∀ c, w.client c = none := by
    intro c
    simp only [client, h.co c]
  refine ⟨orderly_init h, fun _ _ => rfl, ⟨⟨?_, ?_⟩, ?_, ?_, ?_⟩, ?_, ?_, ?_, ?_⟩
  · intro c k hk
    have hk' : w.client c = some k := hk
    rw [hclient c] at hk'
    cases hk'
  · intro c k hk
    have hk' : w.client c = some k := hk
    rw [hclient c] at hk'
    cases hk'
  · intro o ho
    rw [h.occupy t] at ho
    cases ho
  · intro c r hr
    rw [h.co c] at hr
    cases hr
  · intro c r hr
    rw [h.co c] at hr
    cases hr
  · intro c k ho
    have ho' : (w.mgr t).commonOccupy = some c := ho
    rw [h.occupy t] at ho'
    cases ho'
  · intro c k hc
    cases hc
  · intro i hi
    rw [h.callstack t] at hi
    cases hi
  · intro c hc
    cases hc

theorem Kept.of_content {w w' : World} {t : Tid} (hx : w'.exec = w.exec)
    (h : ∀ c k, w'.client c = some k → w.exec t ≠ some c →
      (w'.block t).content c = (w.block t).content c)
    (hs : ∀ c k, w.client c = some k → w'.co c = none ∨ ∃ k', w'.client c = some k') :
    Kept w w' t := by
  refine ⟨fun c k hk hc => Or.inr (h c k hk hc), fun c k _ hc hc' => ?_,
    fun c k hk _ => hs c k hk⟩
  rw [hx] at hc'
  exact absurd hc hc'

theorem Kept.refl (w : World) (t : Tid) : Kept w w t :=
  Kept.of_content rfl (fun _ _ _ _ => rfl) (fun _ k hk => Or.inr ⟨k, hk⟩)

/-! ### A switch keeps it -/

/-- A switch loses nobody's bytes, counted from the step that made it. -/
theorem swap_kept {w pre w' : World} {t : Tid} {a b : McoRef} {sp : Nat} (hne : a ≠ b)
    (hlead : pre.LeadsTo b) (hr : SwapReady pre t a b) (h : pre.mcoSwap t a b sp = .ok w')
    (hmem : pre.mem = w.mem) (hx : w.exec t = some a) (hx' : w'.exec t = some b)
    (hpre : ∀ d k, pre.client d = some k → (d = b ∧ w.client b = none) ∨
      (pre.block t).content d = (w.block t).content d)
    (hstay : ∀ d k, d ≠ a → w.client d = some k → ∃ k', pre.client d = some k') :
    Kept w w' t := by
  have hcont := mcoSwap_content hne hlead hr h
  refine ⟨?_, ?_, ?_⟩
  · intro c k hk hxc
    have hca : c ≠ a := by
      rintro rfl
      exact hxc hx
    have hk' : (w'.block t).client c = some k := hk
    have hc := hcont c
    rw [Spill.Block.mark_content_of_ne _ hca] at hc
    have hsome := Spill.Block.content_eq hk'
    rw [hc] at hsome
    rcases Option.map_eq_some_iff.mp hsome with ⟨k0, hk0, _⟩
    -- `b` may have become a client in this step; all others were clients before.
    rcases hpre c k0 hk0 with ⟨hcb, hnone⟩ | heq
    · exact Or.inl ⟨by rw [hcb]; exact hnone, by rw [hcb]; exact hx'⟩
    · exact Or.inr (hc.trans heq)
  · intro c k hk hxc _
    have hca : a = c := by
      rw [hx] at hxc
      injection hxc
    rw [← hca] at hk
    have hk' : (w'.block t).client a = some k := hk
    have hc := hcont a
    rw [Spill.Block.content_eq hk'] at hc
    rcases Option.map_eq_some_iff.mp hc.symm with ⟨km, hkm, htri⟩
    simp only [Spill.Block.mark, Function.update_self] at hkm
    rcases Option.map_eq_some_iff.mp hkm with ⟨k0, hk0, hkk⟩
    -- `a` had the block, so its bytes were in memory up to the stack pointer given.
    have hunsaved := hr.settled a k0 (hr.caller k0 hk0) hk0
    have hkmn : km.saved = none := by
      rw [← hkk]
      exact hunsaved
    injection htri with h1 h2
    injection h2 with h2 h3
    change k.content (w'.block t).mem = _
    rw [← h3, Spill.Client.content_unsaved hkmn, h1, h2]
    change Spill.read pre.mem k.lo (k.hi - k.lo) = _
    rw [hmem]
  · intro c k hk hxc
    have hca : c ≠ a := by
      rintro rfl
      exact hxc hx
    rcases hstay c k hca hk with ⟨k0, hk0⟩
    have hc := hcont c
    have hk0' : (pre.block t).client c = some k0 := hk0
    rw [Spill.Block.mark_content_of_ne _ hca, Spill.Block.content_eq hk0'] at hc
    rcases Option.map_eq_some_iff.mp hc with ⟨k', hk', _⟩
    exact Or.inr ⟨k', hk'⟩

/-- After a switch the coroutine that goes on has the block, if it is on it. -/
theorem swap_carried {pre w' : World} {f : Frames} {t : Tid} {a b : McoRef} {sp : Nat}
    (hne : a ≠ b) (hlead : pre.LeadsTo b) (hr : SwapReady pre t a b)
    (h : pre.mcoSwap t a b sp = .ok w') (ho : Orderly w' f) (halone : ∀ u, u ≠ t → f u = [])
    (hhead : (f t).head? = some b) (hsized : (w'.callstack t).Sized)
    (hbase : ∀ c, (f t).getLast? = some c → w'.mainOf c = some true) : Carried w' f t := by
  rcases mcoSwap_block hne hlead hr h with ⟨hbk, hset, s, hs, hcase⟩
  refine ⟨ho, halone, hbk, hset, ?_, hsized, hbase⟩
  intro c k hc hk
  rw [hhead] at hc
  injection hc with hc
  rw [← hc] at hk ⊢
  rcases hcase with ⟨hp, hblk⟩ | ⟨_, hblk⟩
  · -- A coroutine with a stack of its own is no client.
    exfalso
    have hk' : ((pre.block t).mark a sp).client b = some k := by
      rw [← hblk]
      exact hk
    simp only [Spill.Block.mark, Function.update_of_ne hne.symm] at hk'
    rcases client_eq_some.mp hk' with ⟨_, s', _, hs', _, hp', _⟩
    rw [hs] at hs'
    injection hs' with hs'
    rw [← hs', hp] at hp'
    cases hp'
  · have : (w'.block t).holder = some b := by
      rw [hblk, Spill.Block.restore_holder, Spill.Block.occupy_holder]
    exact this

theorem World.Popped.mainOf {w w' : World} {t : Tid} {c s : McoRef} {ended : Bool}
    (h : Popped w w' t c s ended) (d : McoRef) : w'.mainOf d = w.mainOf d := by
  rcases h.ctl_from with ⟨rc, rc', hrc, _, hrc', hy⟩
  rcases h.ctl_to with ⟨rs, hrs, hrs'⟩
  unfold World.mainOf
  by_cases hdc : d = c
  · rw [hdc, hrc', hrc, Option.map_some, Option.map_some, hy.isMain]
    rfl
  · by_cases hds : d = s
    · rw [hds, hrs', hrs]
      rfl
    · rw [h.ctl_other d hdc hds]

theorem World.Pushed.mainOf {w w' : World} {t : Tid} {cur c : McoRef} (h : Pushed w w' t cur c)
    (d : McoRef) : w'.mainOf d = w.mainOf d := by
  rcases h.ctl_from with ⟨rc, hrc, hrc'⟩
  rcases h.ctl_to with ⟨r, r', hr, hr', hres⟩
  unfold World.mainOf
  by_cases hdc : d = c
  · rw [hdc, hr', hr, Option.map_some, Option.map_some, hres.isMain]
  · by_cases hdcur : d = cur
    · rw [hdcur, hrc', hrc]
      rfl
    · rw [h.ctl_other d hdcur hdc]

/-- `c`, with record `r`, can be put on `cur` in the state `v`, which is the
    current one but that `c` may just have been started. -/
structure PushFrom (w v : World) (t : Tid) (cur c : McoRef) (rcur r : McoRoutine) : Prop where
  backed : Backed v t (some c)
  settled : (v.block t).Settled
  below : v.co cur = some rcur
  client : v.client cur = w.client cur
  mgr : v.mgr = w.mgr
  mem : v.mem = w.mem
  callstack : v.callstack = w.callstack
  co : v.co c = some r
  start : r.start = true
  flag : ∀ m, r.coctx.ctx = some m → m.regs = .entry c → r.stackStore = false
  regs : ∃ m, r.coctx.ctx = some m ∧ (m.regs = .entry c ∨ m.regs = .inSwap (some c))
  content : ∀ d k, v.client d = some k → (d = c ∧ w.client c = none) ∨
    (v.block t).content d = (w.block t).content d
  stay : ∀ d k, w.client d = some k → ∃ k', v.client d = some k'

namespace Carried

variable {w w' : World} {f : Frames} {t : Tid}

theorem alone_update (hc : Carried w f t) (l : List McoRef) :
    ∀ u, u ≠ t → Function.update f t l u = [] := fun u hu => by
  rw [Function.update_of_ne hu]
  exact hc.alone u hu

/-- The only thread that uses coroutines has on top the one that runs. -/
theorem head_of_running (hc : Carried w f t) {c : McoRef} {r : McoRoutine} (hr : w.ctl c = some r)
    (hrun : r.running = true) : (f t).head? = some c := by
  refine hc.orderly.steady.head_of_solo hc.alone ?_
  rw [runs_of_ctl hr, hrun]

/-- Taking the topmost coroutine off is ready to switch. The state `v` it is
    taken off from is the current one, but that `done` may have been set. -/
theorem pop_ready {v : World} {c s : McoRef} {r rs : McoRoutine} {l : List McoRef}
    (hc : Carried w f t) (hf : f t = c :: s :: l) (hduty : v.duty = w.duty)
    (hstack : v.stack = w.stack) (hmgr : v.mgr = w.mgr) (hmem : v.mem = w.mem)
    (hcs : v.callstack = w.callstack) (hr : v.co c = some r) (hrs : v.co s = some rs)
    (hctl : v.ctl s = w.ctl s) :
    (v.callstack t).fromTop 2 = some s ∧ c ≠ s ∧ (v.beforePop t c r s rs).LeadsTo s ∧
      SwapReady (v.beforePop t c r s rs) t c s ∧
      (∀ d k, (v.beforePop t c r s rs).client d = some k →
        ((v.beforePop t c r s rs).block t).content d = (w.block t).content d) ∧
      ∀ d, d ≠ c → (v.beforePop t c r s rs).client d = w.client d := by
  have hb := hc.backed.congr hduty hstack (by rw [hmgr]) hmem
  have hclient : v.client = w.client := congrArg Spill.Block.client hb.1
  have hmem_s : s ∈ f t := by
    rw [hf]
    exact List.mem_cons_of_mem c List.mem_cons_self
  have hne : c ≠ s := by
    have := hc.orderly.steady.apart t
    rw [hf] at this
    exact (List.isChain_cons_cons.mp this).1
  rcases hc.orderly.started t s hmem_s with ⟨rs0, hrs0, hst0⟩
  have hrs1 : forget rs = rs0 := by
    have := ctl_of_co hrs
    rw [hctl, hrs0] at this
    injection this with this
    exact this.symm
  have hrst : rs.start = true := by
    rw [← hrs1] at hst0
    exact hst0
  have hlow := (hc.orderly.poppable t).below c s l hf
  -- The coroutine below is suspended inside `McoSwap`.
  have hsaved : ∀ m, rs.coctx.ctx = some m → m.regs = .inSwap (some s) := by
    intro m hm
    rcases ctl_of_runs hlow with ⟨r1, hr1, hrun⟩
    rw [hrs0, ← hrs1] at hr1
    injection hr1 with hr1
    rw [← hr1] at hrun
    rw [← hrs1] at hrs0
    exact (hc.orderly.steady.sound s (forget rs) hrs0).regs m hm hrun
  have hbelow : (v.callstack t).fromTop 2 = some s := by
    rw [hcs, hc.orderly.steady.fromTop_two t, hf]
    rfl
  have htop : (v.callstack t).pop.getCurMco = some s := by
    have hsz : (v.callstack t).pop.Sized := by
      rw [hcs]
      exact hc.sized.pop
    exact hsz.getCurMco (McoCallStack.pop_fromTop_one hbelow)
  have hhold : ∀ k, v.client c = some k → (v.mgr t).commonOccupy = some c := by
    intro k hk
    rw [hclient] at hk
    rw [hmgr]
    exact hc.holder c k (by rw [hf]; rfl) hk
  -- Nothing that the block goes by has changed from `w` to `v`.
  have hset : (v.block t).Settled := by
    rw [hb.1]
    exact hc.settled
  rcases beforePop_ready hb.2 hset hr hhold hne hrs hrst hsaved htop with ⟨hready, hpre, hsame⟩
  refine ⟨hbelow, hne, ?_, hready, ?_, ?_⟩
  · rcases hc.orderly.steady.ready t s hmem_s with ⟨r1, hr1, hctx⟩
    rw [hrs0] at hr1
    injection hr1 with hr1
    rw [← hr1, ← hrs1] at hctx
    rcases Option.isSome_iff_exists.mp hctx with ⟨m, hm⟩
    refine ⟨forget { rs with running := true }, m, ?_, hm, Or.inr (hsaved m hm)⟩
    refine ctl_of_co ?_
    simp only [beforePop, setCo, Function.update_self]
  · intro d k hk
    rw [(hpre d k hk).2, hb.1]
  · intro d hd
    rw [hsame d hd, hclient]

/-- The topmost coroutine is taken off. -/
theorem pop {v : World} {c s : McoRef} {r rs : McoRoutine} {l : List McoRef} {sp : Nat}
    {ended : Bool} (hc : Carried w f t) (hf : f t = c :: s :: l) (hduty : v.duty = w.duty)
    (hstack : v.stack = w.stack) (hmgr : v.mgr = w.mgr) (hmem : v.mem = w.mem)
    (hcs : v.callstack = w.callstack) (hr : v.co c = some r) (hrs : v.co s = some rs)
    (hctl : v.ctl s = w.ctl s) (h : (v.beforePop t c r s rs).mcoSwap t c s sp = .ok w')
    (hp : Popped w w' t c s ended) (ho : Orderly w' (Function.update f t (s :: l))) :
    Carried w' (Function.update f t (s :: l)) t ∧ Kept w w' t := by
  rcases hc.pop_ready hf hduty hstack hmgr hmem hcs hr hrs hctl with
    ⟨_, hne, hlead, hready, hpre, hsame⟩
  refine ⟨swap_carried hne hlead hready h ho (hc.alone_update _) ?_ ?_ ?_, ?_⟩
  · rw [Function.update_self]
    rfl
  · rw [hp.callstack, Function.update_self]
    exact hc.sized.pop
  · intro d hd
    rw [Function.update_self] at hd
    rw [hp.mainOf d]
    refine hc.base d ?_
    rw [hf]
    exact hd
  · refine swap_kept hne hlead hready h hmem ?_ ?_ ?_ ?_
    · rw [hc.orderly.steady.exec t, hf]
      rfl
    · rw [hp.exec, Function.update_self]
    · intro d k hk
      exact Or.inr (hpre d k hk)
    · intro d k hd hk
      exact ⟨k, by rw [hsame d hd]; exact hk⟩

/-- Putting a coroutine on top is ready to switch. -/
theorem push_ready {v : World} {cur c : McoRef} {rcur r : McoRoutine} {l : List McoRef}
    (hc : Carried w f t) (hf : f t = cur :: l) (hne : cur ≠ c) (hv : PushFrom w v t cur c rcur r) :
    (v.beforePush t cur rcur c r).LeadsTo c ∧ SwapReady (v.beforePush t cur rcur c r) t cur c ∧
      (v.beforePush t cur rcur c r).block t = v.block t := by
  have htop : ((v.callstack t).push c).getCurMco = some c := by
    have hsz : ((v.callstack t).push c).Sized := by
      rw [hv.callstack]
      exact hc.sized.push c
    exact hsz.getCurMco (McoCallStack.push_fromTop_one _ c)
  have hhold : ∀ k, v.client cur = some k → (v.mgr t).commonOccupy = some cur := by
    intro k hk
    rw [hv.client] at hk
    rw [hv.mgr]
    exact hc.holder cur k (by rw [hf]; rfl) hk
  rcases beforePush_ready hv.backed hv.settled hv.below hhold hne hv.co hv.start hv.flag htop with
    ⟨hready, hblk⟩
  refine ⟨?_, hready, hblk⟩
  rcases hv.regs with ⟨m, hm, hm'⟩
  refine ⟨forget (r.takeOver (some cur)), m, ctl_of_co ?_, hm, hm'⟩
  simp only [beforePush, setCo, Function.update_of_ne hne.symm, Function.update_self]

/-- A coroutine is put on top. -/
theorem push {v : World} {cur c : McoRef} {rcur r : McoRoutine} {l : List McoRef} {sp : Nat}
    (hc : Carried w f t) (hf : f t = cur :: l) (hv : PushFrom w v t cur c rcur r)
    (h : (v.beforePush t cur rcur c r).mcoSwap t cur c sp = .ok w') (hp : Pushed w w' t cur c)
    (ho : Orderly w' (Function.update f t (c :: cur :: l))) :
    Carried w' (Function.update f t (c :: cur :: l)) t ∧ Kept w w' t := by
  rcases hc.push_ready hf hp.ne hv with ⟨hlead, hready, hblk⟩
  refine ⟨swap_carried hp.ne hlead hready h ho (hc.alone_update _) ?_ ?_ ?_, ?_⟩
  · rw [Function.update_self]
    rfl
  · rw [hp.callstack, Function.update_self]
    exact hc.sized.push c
  · intro d hd
    rw [Function.update_self, List.getLast?_cons_cons] at hd
    rw [hp.mainOf d]
    refine hc.base d ?_
    rw [hf]
    exact hd
  · have hclient : (v.beforePush t cur rcur c r).client = v.client :=
      congrArg Spill.Block.client hblk
    refine swap_kept hp.ne hlead hready h hv.mem ?_ ?_ ?_ ?_
    · rw [hc.orderly.steady.exec t, hf]
      rfl
    · rw [hp.exec, Function.update_self]
    · intro d k hk
      rw [hclient] at hk
      rw [hblk]
      exact hv.content d k hk
    · intro d k _ hk
      rw [hclient]
      exact hv.stay d k hk

/-- A coroutine that has run before is put on top as it is. -/
theorem pushFrom_again {cur c : McoRef} {r : McoRoutine} {l : List McoRef} (hc : Carried w f t)
    (hf : f t = cur :: l) (hr : w.co c = some r) (hst : r.start = true)
    (hrun : r.running = false) : ∃ rcur, PushFrom w w t cur c rcur r := by
  rcases hc.orderly.steady.ready t cur (by rw [hf]; exact List.mem_cons_self) with ⟨rc, hrc, _⟩
  rcases co_of_ctl hrc with ⟨rcur, hrcur, _⟩
  have hsound := hc.orderly.steady.sound c _ (ctl_of_co hr)
  rcases Option.isSome_iff_exists.mp (hsound.begun hst).1 with ⟨m, hm⟩
  refine ⟨rcur, hc.backed.weaken _, hc.settled, hrcur, rfl, rfl, rfl, rfl, hr, hst, ?_,
    ⟨m, hm, Or.inr (hsound.regs m hm hrun)⟩, fun d k _ => Or.inr rfl, fun d k hk => ⟨k, hk⟩⟩
  intro m1 hm1 he
  rw [hsound.regs m1 hm1 hrun] at he
  cases he

/-- A coroutine that is started is put on top with its new context. -/
theorem pushFrom_first {cur c : McoRef} {r : McoRoutine} {l : List McoRef} (blk : Nat)
    (hc : Carried w f t) (hf : f t = cur :: l) (hne : cur ≠ c) (hr : w.co c = some r)
    (hst : r.start = false) (hfin : r.finished = false) :
    ∃ rcur, PushFrom w ((w.started t c r blk).1.setCo c (w.started t c r blk).2) t cur c rcur
      (w.started t c r blk).2 ∧
      (w.started t c r blk).1.beforePush t cur rcur c (w.started t c r blk).2
        = ((w.started t c r blk).1.setCo c (w.started t c r blk).2).beforePush t cur rcur c
          (w.started t c r blk).2 ∧
      (w.started t c r blk).1.co cur = some rcur := by
  rcases hc.orderly.steady.ready t cur (by rw [hf]; exact List.mem_cons_self) with ⟨rc, hrc, _⟩
  rcases co_of_ctl hrc with ⟨rcur, hrcur, _⟩
  have hrcur1 : (w.started t c r blk).1.co cur = some rcur := by
    simp only [started, initMcoContext, setCo, setStack, Function.update_of_ne hne]
    exact hrcur
  rcases started_ready blk hc.backed hc.settled hr hst hfin with ⟨hb, hset, hcont⟩
  -- A coroutine that has not started is no client.
  have hnone : w.client c = none := by
    cases hk : w.client c with
    | none => rfl
    | some k =>
        rcases client_eq_some.mp hk with ⟨r1, _, hr1, _, hst1, _⟩
        rw [hr] at hr1
        injection hr1 with hr1
        rw [← hr1, hst] at hst1
        cases hst1
  have hsame : ∀ d, d ≠ c → ((w.started t c r blk).1.setCo c (w.started t c r blk).2).client d
      = w.client d := by
    intro d hd
    refine client_congr ?_ ?_
    · simp only [duty, started, initMcoContext, setCo, setStack, Function.update_of_ne hd]
    · simp only [started, initMcoContext, setCo, setStack, Function.update_of_ne hd]
  refine ⟨rcur, ⟨hb, hset, ?_, hsame cur hne, rfl, rfl, rfl, ?_, rfl, ?_, ⟨_, rfl, Or.inl rfl⟩,
    ?_, ?_⟩, ?_, hrcur1⟩
  · simp only [setCo, Function.update_of_ne hne]
    exact hrcur1
  · simp only [setCo, Function.update_self]
  · intro m _ _
    cases hf : r.stackStore with
    | false => exact hf
    | true =>
        have := (hc.backed.stored c r hr hf).1
        rw [hst] at this
        cases this
  · intro d k _
    by_cases hd : d = c
    · exact Or.inl ⟨hd, hnone⟩
    · exact Or.inr (hcont d hd)
  · intro d k hk
    have hd : d ≠ c := by
      rintro rfl
      rw [hnone] at hk
      cases hk
    exact ⟨k, by rw [hsame d hd]; exact hk⟩
  · -- The record is written by the push anyway, so it may be written before.
    simp only [beforePush, setCo, setCallstack, Function.update_idem]

theorem top_eq {cur : McoRef} {l : List McoRef} (hc : Carried w f t) (hf : f t = cur :: l) :
    w.top t = some cur := by
  change (w.callstack t).fromTop 1 = some cur
  rw [hc.orderly.steady.fromTop_one t, hf]
  rfl

/-- Pushing a coroutine that has run before. -/
theorem push_again {cur c : McoRef} {r : McoRoutine} {l : List McoRef} {sp : Nat}
    (hc : Carried w f t) (hf : f t = cur :: l) (hr : w.co c = some r) (hst : r.start = true)
    (hrun : r.running = false) (h : w.pushCallstack t c r sp = .ok w') (hp : Pushed w w' t cur c)
    (ho : Orderly w' (Function.update f t (c :: cur :: l))) :
    Carried w' (Function.update f t (c :: cur :: l)) t ∧ Kept w w' t := by
  rcases hc.pushFrom_again hf hr hst hrun with ⟨rcur, hv⟩
  rw [pushCallstack_eq (hc.top_eq hf) hp.ne hv.below] at h
  exact hc.push hf hv h hp ho

/-- Pushing a coroutine for the first time. -/
theorem push_first {cur c : McoRef} {r : McoRoutine} {l : List McoRef} {sp blk : Nat}
    (hc : Carried w f t) (hf : f t = cur :: l) (hr : w.co c = some r) (hst : r.start = false)
    (hfin : r.finished = false)
    (h : (w.started t c r blk).1.pushCallstack t c (w.started t c r blk).2 sp = .ok w')
    (hp : Pushed w w' t cur c) (ho : Orderly w' (Function.update f t (c :: cur :: l))) :
    Carried w' (Function.update f t (c :: cur :: l)) t ∧ Kept w w' t := by
  rcases hc.pushFrom_first blk hf hp.ne hr hst hfin with ⟨rcur, hv, hsame, hrcur⟩
  have htop : (w.started t c r blk).1.top t = some cur := hc.top_eq hf
  rw [pushCallstack_eq htop hp.ne hrcur, hsame] at h
  exact hc.push hf hv h hp ho

/-- `McoYield` of the topmost coroutine. -/
theorem yield_pop {c s : McoRef} {l : List McoRef} {sp : Nat} (hc : Carried w f t)
    (hf : f t = c :: s :: l) (h : w.mcoYield t (some c) sp = .ok w')
    (hp : Popped w w' t c s false) (ho : Orderly w' (Function.update f t (s :: l))) :
    Carried w' (Function.update f t (s :: l)) t ∧ Kept w w' t := by
  rcases mcoYield_cases h with ⟨_, hq⟩ | ⟨c', r, s', hco, hr, hrun, hfin, hsink, hbelow, _, _, _⟩
  · -- The topmost coroutine is running and has not finished.
    exfalso
    rcases hq c rfl with ⟨r, hr, hbad⟩
    have hruns := hc.orderly.steady.head_runs (t := t) (c := c) (by rw [hf]; rfl)
    rw [runs_of_ctl (ctl_of_co hr)] at hruns
    injection hruns with hruns
    have hdy := hc.orderly.unfinished (t := t) (c := c) (by rw [hf]; exact List.mem_cons_self)
      (ctl_of_co hr)
    rcases hbad with hbad | hbad
    · have hruns' : r.running = true := hruns
      rw [hruns'] at hbad
      cases hbad
    · have hdy' : r.doneYield = false := hdy
      rw [McoRoutine.finished, hdy', Bool.and_false] at hbad
      cases hbad
  · injection hco with hco
    rw [← hco] at hr
    rw [hp.below] at hbelow
    injection hbelow with hbelow
    rw [← hbelow] at hsink
    rcases hp.ctl_to with ⟨rs0, hrs0, _⟩
    rcases co_of_ctl hrs0 with ⟨rs, hrs, _⟩
    rw [mcoYield_eq hr hrun hfin hsink hp.below hp.ne hrs] at h
    exact hc.pop hf rfl rfl rfl rfl rfl hr hrs rfl h hp ho

/-- The end of the topmost coroutine's callback. -/
theorem finish_pop {c s : McoRef} {l : List McoRef} {sp : Nat} (hc : Carried w f t)
    (hf : f t = c :: s :: l) (h : w.coroutineRun t sp = .ok w')
    (hp : Popped w w' t c s true) (ho : Orderly w' (Function.update f t (s :: l))) :
    Carried w' (Function.update f t (s :: l)) t ∧ Kept w w' t := by
  rcases coroutineRun_cases h with ⟨c', r, hx, hr, hrun, hdy, hy⟩
  have hcc : c' = c := by
    rw [hc.orderly.steady.exec t, hf] at hx
    injection hx with hx
    exact hx.symm
  rw [hcc] at hr hy
  rcases hp.ctl_from with ⟨rc, _, hrc, hsink, _, _⟩
  rw [ctl_of_co hr] at hrc
  injection hrc with hrc
  rw [← hrc] at hsink
  rcases hp.ctl_to with ⟨rs0, hrs0, _⟩
  rcases co_of_ctl hrs0 with ⟨rs, hrs, _⟩
  have hself : (w.setCo c { r with done := true }).co c = some { r with done := true } := by
    simp only [setCo, Function.update_self]
  have hsother : (w.setCo c { r with done := true }).co s = some rs := by
    simp only [setCo, Function.update_of_ne hp.ne.symm]
    exact hrs
  have hduty : (w.setCo c { r with done := true }).duty = w.duty := by
    refine setCo_duty w hr ?_
    simp only [McoRoutine.finished, hdy, Bool.and_false]
  have hctl : (w.setCo c { r with done := true }).ctl s = w.ctl s := by
    rw [setCo_ctl, Function.update_of_ne hp.ne.symm]
  have hfin : ({ r with done := true } : McoRoutine).finished = false := by
    simp only [McoRoutine.finished, hdy, Bool.and_false]
  rw [mcoYield_eq hself hrun hfin hsink hp.below hp.ne hsother] at hy
  exact hc.pop hf hduty rfl rfl rfl rfl hself hsother hctl hy hp ho

/-! ### Steps that do not switch -/

theorem created {c : McoRef} {p : Bool} (hc : Carried w f t) (hfresh : w.co c = none) :
    Carried (w.mcoCreate c p) f t ∧ Kept w (w.mcoCreate c p) t := by
  have hne : (w.mgr t).commonOccupy ≠ some c := by
    intro ho
    rcases hc.backed.occ c ho with ⟨r, _, hr, _⟩
    rw [hfresh] at hr
    cases hr
  have hduty : ∀ d, d ≠ c → (w.mcoCreate c p).duty d = w.duty d := fun d hd => by
    simp only [duty, mcoCreate, Function.update_of_ne hd]
  have hstack : ∀ d, d ≠ c → (w.mcoCreate c p).stack d = w.stack d := fun d hd => by
    simp only [mcoCreate, Function.update_of_ne hd]
  have hself : ∀ r, (w.mcoCreate c p).co c = some r → r.start = false ∧ r.stackStore = false := by
    intro r hr
    simp only [mcoCreate, Function.update_self] at hr
    injection hr with hr
    rw [← hr]
    exact ⟨rfl, rfl⟩
  have hnone : (w.mcoCreate c p).client c = none := by
    simp only [client, mcoCreate, Function.update_self]
  have hch : Backed (w.mcoCreate c p) t none ∧ ((w.mcoCreate c p).block t).Settled :=
    hc.backed.change hc.settled hduty hstack (fun _ ho => ho) (fun _ _ ho => ho)
      (fun ho => absurd ho hne) (fun r hr => (hself r hr).2)
      (fun r hr hst => by
        rw [(hself r hr).1] at hst
        cases hst)
      (fun k hk => by
        rw [hnone] at hk
        cases hk)
  have hclient : ∀ d k, (w.mcoCreate c p).client d = some k → d ≠ c := by
    rintro d k hk rfl
    rw [hnone] at hk
    cases hk
  refine ⟨⟨hc.orderly.created hfresh, hc.alone, hch.1, hch.2, ?_, hc.sized, ?_⟩,
    Kept.of_content rfl (fun d k hk _ => content_congr (hduty d (hclient d k hk))
      (hstack d (hclient d k hk)) rfl) (fun d k hk => Or.inr ⟨k, ?_⟩)⟩
  · intro d k hd hk
    have hdc := hclient d k hk
    rw [client_congr (hduty d hdc) (hstack d hdc)] at hk
    exact hc.holder d k hd hk
  · intro d hd
    have hdc : d ≠ c := by
      rintro rfl
      have hmem : d ∈ f t := List.mem_of_getLast? hd
      exact hc.orderly.steady.fresh_not_mem (ctl_eq_none.mpr hfresh) t hmem
    rw [← hc.base d hd]
    unfold World.mainOf
    rw [mcoCreate_ctl, Function.update_of_ne hdc]
  · have hdc : d ≠ c := by
      rintro rfl
      rcases client_eq_some.mp hk with ⟨_, _, hr, _⟩
      rw [hfresh] at hr
      cases hr
    rw [client_congr (hduty d hdc) (hstack d hdc)]
    exact hk

theorem freed {co : Option McoRef} (hc : Carried w f t) (hflat : Flat w (.free t co))
    (h : w.mcoFree t co = .ok w') : Carried w' f t ∧ Kept w w' t := by
  have ho := hc.orderly.free hflat h
  rcases mcoFree_cases h with ⟨_, rfl⟩ | ⟨c, r, _, hr, _, rfl⟩ | ⟨c, r, rfl, hr, hrun, hw⟩
  · exact ⟨hc, Kept.refl _ t⟩
  · have hduty : (w.setCo c { r with shouldClose := true }).duty = w.duty := setCo_duty w hr rfl
    rcases hc.backed.congr hduty rfl rfl rfl with ⟨hblk, hbk⟩
    refine ⟨⟨ho, hc.alone, hbk, by rw [hblk]; exact hc.settled, ?_, hc.sized, ?_⟩,
      Kept.of_content rfl (fun d k _ _ => by rw [hblk]) (fun d k hk => Or.inr ⟨k, by
        rw [client_congr (congrFun hduty d) rfl]
        exact hk⟩)⟩
    · intro d k hd hk
      rw [client_congr (congrFun hduty d) rfl] at hk
      exact hc.holder d k hd hk
    · intro d hd
      rw [← hc.base d hd]
      unfold World.mainOf
      rw [setCo_ctl]
      by_cases hdc : d = c
      · rw [hdc, Function.update_self, ctl_of_co hr]
        rfl
      · rw [Function.update_of_ne hdc]
  · have hnot := hc.orderly.not_mem (ctl_of_co hr) hrun hflat
    -- The occupant is cleared if it was the object, so what remains is not.
    have hocc : ∀ o, (w'.mgr t).commonOccupy = some o →
        (w.mgr t).commonOccupy = some o ∧ o ≠ c := by
      intro o hoo
      rw [hw] at hoo
      by_cases hoc : (w.mgr t).commonOccupy = some c
      · simp only [if_pos hoc, setCommonOccupy, Function.update_self] at hoo
        cases hoo
      · simp only [if_neg hoc] at hoo
        refine ⟨hoo, ?_⟩
        rintro rfl
        exact hoc hoo
    have hocc' : ∀ o, o ≠ c → (w.mgr t).commonOccupy = some o →
        (w'.mgr t).commonOccupy = some o := by
      intro o hne hoo
      rw [hw]
      have hoc : (w.mgr t).commonOccupy ≠ some c := by
        intro hoc
        rw [hoo] at hoc
        injection hoc with hoc
        exact hne hoc
      simp only [if_neg hoc]
      exact hoo
    have hco : w'.co = Function.update w.co c none := by rw [hw]
    have hstk : w'.stack = Function.update w.stack c none := by rw [hw]
    have hcs : w'.callstack = w.callstack := by
      rw [hw]
      by_cases hoc : (w.mgr t).commonOccupy = some c
      · simp only [if_pos hoc, setCommonOccupy]
      · simp only [if_neg hoc]
    have hex : w'.exec = w.exec := by
      rw [hw]
      by_cases hoc : (w.mgr t).commonOccupy = some c
      · simp only [if_pos hoc, setCommonOccupy]
      · simp only [if_neg hoc]
    have hmem : w'.mem = w.mem := by
      rw [hw]
      by_cases hoc : (w.mgr t).commonOccupy = some c
      · simp only [if_pos hoc, setCommonOccupy]
      · simp only [if_neg hoc]
    have hduty : ∀ d, d ≠ c → w'.duty d = w.duty d := fun d hd => by
      simp only [duty, hco, Function.update_of_ne hd]
    have hstack : ∀ d, d ≠ c → w'.stack d = w.stack d := fun d hd => by
      rw [hstk, Function.update_of_ne hd]
    have hself : w'.co c = none := by rw [hco, Function.update_self]
    have hnone : w'.client c = none := by
      simp only [client, hself]
    have hch : Backed w' t none ∧ (w'.block t).Settled :=
      hc.backed.change hc.settled hduty hstack (fun o hoo => (hocc o hoo).1) hocc'
        (fun hoo => absurd rfl (hocc c hoo).2)
        (fun r1 hr1 => by
          rw [hself] at hr1
          cases hr1)
        (fun r1 hr1 _ => by
          rw [hself] at hr1
          cases hr1)
        (fun k hk => by
          rw [hnone] at hk
          cases hk)
    have hclient : ∀ d k, w'.client d = some k → d ≠ c := by
      rintro d k hk rfl
      rw [hnone] at hk
      cases hk
    refine ⟨⟨ho, hc.alone, hch.1, hch.2, ?_, by rw [hcs]; exact hc.sized, ?_⟩,
      Kept.of_content hex (fun d k hk _ => content_congr (hduty d (hclient d k hk))
        (hstack d (hclient d k hk)) hmem) (fun d k hk => ?_)⟩
    · intro d k hd hk
      have hdc := hclient d k hk
      rw [client_congr (hduty d hdc) (hstack d hdc)] at hk
      exact hocc' d hdc (hc.holder d k hd hk)
    · intro d hd
      have hdc : d ≠ c := by
        rintro rfl
        exact hnot t (List.mem_of_getLast? hd)
      rw [← hc.base d hd]
      unfold World.mainOf
      have hctl : w'.ctl d = w.ctl d := by
        simp only [ctl, hco, Function.update_of_ne hdc]
      rw [hctl]
    · by_cases hdc : d = c
      · exact Or.inl (by rw [hdc]; exact hself)
      · exact Or.inr ⟨k, by
          rw [client_congr (hduty d hdc) (hstack d hdc)]
          exact hk⟩

/-- The running coroutine writes to its stack. -/
theorem written {x : Nat} {b : UInt8} (hc : Carried w f t)
    (hsup : ∃ c s, w.exec t = some c ∧ w.stack c = some s ∧ s.isPrivate = false ∧
      s.stack ≤ x ∧ x < s.stack + s.size) :
    Carried { w with mem := Function.update w.mem x b } f t ∧
      Kept w { w with mem := Function.update w.mem x b } t := by
  rcases hsup with ⟨c, s, hx, hs, hp, _, _⟩
  have hhead : (f t).head? = some c := by
    rw [← hc.orderly.steady.exec t, hx]
  rcases hc.orderly.started t c (List.mem_of_head? hhead) with ⟨r, hr, hst⟩
  rcases co_of_ctl hr with ⟨r0, hr0, hrf⟩
  have hst0 : r0.start = true := by
    rw [← hrf] at hst
    exact hst
  -- The coroutine that writes has the block, and a write reaches nobody else.
  have hcl : w.client c = some (region s r0.stackStore) := by
    rw [client_eq hr0 hs, hst0, hp]
    rfl
  have hocc := hc.holder c _ hhead hcl
  refine ⟨⟨?_, hc.alone, ⟨⟨hc.backed.fit.placed, hc.backed.fit.sized⟩, hc.backed.occ,
    hc.backed.stored, hc.backed.begun⟩, hc.settled, hc.holder, hc.sized, hc.base⟩,
    Kept.of_content rfl ?_ (fun _ k hk => Or.inr ⟨k, hk⟩)⟩
  · refine hc.orderly.kept (hc.orderly.steady.quiet ⟨rfl, rfl, rfl, rfl, fun _ => ⟨rfl, rfl⟩⟩) ?_
    intro u d hd
    rcases hc.orderly.steady.ready u d hd with ⟨rd, hrd, _⟩
    exact ⟨rd, rd, hrd, hrd, rfl, rfl⟩
  · intro d k _ hxd
    refine Spill.Block.write_content (B := w.block t) hc.backed.fit ?_ (Function.update w.mem x b)
    intro hh
    have hh' : (w.mgr t).commonOccupy = some d := hh
    rw [hocc] at hh'
    rw [hx, hh'] at hxd
    exact hxd rfl

theorem mainMco {e : CallSite} (hc : Carried w f t) (hfresh : w.FreshMain t e) :
    Carried (w.mainMco t e).1 (booted f t e.main) t ∧
      (∀ c k, (w.mainMco t e).1.client c = some k →
        ((w.mainMco t e).1.block t).content c = (w.block t).content c) ∧
      ∀ c k, w.client c = some k → (w.mainMco t e).1.client c = some k := by
  by_cases h0 : (w.callstack t).index = 0
  · have hbo := mainMco_booted w t e h0
    have hnil : f t = [] := (hc.orderly.steady.empty_iff t).mp h0
    have hfr := hfresh h0
    -- An occupant is alive, and the address of the new object is not in use.
    have hne : (w.mgr t).commonOccupy ≠ some e.main := by
      intro ho
      rcases hc.backed.occ e.main ho with ⟨r, _, hr, _⟩
      rw [hfr] at hr
      cases hr
    have hduty : ∀ d, d ≠ e.main → (w.mainMco t e).1.duty d = w.duty d := fun d hd => by
      rw [mainMco_eq h0]
      simp only [duty, Function.update_of_ne hd]
    have hstack : ∀ d, d ≠ e.main → (w.mainMco t e).1.stack d = w.stack d := fun d hd => by
      rw [mainMco_eq h0]
      exact Function.update_of_ne hd _ _
    have hself : ∀ r, (w.mainMco t e).1.co e.main = some r →
        r.stackStore = false ∧ r.finished = false := by
      intro r hr
      rw [mainMco_eq h0] at hr
      simp only [Function.update_self] at hr
      injection hr with hr
      rw [← hr]
      exact ⟨rfl, rfl⟩
    have hsp : ∃ s, (w.mainMco t e).1.stack e.main = some s ∧ s.isPrivate = true := by
      refine ⟨(w.mgr t).createPrivateMcoStack e.mainBlk, ?_, rfl⟩
      rw [mainMco_eq h0]
      exact Function.update_self _ _ _
    rcases hsp with ⟨s, hs, hp⟩
    have hnone : (w.mainMco t e).1.client e.main = none := by
      cases hk : (w.mainMco t e).1.client e.main with
      | none => rfl
      | some k =>
          rcases client_eq_some.mp hk with ⟨_, s', _, hs', _, hp', _⟩
          rw [hs] at hs'
          injection hs' with hs'
          rw [← hs', hp] at hp'
          cases hp'
    have hch : Backed (w.mainMco t e).1 t none ∧ ((w.mainMco t e).1.block t).Settled :=
      hc.backed.change hc.settled hduty hstack (fun o ho => by rw [hbo.mgr] at ho; exact ho)
        (fun o _ ho => by rw [hbo.mgr]; exact ho)
        (fun ho => by
          rw [hbo.mgr] at ho
          exact absurd ho hne)
        (fun r hr => (hself r hr).1)
        (fun r hr _ => ⟨(hself r hr).2, by rw [hs]; rfl⟩)
        (fun k hk => by
          rw [hnone] at hk
          cases hk)
    have hclient : ∀ d k, (w.mainMco t e).1.client d = some k → d ≠ e.main := by
      rintro d k hk rfl
      rw [hnone] at hk
      cases hk
    have hfb : booted f t e.main t = [e.main] := by
      rw [booted, if_pos hnil, Function.update_self]
    refine ⟨⟨hc.orderly.mainMco hfresh, ?_, hch.1, hch.2, ?_, ?_, ?_⟩, ?_, ?_⟩
    · intro u hu
      rw [booted, if_pos hnil, Function.update_of_ne hu]
      exact hc.alone u hu
    · intro d k hd hk
      rw [hfb] at hd
      injection hd with hd
      exact absurd hd.symm (hclient d k hk)
    · rw [hbo.callstack, Function.update_self]
      exact hc.sized.push e.main
    · intro d hd
      rw [hfb] at hd
      have hd' : e.main = d := by injection hd
      rcases hbo.ctl with ⟨size, sp, hctl⟩
      unfold World.mainOf
      rw [hctl, ← hd', Function.update_self]
      rfl
    · intro d k hk
      exact content_congr (hduty d (hclient d k hk)) (hstack d (hclient d k hk)) hbo.mem
    · intro d k hk
      have hdm : d ≠ e.main := by
        rintro rfl
        rcases client_eq_some.mp hk with ⟨_, _, hr, _⟩
        rw [hfr] at hr
        cases hr
      rw [client_congr (hduty d hdm) (hstack d hdm)]
      exact hk
  · have hne : f t ≠ [] := fun hn => h0 ((hc.orderly.steady.empty_iff t).mpr hn)
    rw [mainMco_of_nonempty h0, booted_of_nonempty hne]
    exact ⟨hc, fun _ _ _ => rfl, fun _ _ hk => hk⟩

/-- What a step from the state after `MainMco` keeps, the whole step keeps. -/
theorem kept_of_mainMco {e : CallSite} {cur : McoRef} {l : List McoRef} (hc : Carried w f t)
    (hfresh : w.FreshMain t e) (hf : booted f t e.main t = cur :: l)
    (hk : Kept (w.mainMco t e).1 w' t) (hmain : ∀ k, f t = [] → w'.client cur ≠ some k) :
    Kept w w' t := by
  rcases hc.mainMco hfresh with ⟨hcb, hcont, hstay⟩
  by_cases h0 : (w.callstack t).index = 0
  · have hnil : f t = [] := (hc.orderly.steady.empty_iff t).mp h0
    -- The thread had no coroutine, so nobody was the caller.
    have hx : w.exec t = none := by
      rw [hc.orderly.steady.exec t, hnil]
      rfl
    have hcur : ∀ c k, w'.client c = some k ∨ w.client c = some k →
        (w.mainMco t e).1.exec t ≠ some c := by
      intro c k hck hxc
      rw [hcb.orderly.steady.exec t, hf] at hxc
      have hxc' : cur = c := by injection hxc
      rcases hck with hck | hck
      · rw [← hxc'] at hck
        exact hmain k hnil hck
      · -- The main coroutine is new.
        have hcm : e.main = cur := by
          rw [booted, if_pos hnil, Function.update_self] at hf
          injection hf
        rcases client_eq_some.mp hck with ⟨_, _, hr, _⟩
        rw [← hxc', ← hcm, hfresh h0] at hr
        cases hr
    refine ⟨fun c k hck _ => ?_, fun c k _ hxc => ?_, fun c k hck _ => ?_⟩
    · rcases hk.other c k hck (hcur c k (Or.inl hck)) with ⟨hn, hx'⟩ | heq
      · left
        refine ⟨?_, hx'⟩
        cases hwc : w.client c with
        | none => rfl
        | some k0 =>
            rw [hstay c k0 hwc] at hn
            cases hn
      · right
        rw [heq]
        have hk' : (w'.block t).client c = some k := hck
        have hsome := Spill.Block.content_eq hk'
        rw [heq] at hsome
        rcases Option.map_eq_some_iff.mp hsome with ⟨k0, hk0, _⟩
        exact hcont c k0 hk0
    · rw [hx] at hxc
      cases hxc
    · exact hk.stays c k (hstay c k hck) (hcur c k (Or.inr hck))
  · rw [mainMco_of_nonempty h0] at hk
    exact hk

end Carried

/-- A step of the thread keeps the invariant, and leaves what coroutines that
    do not run own where it was. -/
theorem carried_step {w w' : World} {f : Frames} {t : Tid} {a : Op} (hc : Carried w f t)
    (ht : a.thread = t) (hadm : Admissible w a) (hflat : Flat w a) (h : w.step a = .ok w') :
    ∃ f', Carried w' f' t ∧ Kept w w' t := by
  rcases hadm with ⟨hcode, hsup⟩
  cases a with
  | create u c p =>
      injection h with h
      rw [← h]
      exact ⟨f, hc.created hsup⟩
  | mainMco u e =>
      change u = t at ht
      rw [ht] at hsup h
      injection h with h
      rcases hc.mainMco hsup with ⟨hcb, hcont, hstay⟩
      rw [← h]
      refine ⟨_, hcb, ⟨fun c k hk _ => Or.inr (hcont c k hk), fun c k _ hx hx' => ?_,
        fun c k hk _ => Or.inr ⟨k, hstay c k hk⟩⟩⟩
      by_cases h0 : (w.callstack t).index = 0
      · rw [hc.orderly.steady.exec t, (hc.orderly.steady.empty_iff t).mp h0] at hx
        cases hx
      · rw [mainMco_of_nonempty h0] at hx'
        exact absurd hx hx'
  | resume u co e =>
      change u = t at ht
      change w.InCode u at hcode
      rw [ht] at hcode hsup hflat h
      rcases hc.orderly.resume hcode hsup.2.2 hflat h with ⟨rfl, _⟩ | ⟨c, r, cur, l, _, hr, hrun,
        hfin, hf, ⟨l', hl, hf', hy, hp, ho⟩ | ⟨_, heq, hp, ho⟩⟩
      · exact ⟨f, hc, Kept.refl _ t⟩
      · rw [hl] at ho
        exact ⟨_, hc.yield_pop hf' hy hp ho⟩
      · have hcb := (hc.mainMco hsup.2.2).1
        have hrb := mainMco_co hsup.2.2 hr
        have hres : Carried w' (Function.update (booted f t e.main) t (c :: cur :: l)) t ∧
            Kept (w.mainMco t e).1 w' t := by
          rcases heq with ⟨hst, hpush⟩ | ⟨hst, hpush⟩
          · exact hcb.push_again hf hrb hst hrun hpush hp ho
          · exact hcb.push_first hf hrb hst hfin hpush hp ho
        refine ⟨_, hres.1, hc.kept_of_mainMco hsup.2.2 hf hres.2 ?_⟩
        intro k hnil hk
        -- The new main coroutine has a stack of its own.
        have hcm : e.main = cur := by
          rw [booted, if_pos hnil, Function.update_self] at hf
          injection hf
        rcases (mainMco_booted w t e ((hc.orderly.steady.empty_iff t).mpr hnil)).shape_main with
          ⟨x, y, z, hsh⟩
        rw [hcm, ← hp.shape cur (Or.inl hp.ne)] at hsh
        rcases client_eq_some.mp hk with ⟨_, s, _, hs, _, hpriv, _⟩
        simp only [shape, hs, Option.map_some, hpriv] at hsh
        cases hsh
  | yield u co sp =>
      change u = t at ht
      rw [ht] at h
      rcases hc.orderly.yield h with ⟨rfl, _⟩ | ⟨c, s, l, hco, hf, hp, ho⟩
      · exact ⟨f, hc, Kept.refl _ t⟩
      · rw [hco] at h
        exact ⟨_, hc.yield_pop hf h hp ho⟩
  | finish u sp =>
      change u = t at ht
      rw [ht] at h
      rcases hc.orderly.finish h with ⟨c, s, l, hf, hp, ho⟩
      exact ⟨_, hc.finish_pop hf h hp ho⟩
  | free u co =>
      change u = t at ht
      rw [ht] at hflat h
      exact ⟨f, hc.freed hflat h⟩
  | write u x b =>
      change u = t at ht
      rw [ht] at hsup
      injection h with h
      rw [← h]
      exact ⟨f, hc.written hsup⟩

end Fasco
