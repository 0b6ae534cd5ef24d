import Fasco.Theory.Steady

/-!
# A Coroutine's Home Thread

The stack of a common-stack coroutine lies in the block of the manager of the
thread that starts it, but `McoSwap` looks up the occupant of the block in the
manager of the thread that resumes it. The two are the same as long as every
such coroutine stays on its home thread, the one that started it, and they part
as soon as another thread resumes it.

`Homebound` is the promise that this does not happen: nobody resumes a
common-stack coroutine away from home, and no `McoYield` of another thread's
running coroutine slips through the assertion. Nothing else is asked of the
callers. The call stacks may hold a coroutine twice, also in two of them, and
`sink` may point anywhere, so the invariant `Housed` asks little: every
coroutine in a call stack is at home there or has its own stack, the topmost is
the one executing, and saved positions lead into their own coroutine.

## Main definitions

* `World.Home`: A coroutine has been started and may be used on a thread.
* `Housed`: The invariant.
* `Homebound`: The promise of the callers.
* `World.OnBlock`, `World.Uses`: A stack in a thread's block, and its use.
* `OneUser`: Each block has one user, and its occupant is a stack in it.

## Theorems

* `mcoSwap_swapped`: What a switch does, also one from a coroutine to itself.
* `Housed.change`: The invariant is kept by what every operation does.
* `housed_step`: Every operation of callers that keep the promise keeps it.
* `one_user_of_homebound`: Each block has one user in every state reached.
* `shared_block`: Two threads running coroutines on one block.
-/

namespace Fasco

namespace World

/-- Whether a live coroutine has been started, and the thread that did it. -/
def based (w : World) (c : McoRef) : Option (Bool × Option Tid) :=
  (w.ctl c).map (fun r => (r.start || r.finished, r.stackMgr))

/-- The coroutine has been started, and on `t` if its stack is common. -/
def Home (w : World) (t : Tid) (c : McoRef) : Prop :=
  ∃ m a n e p, w.based c = some (true, m) ∧ w.shape c = some (a, n, e, p) ∧
    (p = false → m = some t ∧ a = (w.mgr t).commonStack ∧ n = (w.mgr t).commonSize)

/-- The stack of the coroutine is the common block of `t`. -/
def OnBlock (w : World) (t : Tid) (c : McoRef) : Prop :=
  ∃ s, w.stack c = some s ∧ s.isPrivate = false ∧ s.stack = (w.mgr t).commonStack ∧
    s.size = (w.mgr t).commonSize

/-- The coroutine is marked running or is being executed, on the block of
    `t`. -/
def Uses (w : World) (t : Tid) (c : McoRef) : Prop :=
  w.OnBlock t c ∧ (w.runs c = some true ∨ ∃ u, w.exec u = some c)

/-- Every context leads into its own coroutine. -/
def OwnContexts (w : World) : Prop :=
  ∀ c r m, w.ctl c = some r → r.coctx.ctx = some m →
    m.regs = .entry c ∨ m.regs = .inSwap (some c)

theorem based_of_co {w : World} {c : McoRef} {r : McoRoutine} (h : w.co c = some r) :
    w.based c = some (r.start || r.finished, r.stackMgr) := by
  rw [based, ctl_of_co h]
  rfl

theorem based_congr {w w' : World} (h : w'.ctl = w.ctl) : w'.based = w.based := by
  funext c
  rw [based, based, h]

theorem runs_congr {w w' : World} (h : w'.ctl = w.ctl) : w'.runs = w.runs := by
  funext c
  rw [runs, runs, h]

theorem shape_of_stack {w : World} {c : McoRef} {s : McoStack} (h : w.stack c = some s) :
    w.shape c = some (s.stack, s.size, s.stackBp, s.isPrivate) := by
  rw [shape, h, Option.map_some]

/-- A shape is that of a stack. -/
theorem stack_of_shape {w : World} {c : McoRef} {a n e : Nat} {p : Bool}
    (h : w.shape c = some (a, n, e, p)) :
    ∃ s, w.stack c = some s ∧ s.stack = a ∧ s.size = n ∧ s.isPrivate = p := by
  obtain ⟨s, hs, heq⟩ := Option.map_eq_some_iff.mp h
  simp only [Prod.mk.injEq] at heq
  obtain ⟨ha, hn, _, hp⟩ := heq
  exact ⟨s, hs, ha, hn, hp⟩

/-- A common-stack coroutine that is at home on `t` was started there, on the
    block of `t`. -/
theorem Home.common {w : World} {t : Tid} {c : McoRef} {a n e : Nat} (h : w.Home t c)
    (hs : w.shape c = some (a, n, e, false)) :
    w.based c = some (true, some t) ∧ a = (w.mgr t).commonStack ∧ n = (w.mgr t).commonSize := by
  rcases h with ⟨m, a', n', e', p, hb, hs', hp⟩
  rw [hs] at hs'
  simp only [Option.some.injEq, Prod.mk.injEq] at hs'
  obtain ⟨ha, hn, _, hpf⟩ := hs'
  obtain ⟨hm, ha', hn'⟩ := hp hpf.symm
  exact ⟨by rw [hb, hm], ha.trans ha', hn.trans hn'⟩

/-- What has not been created has no home. -/
theorem not_home {w : World} {c : McoRef} (h : w.co c = none) (t : Tid) : ¬ w.Home t c := by
  rintro ⟨m, _, _, _, _, hb, _⟩
  rw [based, ctl_eq_none.mpr h] at hb
  cases hb

/-- What is in a call stack that `c` was pushed on. -/
theorem inSlot_push {w w' : World} {t : Tid} {c d : McoRef} {i : Nat}
    (h : w'.callstack t = (w.callstack t).push c) (hin : w'.InSlot t i d) :
    d = c ∨ ∃ j, w.InSlot t j d := by
  obtain ⟨hi, hs⟩ := hin
  rw [h, McoCallStack.push_index] at hi
  rw [h, McoCallStack.push_slot] at hs
  by_cases hit : i = (w.callstack t).index
  · rw [if_pos hit] at hs
    injection hs with hs
    exact Or.inl hs.symm
  · rw [if_neg hit] at hs
    exact Or.inr ⟨i, by omega, hs⟩

/-- What a switch to `b` on thread `t` does, as far as threads and blocks are
    concerned. -/
structure Swapped (w w' : World) (t : Tid) (b : McoRef) : Prop where
  callstack : w'.callstack = w.callstack
  exec : w'.exec = Function.update w.exec t (some b)
  based : w'.based = w.based
  runs : w'.runs = w.runs
  shape : w'.shape = w.shape
  own : w'.OwnContexts
  block : ∀ u, (w'.mgr u).commonStack = (w.mgr u).commonStack ∧
    (w'.mgr u).commonSize = (w.mgr u).commonSize
  occupant : ∀ u o, (w'.mgr u).commonOccupy = some o →
    (w.mgr u).commonOccupy = some o ∨
      (u = t ∧ o = b ∧ ∃ a n e, w.shape b = some (a, n, e, false))
  stacked : (w.shape b).isSome

theorem setCo_based_update (w : World) (c : McoRef) (r : McoRoutine) :
    (w.setCo c r).based
      = Function.update w.based c (some (r.start || r.finished, r.stackMgr)) := by
  funext d
  by_cases hd : d = c
  · rw [hd, Function.update_self]
    simp only [based, setCo_ctl, Function.update_self, Option.map_some]
    rfl
  · rw [Function.update_of_ne hd]
    simp only [based, setCo_ctl, Function.update_of_ne hd]

/-- The two flags and the manager survive any change to a record that leaves
    them alone. -/
theorem setCo_based {w : World} {c : McoRef} {r : McoRoutine} (r' : McoRoutine)
    (h : w.co c = some r)
    (hs : (r'.start || r'.finished) = (r.start || r.finished)) (hm : r'.stackMgr = r.stackMgr) :
    (w.setCo c r').based = w.based := by
  rw [setCo_based_update, hs, hm, ← based_of_co h, Function.update_eq_self]

theorem setCo_runs (w : World) (c : McoRef) (r : McoRoutine) :
    (w.setCo c r).runs = Function.update w.runs c (some r.running) := by
  funext d
  by_cases hd : d = c
  · rw [hd, Function.update_self]
    simp only [runs, setCo_ctl, Function.update_self, Option.map_some]
    rfl
  · rw [Function.update_of_ne hd]
    simp only [runs, setCo_ctl, Function.update_of_ne hd]

theorem setCo_runs_same {w : World} {c : McoRef} {r : McoRoutine} (r' : McoRoutine)
    (h : w.co c = some r) (hr : r'.running = r.running) : (w.setCo c r').runs = w.runs := by
  have hruns : w.runs c = some r.running := (runs_of_ctl (ctl_of_co h)).trans rfl
  rw [setCo_runs, hr, ← hruns, Function.update_eq_self]

theorem OwnContexts.setCo {w : World} {c : McoRef} {r' : McoRoutine} (h : w.OwnContexts)
    (hc : ∀ m, r'.coctx.ctx = some m → m.regs = .entry c ∨ m.regs = .inSwap (some c)) :
    (w.setCo c r').OwnContexts := by
  intro d r m hr hm
  rw [setCo_ctl] at hr
  by_cases hd : d = c
  · rw [hd, Function.update_self] at hr
    injection hr with hr
    rw [← hr] at hm
    rw [hd]
    exact hc m hm
  · rw [Function.update_of_ne hd] at hr
    exact h d r m hr hm

theorem OwnContexts.same {w w' : World} (h : w.OwnContexts) (hs : w'.ctl = w.ctl) :
    w'.OwnContexts := by
  intro c r m hr hm
  rw [hs] at hr
  exact h c r m hr hm

-- The first half of the switch records the new occupant and nothing else that matters here.
theorem occupy_occupant {w w' : World} {t : Tid} {b : McoRef} (h : w.occupy t b = .ok w') :
    (w.shape b).isSome ∧ ∀ u o, (w'.mgr u).commonOccupy = some o →
      (w.mgr u).commonOccupy = some o ∨
        (u = t ∧ o = b ∧ ∃ a n e, w.shape b = some (a, n, e, false)) := by
  rcases occupy_cases h with ⟨s, hs, hcase⟩
  have hsh := shape_of_stack hs
  refine ⟨by rw [hsh]; rfl, fun u o ho => ?_⟩
  have hnew : s.isPrivate = false → (w'.mgr u).commonOccupy
      = ((w.setCommonOccupy t (some b)).mgr u).commonOccupy →
      (w.mgr u).commonOccupy = some o ∨
        (u = t ∧ o = b ∧ ∃ a n e, w.shape b = some (a, n, e, false)) := by
    intro hp hocc
    rw [hocc] at ho
    by_cases hut : u = t
    · right
      simp only [setCommonOccupy, hut, Function.update_self] at ho
      injection ho with ho
      exact ⟨hut, ho.symm, s.stack, s.size, s.stackBp, by rw [hsh, hp]⟩
    · left
      simp only [setCommonOccupy, Function.update_of_ne hut] at ho
      exact ho
  rcases hcase with ⟨_, rfl⟩ | ⟨hp, rfl, _⟩ | ⟨hp, o', r, so, _, _, _, _, _, rfl⟩
  · exact Or.inl ho
  · exact hnew hp rfl
  · exact hnew hp rfl

theorem swapTail_occupant {w w' : World} {t : Tid} (h : w.swapTail t = .ok w') (u : Tid) :
    (w'.mgr u).commonOccupy = (w.mgr u).commonOccupy := by
  rcases swapTail_cases h with ⟨_, rfl⟩ | ⟨c, s, r, _, _, _, ⟨_, rfl⟩ | ⟨_, _, mem, _, rfl⟩⟩
  · rfl
  · rfl
  · rfl

/-- The switch on a thread that executes `a`. It may be from a coroutine to
    itself. -/
theorem mcoSwap_swapped {w w' : World} {t : Tid} {a b : McoRef} {sp : Nat}
    (h : w.mcoSwap t a b sp = .ok w') (hx : w.exec t = some a) (hown : w.OwnContexts) :
    Swapped w w' t b := by
  rcases mcoSwap_parts h with ⟨w1, w2, w3, back, h1, h2, h3, h4⟩
  have hsame1 := saveSp_sameControl h1
  have hsame := hsame1.trans (occupy_sameControl h2)
  have hocc := occupy_occupant h2
  have hocc1 : ∀ u, (w1.mgr u).commonOccupy = (w.mgr u).commonOccupy := by
    rcases saveSp_ok h1 with ⟨s, _, rfl⟩
    exact fun _ => rfl
  rw [hsame1.shape] at hocc
  rcases mcontextSwap_outcome h3 with ⟨rs, rc, m, hrs, hctx, hrc, hm, hcase⟩
  -- The state after the caller's position has been saved.
  have hx2 : w2.exec t = some a := by rw [hsame.exec]; exact hx
  rw [hx2] at hrc hcase
  have hown2 : (w2.setCo a (parked (some a) rs)).OwnContexts := by
    refine (hown.same hsame.ctl).setCo (fun m' hm' => Or.inr ?_)
    rcases Option.map_eq_some_iff.mp hm' with ⟨m0, _, rfl⟩
    rfl
  have hregs := hown2 b _ m (ctl_of_co hrc) hm
  have hbased2 : (w2.setCo a (parked (some a) rs)).based = w.based := by
    have hpark : (w2.setCo a (parked (some a) rs)).based = w2.based :=
      setCo_based _ hrs rfl rfl
    rw [hpark, based_congr hsame.ctl]
  have hruns2 : (w2.setCo a (parked (some a) rs)).runs = w.runs := by
    have hpark : (w2.setCo a (parked (some a) rs)).runs = w2.runs :=
      setCo_runs_same _ hrs rfl
    rw [hpark, runs_congr hsame.ctl]
  have hexec2 : Function.update w2.exec t (some b) = Function.update w.exec t (some b) := by
    rw [hsame.exec]
  have hocc2 : ∀ u o, (w2.mgr u).commonOccupy = some o → (w.mgr u).commonOccupy = some o ∨
      (u = t ∧ o = b ∧ ∃ a n e, w.shape b = some (a, n, e, false)) := by
    intro u o ho
    rcases hocc.2 u o ho with hold | hnew
    · rw [hocc1 u] at hold
      exact Or.inl hold
    · exact Or.inr hnew
  rcases hcase with ⟨c, hc, rfl, rfl⟩ | ⟨x, hxx, rfl, rfl⟩
  · -- The callback starts.
    have hcb : c = b := by
      rcases hregs with hb | hb
      · rw [hb] at hc
        injection hc with hc
        exact hc.symm
      · rw [hb] at hc
        cases hc
    rw [hcb] at h4
    have h4' : ((w2.setCo a (parked (some a) rs)).setExec t (some b)).enterCallback t = .ok w' := h4
    rcases enterCallback_ok (Function.update_self t (some b) w2.exec) h4' with ⟨r', hr', rfl⟩
    refine ⟨hsame.callstack, hexec2, ?_, ?_, hsame.shape, ?_, hsame.block, hocc2, hocc.1⟩
    · exact (setCo_based (called r') hr' rfl rfl).trans hbased2
    · exact (setCo_runs_same (called r') hr' rfl).trans hruns2
    · exact hown2.setCo (fun m' hm' => hown2 b _ m' (ctl_of_co hr') hm')
  · -- The coroutine goes on inside `McoSwap`.
    have hxb : x = some b := by
      rcases hregs with hb | hb
      · rw [hb] at hxx
        cases hxx
      · rw [hb] at hxx
        injection hxx with hxx
        exact hxx.symm
    rw [hxb] at h4
    have h4' : ((w2.setCo a (parked (some a) rs)).setExec t (some b)).swapTail t = .ok w' := h4
    have htail := swapTail_sameControl h4'
    refine ⟨htail.callstack.trans hsame.callstack, htail.exec.trans hexec2, ?_, ?_,
      htail.shape.trans hsame.shape, hown2.same htail.ctl, fun u => ?_, fun u o ho => ?_, hocc.1⟩
    · exact (based_congr htail.ctl).trans hbased2
    · exact (runs_congr htail.ctl).trans hruns2
    · exact ⟨(htail.block u).1.trans (hsame.block u).1, (htail.block u).2.trans (hsame.block u).2⟩
    · rw [swapTail_occupant h4' u] at ho
      exact hocc2 u o ho

end World

open World

/-- Every coroutine in a call stack, and every occupant, is at home; the
    topmost coroutine is the one executing; and a common-stack coroutine that
    is marked running is on top at home. -/
structure Housed (w : World) : Prop where
  exec : ∀ t, w.exec t = w.top t
  own : w.OwnContexts
  home : ∀ t i c, w.InSlot t i c → w.Home t c
  placed : ∀ c, (w.shape c).isSome → ∃ t, w.Home t c
  occupant : ∀ t c, (w.mgr t).commonOccupy = some c →
    w.Home t c ∧ ∃ a n e, w.shape c = some (a, n, e, false)
  running : ∀ t c a n e, w.Home t c → w.shape c = some (a, n, e, false) →
    w.runs c = some true → w.top t = some c
  blocks : ∀ t u, (w.mgr t).commonStack = (w.mgr u).commonStack → t = u

theorem housed_init {w : World} (h : Init w) : Housed w := by
  have hshape : ∀ c, w.shape c = none := fun c => by rw [shape, h.stack c]; rfl
  have hctl : ∀ c, w.ctl c = none := fun c => ctl_eq_none.mpr (h.co c)
  refine ⟨?_, ?_, ?_, ?_, ?_, ?_, ?_⟩
  · intro t
    rw [h.exec t, top, h.callstack t]
    rfl
  · intro c r m hr
    rw [hctl c] at hr
    cases hr
  · intro t i c hin
    have hi := hin.1
    rw [h.callstack t] at hi
    exact absurd hi (Nat.not_lt_zero i)
  · intro c hc
    rw [hshape c] at hc
    cases hc
  · intro t c hc
    rw [h.occupy t] at hc
    cases hc
  · intro t c a n e _ hc
    rw [hshape c] at hc
    cases hc
  · intro t u htu
    by_contra hne
    have ht := h.sized t
    have hu := h.sized u
    rcases h.blocks t u hne with hlt | hlt <;> omega

namespace Housed

variable {w w' : World} {t : Tid}

/-- A common-stack coroutine has one home. -/
theorem home_unique {u : Tid} {c : McoRef} {a n e : Nat} (h1 : w.Home t c) (h2 : w.Home u c)
    (hs : w.shape c = some (a, n, e, false)) : t = u := by
  have hb := (h1.common hs).1
  rw [(h2.common hs).1] at hb
  injection hb with hb
  injection hb with _ hb
  injection hb with hb
  exact hb.symm

/-- What every operation that switches does: one coroutine, at home on the
    thread, gets to the top and is executed there, and of the others none but
    the old top changes. -/
theorem change {b : McoRef} (hh : Housed w)
    (hexec : w'.exec = Function.update w.exec t (some b)) (htop : w'.top t = some b)
    (hcs : ∀ u, u ≠ t → w'.callstack u = w.callstack u)
    (hslot : ∀ i d, w'.InSlot t i d → d = b ∨ ∃ j, w.InSlot t j d)
    (hb : w'.Home t b) (hhome : ∀ u d, w.Home u d → w'.Home u d)
    (hshape : ∀ d, d ≠ b → w'.shape d = w.shape d)
    (hkeep : ∀ u a n e, w.Home u b → w.shape b = some (a, n, e, false) →
      w'.shape b = some (a, n, e, false))
    (hocc : ∀ u o, (w'.mgr u).commonOccupy = some o → (w.mgr u).commonOccupy = some o ∨
      (u = t ∧ o = b ∧ ∃ a n e, w'.shape b = some (a, n, e, false)))
    (hruns : ∀ d, d ≠ b → w'.runs d = some true → w.runs d = some true ∧ w.top t ≠ some d)
    (hown : w'.OwnContexts)
    (hblock : ∀ u, (w'.mgr u).commonStack = (w.mgr u).commonStack) : Housed w' := by
  have htops : ∀ u, u ≠ t → w'.top u = w.top u := by
    intro u hu
    rw [top, top, hcs u hu]
  refine ⟨?_, hown, ?_, ?_, ?_, ?_, ?_⟩
  · intro u
    by_cases hu : u = t
    · rw [hu, htop, hexec, Function.update_self]
    · rw [htops u hu, hexec, Function.update_of_ne hu]
      exact hh.exec u
  · intro u i d hin
    by_cases hu : u = t
    · rw [hu] at hin ⊢
      rcases hslot i d hin with rfl | ⟨j, hj⟩
      · exact hb
      · exact hhome t d (hh.home t j d hj)
    · rw [InSlot, hcs u hu] at hin
      exact hhome u d (hh.home u i d hin)
  · intro d hd
    by_cases hdb : d = b
    · rw [hdb]
      exact ⟨t, hb⟩
    · rw [hshape d hdb] at hd
      rcases hh.placed d hd with ⟨u, hu⟩
      exact ⟨u, hhome u d hu⟩
  · intro u o ho
    rcases hocc u o ho with hold | ⟨hu, hob, a, n, e, hs⟩
    · rcases hh.occupant u o hold with ⟨hhm, a, n, e, hs⟩
      refine ⟨hhome u o hhm, a, n, e, ?_⟩
      by_cases hob : o = b
      · rw [hob] at hhm hs ⊢
        exact hkeep u a n e hhm hs
      · rw [hshape o hob, hs]
    · rw [hu, hob]
      exact ⟨hb, a, n, e, hs⟩
  · intro u d a n e hhd hs hrun
    by_cases hdb : d = b
    · rw [hdb] at hhd hs ⊢
      rw [← home_unique hb hhd hs]
      exact htop
    · rw [hshape d hdb] at hs
      rcases hruns d hdb hrun with ⟨hrun0, hne⟩
      rcases hh.placed d (by rw [hs]; rfl) with ⟨v, hv⟩
      have hvu := home_unique (hhome v d hv) hhd (by rw [hshape d hdb, hs])
      rw [hvu] at hv
      have htopu := hh.running u d a n e hv hs hrun0
      by_cases hu : u = t
      · rw [hu] at htopu
        exact absurd htopu hne
      · rw [htops u hu]
        exact htopu
  · intro u v huv
    rw [hblock u, hblock v] at huv
    exact hh.blocks u v huv

/-- The invariant depends on these parts of the state only. -/
theorem congr (hh : Housed w) (hcs : w'.callstack = w.callstack) (hx : w'.exec = w.exec)
    (hb : w'.based = w.based) (hr : w'.runs = w.runs) (hs : w'.shape = w.shape)
    (hm : w'.mgr = w.mgr) (hown : w'.OwnContexts) : Housed w' := by
  have hhome : ∀ u d, w'.Home u d ↔ w.Home u d := by
    intro u d
    rw [Home, Home, hb, hs, hm]
  have htop : ∀ u, w'.top u = w.top u := by
    intro u
    rw [top, top, hcs]
  refine ⟨?_, hown, ?_, ?_, ?_, ?_, ?_⟩
  · intro u
    rw [hx, htop u]
    exact hh.exec u
  · intro u i d hin
    rw [InSlot, hcs] at hin
    exact (hhome u d).mpr (hh.home u i d hin)
  · intro d hd
    rw [hs] at hd
    rcases hh.placed d hd with ⟨u, hu⟩
    exact ⟨u, (hhome u d).mpr hu⟩
  · intro u o ho
    rw [hm] at ho
    rw [hs]
    exact ⟨(hhome u o).mpr (hh.occupant u o ho).1, (hh.occupant u o ho).2⟩
  · intro u d a n e hd hsd hrun
    rw [hs] at hsd
    rw [hr] at hrun
    rw [htop u]
    exact hh.running u d a n e ((hhome u d).mp hd) hsd hrun
  · intro u v huv
    rw [hm] at huv
    exact hh.blocks u v huv

theorem home_transfer {c : McoRef} (h : w.Home t c)
    (hb : ∀ m, w.based c = some (true, m) → w'.based c = some (true, m))
    (hs : w'.shape c = w.shape c) (hblock : ∀ u, (w'.mgr u).commonStack = (w.mgr u).commonStack ∧
      (w'.mgr u).commonSize = (w.mgr u).commonSize) : w'.Home t c := by
  rcases h with ⟨m, a, n, e, p, hbc, hsc, hp⟩
  refine ⟨m, a, n, e, p, hb m hbc, by rw [hs, hsc], fun hf => ?_⟩
  rw [(hblock t).1, (hblock t).2]
  exact hp hf

/-- `MainMco` makes a coroutine with a stack of its own. -/
theorem mainMco {e : CallSite} (hh : Housed w) (hfresh : w.FreshMain t e) :
    Housed (w.mainMco t e).1 := by
  by_cases h0 : (w.callstack t).index = 0
  · have hb := mainMco_booted w t e h0
    rcases hb.ctl with ⟨size, sp, hctl⟩
    rcases hb.shape_main with ⟨a, n, x, hsm⟩
    have hno : ∀ u, ¬ w.Home u e.main := not_home (hfresh h0)
    have htop0 : w.top t = none := by
      rw [top, McoCallStack.fromTop, h0, if_neg (by decide)]
    have hother : ∀ d, d ≠ e.main → (w.mainMco t e).1.ctl d = w.ctl d := by
      intro d hd
      rw [hctl, Function.update_of_ne hd]
    refine hh.change hb.exec ?_ ?_ ?_ ?_ ?_ hb.shape (fun u a n x hm => absurd hm (hno u)) ?_ ?_
      ?_ (fun u => by rw [hb.mgr])
    · rw [top, hb.callstack, Function.update_self, McoCallStack.push_fromTop_one]
    · intro u hu
      rw [hb.callstack, Function.update_of_ne hu]
    · intro i d hin
      exact inSlot_push (by rw [hb.callstack, Function.update_self]) hin
    · refine ⟨some t, a, n, x, true, ?_, hsm, fun h => by cases h⟩
      rw [based, hctl, Function.update_self]
      rfl
    · intro u d hd
      have hdm : d ≠ e.main := by
        rintro rfl
        exact hno u hd
      refine home_transfer hd (fun m hm => ?_) (hb.shape d hdm) (fun u => by
        rw [hb.mgr]
        exact ⟨rfl, rfl⟩)
      rw [based, hother d hdm]
      exact hm
    · intro u o ho
      rw [hb.mgr] at ho
      exact Or.inl ho
    · intro d hd hrun
      rw [runs, hother d hd] at hrun
      refine ⟨hrun, ?_⟩
      rw [htop0]
      intro hc
      cases hc
    · intro d r m hr hm
      rw [hctl] at hr
      by_cases hd : d = e.main
      · rw [hd, Function.update_self] at hr
        injection hr with hr
        rw [← hr] at hm
        injection hm with hm
        rw [← hm, hd]
        exact Or.inl rfl
      · rw [Function.update_of_ne hd] at hr
        exact hh.own d r m hr hm
  · rw [mainMco_of_nonempty h0]
    exact hh

/-- Pushing `c`, from a state `v` that is `w` but for `c`'s own record and
    stack. -/
theorem push {v : World} {cur c : McoRef} {r : McoRoutine} {sp : Nat} (hh : Housed w)
    (h : v.pushCallstack t c r sp = .ok w') (htop : w.top t = some cur)
    (hcs : v.callstack = w.callstack) (hx : v.exec = w.exec)
    (hmgr : v.mgr = w.mgr)
    (hsv : ∀ d, d ≠ c → v.shape d = w.shape d) (hcv : ∀ d, d ≠ c → v.ctl d = w.ctl d)
    (hctx : ∀ m, r.coctx.ctx = some m → m.regs = .entry c ∨ m.regs = .inSwap (some c))
    (hst : r.start = true)
    (hsh : ∀ a n e, v.shape c = some (a, n, e, false) →
      r.stackMgr = some t ∧ a = (w.mgr t).commonStack ∧ n = (w.mgr t).commonSize)
    (hold : (w.based c = some (true, r.stackMgr) ∧ v.shape c = w.shape c) ∨ ∀ u, ¬ w.Home u c) :
    Housed w' := by
  unfold pushCallstack at h
  have hsink : ((v.callstack t).push c).fromTop 2 = some cur := by
    rw [McoCallStack.push_fromTop_two, hcs]
    exact htop
  simp only [hsink] at h
  rcases (Fallible.bind_eq_ok_iff _ _ _).mp h with ⟨w1, h1, h2⟩
  rcases setRunning_ok h1 with ⟨rc, hrc, rfl⟩
  -- The views of the state the switch starts from.
  have hown1 : ((v.setCallstack t ((v.callstack t).push c)).setCo c
      (r.takeOver (some cur))).OwnContexts := by
    intro d rd m hrd hm
    by_cases hd : d = c
    · rw [setCo_ctl, hd, Function.update_self] at hrd
      injection hrd with hrd
      rw [← hrd] at hm
      rw [hd]
      exact hctx m hm
    · rw [setCo_ctl, setCallstack_ctl, Function.update_of_ne hd, hcv d hd] at hrd
      exact hh.own d rd m hrd hm
  have hown2 : (((v.setCallstack t ((v.callstack t).push c)).setCo c
      (r.takeOver (some cur))).setCo cur { rc with running := false }).OwnContexts :=
    hown1.setCo (fun m hm => hown1 cur _ m (ctl_of_co hrc) hm)
  have hx2 : v.exec t = some cur := by rw [hx, hh.exec t, htop]
  have hsw := mcoSwap_swapped h2 hx2 hown2
  have hbased : w'.based = Function.update v.based c (some (true, r.stackMgr)) := by
    have hflags : ((r.takeOver (some cur)).start || (r.takeOver (some cur)).finished) = true := by
      simp only [McoRoutine.takeOver, hst, Bool.true_or]
    rw [hsw.based, setCo_based { rc with running := false } hrc rfl rfl, setCo_based_update, hflags]
    rfl
  have hruns : w'.runs = Function.update (Function.update v.runs c (some true)) cur
      (some false) := by
    rw [hsw.runs, setCo_runs, setCo_runs]
    rfl
  have hshape : w'.shape = v.shape := hsw.shape
  have hblock : ∀ u, (w'.mgr u).commonStack = (w.mgr u).commonStack ∧
      (w'.mgr u).commonSize = (w.mgr u).commonSize := by
    intro u
    rw [← hmgr]
    exact hsw.block u
  have hcallstack : w'.callstack = Function.update w.callstack t ((w.callstack t).push c) := by
    rw [hsw.callstack, ← hcs]
    rfl
  have hexec : w'.exec = Function.update w.exec t (some c) := by
    rw [hsw.exec, ← hx]
    rfl
  refine hh.change hexec ?_ ?_ ?_ ?_ ?_ ?_ ?_ ?_ ?_ hsw.own (fun u => (hblock u).1)
  · rw [top, hcallstack, Function.update_self, McoCallStack.push_fromTop_one]
  · intro u hu
    rw [hcallstack, Function.update_of_ne hu]
  · intro i d hin
    exact inSlot_push (by rw [hcallstack, Function.update_self]) hin
  · have hsome : (v.shape c).isSome := hsw.stacked
    rcases Option.isSome_iff_exists.mp hsome with ⟨⟨a, n, e, p⟩, hs⟩
    refine ⟨r.stackMgr, a, n, e, p, ?_, by rw [hshape, hs], fun hp => ?_⟩
    · rw [hbased, Function.update_self]
    · rw [(hblock t).1, (hblock t).2]
      exact hsh a n e (by rw [hs, hp])
  · intro u d hd
    by_cases hdc : d = c
    · rw [hdc] at hd ⊢
      rcases hold with ⟨hb, hs⟩ | hno
      · refine home_transfer hd (fun m hm => ?_) (by rw [hshape, hs]) hblock
        rw [hbased, Function.update_self, ← hm, hb]
      · exact absurd hd (hno u)
    · refine home_transfer hd (fun m hm => ?_) (by rw [hshape, hsv d hdc]) hblock
      rw [hbased, Function.update_of_ne hdc, based, hcv d hdc]
      exact hm
  · intro d hd
    rw [hshape, hsv d hd]
  · intro u a n e hhm hs
    rcases hold with ⟨_, hs'⟩ | hno
    · rw [hshape, hs', hs]
    · exact absurd hhm (hno u)
  · intro u o ho
    rcases hsw.occupant u o ho with ho' | ⟨hu, hoc, a, n, e, hs⟩
    · left
      rw [← hmgr]
      exact ho'
    · refine Or.inr ⟨hu, hoc, a, n, e, ?_⟩
      rw [hshape]
      exact hs
  · intro d hd hrun
    rw [hruns] at hrun
    by_cases hdc : d = cur
    · rw [hdc, Function.update_self] at hrun
      cases hrun
    · rw [Function.update_of_ne hdc, Function.update_of_ne hd, runs, hcv d hd] at hrun
      refine ⟨hrun, ?_⟩
      rw [htop]
      intro hc
      injection hc with hc
      exact hdc hc.symm

/-- A `McoYield` of the topmost coroutine. -/
theorem yield {co : Option McoRef} {sp : Nat} (hh : Housed w)
    (hmine : ∀ c r, co = some c → w.co c = some r → r.running = true → r.finished = false →
      r.sink = (w.callstack t).fromTop 2 → w.top t = some c)
    (h : w.mcoYield t co sp = .ok w') : Housed w' := by
  rcases mcoYield_cases h with ⟨rfl, _⟩ | ⟨c, r, s, hco, hr, hrun, hfin, hsink, hbelow, w1, h1, h2⟩
  · exact hh
  · have htop := hmine c r hco hr hrun hfin (by rw [hsink, hbelow])
    rcases setRunning_ok h1 with ⟨rs, hrs, rfl⟩
    have hslot := McoCallStack.fromTop_some hbelow
    have hhs := hh.home t _ s ⟨by omega, hslot.2⟩
    -- Giving up control for good clears `start`, but the coroutine has then finished.
    have hflags : (r.giveUp.start || r.giveUp.finished) = true ∨
        (r.giveUp.start || r.giveUp.finished) = (r.start || r.finished) := by
      unfold McoRoutine.giveUp McoRoutine.endDone McoRoutine.finished
      by_cases hd : r.done = true
      · left
        rw [if_pos hd]
        simp only [hd, Bool.and_self, Bool.or_true]
      · right
        rw [if_neg hd]
    have hown1 : ((w.setCallstack t (w.callstack t).pop).setCo c r.giveUp).OwnContexts :=
      OwnContexts.setCo (hh.own.same rfl) (fun m hm => by
        rw [r.giveUp_coctx] at hm
        exact hh.own c _ m (ctl_of_co hr) hm)
    have hown2 : (((w.setCallstack t (w.callstack t).pop).setCo c r.giveUp).setCo s
        { rs with running := true }).OwnContexts :=
      hown1.setCo (fun m hm => hown1 s _ m (ctl_of_co hrs) hm)
    have hx2 : w.exec t = some c := by rw [hh.exec t, htop]
    have hsw := mcoSwap_swapped h2 hx2 hown2
    have hbased : w'.based
        = Function.update w.based c (some (r.giveUp.start || r.giveUp.finished, r.stackMgr)) := by
      rw [hsw.based, setCo_based { rs with running := true } hrs rfl rfl,
        setCo_based_update, r.giveUp_stackMgr]
      rfl
    have hgone : r.giveUp.running = false := rfl
    have hruns : w'.runs = Function.update (Function.update w.runs c (some false)) s
        (some true) := by
      rw [hsw.runs, setCo_runs, setCo_runs, hgone]
      rfl
    have hshape : w'.shape = w.shape := hsw.shape
    have hblock : ∀ u, (w'.mgr u).commonStack = (w.mgr u).commonStack ∧
        (w'.mgr u).commonSize = (w.mgr u).commonSize := hsw.block
    have hcallstack : w'.callstack = Function.update w.callstack t (w.callstack t).pop :=
      hsw.callstack
    have hhome : ∀ u d, w.Home u d → w'.Home u d := by
      intro u d hd
      refine home_transfer hd (fun m hm => ?_) (by rw [hshape]) hblock
      rw [hbased]
      by_cases hdc : d = c
      · rw [hdc, based_of_co hr] at hm
        injection hm with hm
        injection hm with hm1 hm2
        rw [hdc, Function.update_self, hm2]
        rcases hflags with hf | hf
        · rw [hf]
        · rw [hf, hm1]
      · rw [Function.update_of_ne hdc]
        exact hm
    refine hh.change hsw.exec ?_ ?_ ?_ (hhome t s hhs) hhome (fun d _ => by rw [hshape])
      (fun u a n e _ hs => by rw [hshape, hs]) ?_ ?_ hsw.own (fun u => (hblock u).1)
    · rw [top, hcallstack, Function.update_self]
      exact McoCallStack.pop_fromTop_one hbelow
    · intro u hu
      rw [hcallstack, Function.update_of_ne hu]
    · rintro i d ⟨hi, hs⟩
      rw [hcallstack, Function.update_self] at hi hs
      exact Or.inr ⟨i, Nat.lt_of_lt_of_le hi (Nat.sub_le _ _), hs⟩
    · intro u o ho
      rcases hsw.occupant u o ho with ho' | ⟨hu, hoc, a, n, e, hs⟩
      · exact Or.inl ho'
      · refine Or.inr ⟨hu, hoc, a, n, e, ?_⟩
        rw [hshape]
        exact hs
    · intro d hd hrund
      rw [hruns, Function.update_of_ne hd] at hrund
      by_cases hdc : d = c
      · rw [hdc, Function.update_self] at hrund
        cases hrund
      · rw [Function.update_of_ne hdc] at hrund
        refine ⟨hrund, ?_⟩
        rw [htop]
        intro hc
        injection hc with hc
        exact hdc hc.symm

/-- The end of a callback. -/
theorem finish {sp : Nat} (hh : Housed w) (h : w.coroutineRun t sp = .ok w') : Housed w' := by
  rcases coroutineRun_cases h with ⟨c, r, hx, hr, hrun, hdy, h1⟩
  have hsame : ∀ b : Bool, (b && r.doneYield) = false := by
    intro b
    rw [hdy, Bool.and_false]
  have hb : (w.setCo c { r with done := true }).based = w.based := by
    refine setCo_based { r with done := true } hr ?_ rfl
    simp only [McoRoutine.finished, hsame]
  have hh1 : Housed (w.setCo c { r with done := true }) :=
    hh.congr rfl rfl hb (setCo_runs_same { r with done := true } hr rfl) rfl rfl
      (hh.own.setCo (fun m hm => hh.own c _ m (ctl_of_co hr) hm))
  refine hh1.yield ?_ h1
  intro d _ hd _ _ _ _
  injection hd with hd
  rw [← hd]
  change w.top t = some c
  rw [← hh.exec t, hx]

end Housed

/-- No common-stack coroutine is resumed away from the thread that started
    it, and a running coroutine that passes the assertion of `McoYield` is the
    one on top of the caller's call stack. -/
def Homebound (w : World) : Op → Prop
  | .resume t (some c) _ => ∀ r, w.co c = some r → ∀ s, w.stack c = some s →
      r.running = false → r.finished = false → s.isPrivate = false → r.stackMgr = some t
  | .yield t (some c) _ => ∀ r, w.co c = some r → r.running = true → r.finished = false →
      r.sink = (w.callstack t).fromTop 2 → w.top t = some c
  | _ => True

namespace Housed

variable {w w' : World} {t : Tid}

/-- A `McoResume` of callers that keep the promise. -/
theorem resume {co : Option McoRef} {e : CallSite} (hh : Housed w) (hfresh : w.FreshMain t e)
    (hbound : Homebound w (.resume t co e)) (h : w.mcoResume t co e = .ok w') : Housed w' := by
  have hhm := hh.mainMco hfresh
  rcases mcoResume_cases h with ⟨rfl, _⟩ |
    ⟨c, r, cur, rcur, rfl, hr, hrun, hfin, htop, hrcur, hcase⟩
  · exact hh
  · have hrm := mainMco_co hfresh hr
    have hbm : (w.mainMco t e).1.based c = some (r.start || r.finished, r.stackMgr) :=
      based_of_co hrm
    rcases hcase with ⟨_, hy⟩ | ⟨_, hst, hpush⟩ | ⟨_, hst, hpush⟩
    · refine hhm.yield ?_ hy
      intro d _ hd _ _ _ _
      injection hd with hd
      rw [← hd]
      exact htop
    · -- Started already, so at home here.
      rw [hst, Bool.true_or] at hbm
      refine hhm.push hpush htop rfl rfl rfl (fun _ _ => rfl) (fun _ _ => rfl)
        (fun m hm => hhm.own c _ m (ctl_of_co hrm) hm) hst ?_ (Or.inl ⟨hbm, rfl⟩)
      intro a n x hs
      rcases hhm.placed c (by rw [hs]; rfl) with ⟨u, hu⟩
      have hw : w.shape c = some (a, n, x, false) := by
        by_cases h0 : (w.callstack t).index = 0
        · rw [← hs]
          refine ((mainMco_booted w t e h0).shape c ?_).symm
          rintro rfl
          rw [hfresh h0] at hr
          cases hr
        · rw [mainMco_of_nonempty h0] at hs
          exact hs
      obtain ⟨s, hsc, _, _, hsp⟩ := stack_of_shape hw
      have hmgr := hbound r hr s hsc hrun hfin hsp
      obtain ⟨hbu, ha, hn⟩ := hu.common hs
      -- Its home is the thread it is resumed on, by the promise.
      rw [hbm, hmgr] at hbu
      injection hbu with hbu
      injection hbu with _ hbu
      injection hbu with hut
      rw [← hut] at ha hn
      exact ⟨hmgr, ha, hn⟩
    · -- Started here and now.
      rw [hst, hfin, Bool.or_false] at hbm
      have hno : ∀ u, ¬ (w.mainMco t e).1.Home u c := by
        rintro u ⟨m, _, _, _, _, hb, _⟩
        rw [hbm] at hb
        cases hb
      have hother : ∀ d, d ≠ c →
          ((w.mainMco t e).1.started t c r e.blk).1.ctl d = (w.mainMco t e).1.ctl d := by
        intro d hd
        simp only [started, initMcoContext, setCo_ctl, setStack_ctl, Function.update_of_ne hd]
      refine hhm.push hpush htop rfl rfl rfl (fun d hd => ?_) hother ?_ rfl ?_ (Or.inr hno)
      · simp only [shape, started, initMcoContext, setCo, setStack, Function.update_of_ne hd]
      · intro m hm
        injection hm with hm
        rw [← hm]
        exact Or.inl rfl
      · intro a n x hs
        cases hp : r.usePrivate with
        | true =>
            simp only [shape, started, initMcoContext, setCo, setStack, Function.update_self, hp,
              if_true, Option.map_some, McoStackManager.createPrivateMcoStack] at hs
            cases hs
        | false =>
            simp only [shape, started, initMcoContext, setCo, setStack, Function.update_self, hp,
              Bool.false_eq_true, if_false, Option.map_some,
              McoStackManager.createCommonMcoStack] at hs
            injection hs with hs
            injection hs with ha hs
            injection hs with hn _
            exact ⟨rfl, ha.symm, hn.symm⟩

/-- A new coroutine has no stack yet. -/
theorem created {c : McoRef} {p : Bool} (hh : Housed w) (hfresh : w.co c = none) :
    Housed (w.mcoCreate c p) := by
  have hno : ∀ u, ¬ w.Home u c := not_home hfresh
  have hctl : ∀ d, d ≠ c → (w.mcoCreate c p).ctl d = w.ctl d := by
    intro d hd
    rw [mcoCreate_ctl, Function.update_of_ne hd]
  have hshape : ∀ d, d ≠ c → (w.mcoCreate c p).shape d = w.shape d := by
    intro d hd
    simp only [shape, mcoCreate, Function.update_of_ne hd]
  have hnone : (w.mcoCreate c p).shape c = none := by
    simp only [shape, mcoCreate, Function.update_self, Option.map_none]
  have hhome : ∀ u d, w.Home u d → (w.mcoCreate c p).Home u d := by
    intro u d hd
    have hdc : d ≠ c := by
      rintro rfl
      exact hno u hd
    refine home_transfer hd (fun m hm => ?_) (hshape d hdc) (fun _ => ⟨rfl, rfl⟩)
    rw [based, hctl d hdc]
    exact hm
  refine ⟨hh.exec, ?_, fun u i d hin => hhome u d (hh.home u i d hin), ?_, ?_, ?_, hh.blocks⟩
  · intro d r m hr hm
    by_cases hd : d = c
    · rw [hd, mcoCreate_ctl, Function.update_self] at hr
      injection hr with hr
      rw [← hr] at hm
      cases hm
    · rw [hctl d hd] at hr
      exact hh.own d r m hr hm
  · intro d hd
    have hdc : d ≠ c := by
      rintro rfl
      rw [hnone] at hd
      cases hd
    rw [hshape d hdc] at hd
    rcases hh.placed d hd with ⟨u, hu⟩
    exact ⟨u, hhome u d hu⟩
  · intro u o ho
    rcases hh.occupant u o ho with ⟨hhm, a, n, e, hs⟩
    have hoc : o ≠ c := by
      rintro rfl
      exact hno u hhm
    exact ⟨hhome u o hhm, a, n, e, by rw [hshape o hoc, hs]⟩
  · intro u d a n e hd hs hrun
    have hdc : d ≠ c := by
      rintro rfl
      rw [hnone] at hs
      cases hs
    rw [hshape d hdc] at hs
    rw [runs, hctl d hdc] at hrun
    rcases hh.placed d (by rw [hs]; rfl) with ⟨v, hv⟩
    have hvu := home_unique (hhome v d hv) hd (by rw [hshape d hdc, hs])
    rw [hvu] at hv
    exact hh.running u d a n e hv hs hrun

end Housed

/-- An operation of any thread on any live coroutine, other than a free. -/
def Switching (w : World) : Op → Prop
  | .free _ _ => False
  | a => Admissible w a

instance (w : World) (a : Op) : Decidable (Switching w a) := by
  unfold Switching
  cases a <;> infer_instance

instance (w : World) : ∀ a, Decidable (Homebound w a)
  | .resume t (some c) _ => inferInstanceAs (Decidable
      (∀ r, w.co c = some r → ∀ s, w.stack c = some s →
        r.running = false → r.finished = false → s.isPrivate = false → r.stackMgr = some t))
  | .yield t (some c) _ => inferInstanceAs (Decidable
      (∀ r, w.co c = some r → r.running = true → r.finished = false →
        r.sink = (w.callstack t).fromTop 2 → w.top t = some c))
  | .create _ _ _ => isTrue trivial
  | .mainMco _ _ => isTrue trivial
  | .resume _ none _ => isTrue trivial
  | .yield _ none _ => isTrue trivial
  | .finish _ _ => isTrue trivial
  | .free _ _ => isTrue trivial
  | .write _ _ _ => isTrue trivial

/-- An operation of callers that keep the promise keeps the invariant. -/
theorem housed_step {w w' : World} {a : Op} (hh : Housed w) (ha : Switching w a)
    (hb : Homebound w a) (h : w.step a = .ok w') : Housed w' := by
  cases a with
  | create t c p =>
      injection h with h
      rw [← h]
      exact hh.created ha.2
  | mainMco t e =>
      injection h with h
      rw [← h]
      exact hh.mainMco ha.2
  | resume t co e => exact hh.resume ha.2.2.2 hb h
  | yield t co sp =>
      refine hh.yield ?_ h
      intro c r hco hr hrun hfin hsink
      rw [hco] at hb
      exact hb r hr hrun hfin hsink
  | finish t sp => exact hh.finish h
  | free t co => exact ha.elim
  | write t x b =>
      injection h with h
      rw [← h]
      exact hh.congr rfl rfl rfl rfl rfl rfl (hh.own.same rfl)

/-- Each thread's block is used by one coroutine at a time, and its occupant
    is a coroutine whose stack it is. -/
structure OneUser (w : World) : Prop where
  user : ∀ t c d, w.Uses t c → w.Uses t d → c = d
  occupant : ∀ t o, (w.mgr t).commonOccupy = some o → w.OnBlock t o

namespace Housed

variable {w : World} {t : Tid}

-- What uses a block is on top of its thread's call stack.
theorem top_of_uses {c : McoRef} (hh : Housed w) (h : w.Uses t c) : w.top t = some c := by
  rcases h with ⟨⟨s, hs, hp, hbase, _⟩, hact⟩
  have hsh : w.shape c = some (s.stack, s.size, s.stackBp, false) := by
    rw [shape_of_stack hs, hp]
  rcases hh.placed c (by rw [hsh]; rfl) with ⟨u, hu⟩
  have hut : u = t := hh.blocks u t (by rw [← (hu.common hsh).2.1, hbase])
  rw [hut] at hu
  rcases hact with hrun | ⟨v, hv⟩
  · exact hh.running t c _ _ _ hu hsh hrun
  · rw [hh.exec v] at hv
    have hslot := McoCallStack.fromTop_some hv
    have hhv := hh.home v _ c ⟨by omega, hslot.2⟩
    rw [home_unique hu hhv hsh]
    exact hv

theorem oneUser (hh : Housed w) : OneUser w := by
  refine ⟨?_, ?_⟩
  · intro t c d hc hd
    have hcd := hh.top_of_uses hc
    rw [hh.top_of_uses hd] at hcd
    injection hcd with hcd
    exact hcd.symm
  · intro t o ho
    obtain ⟨hhome, a, n, e, hs⟩ := hh.occupant t o ho
    obtain ⟨_, ha, hn⟩ := hhome.common hs
    obtain ⟨s, hsc, hsa, hsn, hsp⟩ := stack_of_shape hs
    exact ⟨s, hsc, hsp, hsa.trans ha, hsn.trans hn⟩

end Housed

/-- In every state reached by threads that resume each common-stack coroutine
    on its home thread, each common block has one user. -/
theorem one_user_of_homebound {w w' : World} {as : List Op} (hinit : Init w)
    (h : Fallible.Runs World.step (fun v a => Switching v a ∧ Homebound v a) w as w') :
    OneUser w' := by
  have hh : Housed w' :=
    h.invariant (fun _ _ _ hv ha hstep => housed_step hv ha.1 ha.2 hstep) (housed_init hinit)
  exact hh.oneUser

/-- Two threads, each with a coroutine on its own block. -/
theorem one_user_of_homebound_two :
    let e : CallSite := { sp := 0, main := 1, mainBlk := 0x7000, blk := 0 }
    OneUser (Fallible.after World.step World.blank
      [.create 0 10 false, .create 0 11 false, .resume 0 (some 10) e,
        .resume 1 (some 11) { e with main := 2, mainBlk := 0x8000 }]) :=
  one_user_of_homebound blank_init (Fallible.Checks.runs (by decide))

/-- Thread 0 starts 10, which yields. Thread 1 resumes 10 and thread 0 starts
    11: both threads execute on the block of thread 0, and the occupant
    recorded by thread 1 has its stack there, too. -/
theorem shared_block :
    let e : CallSite := { sp := 0, main := 1, mainBlk := 0x7000, blk := 0 }
    let as : List Op := [.create 0 10 false, .create 0 11 false, .resume 0 (some 10) e,
      .yield 0 (some 10) 0x10fe0, .resume 1 (some 10) { e with main := 2, mainBlk := 0x8000 },
      .resume 0 (some 11) e]
    Fallible.Checks World.step Switching World.blank as ∧
      ¬ (∀ t c d, (Fallible.after World.step World.blank as).Uses t c →
        (Fallible.after World.step World.blank as).Uses t d → c = d) ∧
      ¬ (∀ t o, ((Fallible.after World.step World.blank as).mgr t).commonOccupy = some o →
        (Fallible.after World.step World.blank as).OnBlock t o) := by
  refine ⟨by decide, fun h => ?_, fun h => ?_⟩
  · exact absurd (h 0 10 11 ⟨⟨_, rfl, rfl, rfl, rfl⟩, Or.inl rfl⟩
      ⟨⟨_, rfl, rfl, rfl, rfl⟩, Or.inl rfl⟩) (by decide)
  · rcases h 1 10 rfl with ⟨s, hs, _, hbase, _⟩
    injection hs with hs
    rw [← hs] at hbase
    exact absurd hbase (by decide)

end Fasco
