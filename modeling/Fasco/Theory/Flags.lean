import Fasco.Theory.Transition

/-!
# Flags and Slots

What the operations do to the flags of coroutines and to the call stacks,
whatever state they are called in.

The transitions of `Theory.Transition` suppose a call stack whose top is the
coroutine that executes. Where coroutines are freed while they wait, or used
from two threads, that is lost, and what a switch loads may be the code of
another coroutine. The flags and the slots do not depend on it: `McoSwap`
touches neither, so that they are what the lines before it make of them.

## Main definitions

* `bare`, `World.flags`: A coroutine's record without its context.
* `SameFlags`: Two states with the same flags, slots and blocks.
* `TookOff`, `PutOn`: What `McoYield` and `McoResume` do to them.

## Theorems

* `mcoSwap_sameFlags`: The switch does nothing to them.
* `mcoSwap_stacked`: It is to a coroutine that has a stack.
* `mcoYield_flags`, `coroutineRun_flags`, `pushCallstack_flags`: The outcomes
  of the operations.
-/

namespace Fasco

/-- A coroutine's record without its context and without the flag the common
    block's bookkeeping uses. -/
def bare (r : McoRoutine) : McoRoutine :=
  { r with coctx := { ctx := none, coruns := 0 }, stackStore := false }

namespace World

/-- The flags of a coroutine, with its `sink` and its manager. -/
def flags (w : World) (c : McoRef) : Option McoRoutine := (w.co c).map bare

/-- Whether a live coroutine has a context. -/
def ctxs (w : World) (c : McoRef) : Option Bool := (w.co c).map (fun r => r.coctx.ctx.isSome)

theorem ctxs_of_co {w : World} {c : McoRef} {r : McoRoutine} (h : w.co c = some r) :
    w.ctxs c = some r.coctx.ctx.isSome := by
  rw [ctxs, h, Option.map_some]

theorem flags_of_co {w : World} {c : McoRef} {r : McoRoutine} (h : w.co c = some r) :
    w.flags c = some (bare r) := by
  rw [flags, h, Option.map_some]

theorem co_of_flags {w : World} {c : McoRef} {r : McoRoutine} (h : w.flags c = some r) :
    ∃ r', w.co c = some r' ∧ bare r' = r := Option.map_eq_some_iff.mp h

theorem flags_ctl (w : World) (c : McoRef) : w.flags c = (w.ctl c).map bare := by
  rw [flags, ctl, Option.map_map]
  rfl

theorem ctxs_ctl (w : World) (c : McoRef) :
    w.ctxs c = (w.ctl c).map (fun r => r.coctx.ctx.isSome) := by
  rw [ctxs, ctl, Option.map_map]
  rfl

theorem setCo_ctxs (w : World) (c : McoRef) (r : McoRoutine) :
    (w.setCo c r).ctxs = Function.update w.ctxs c (some r.coctx.ctx.isSome) := by
  funext d
  by_cases hd : d = c
  · rw [hd]
    simp only [ctxs, setCo, Function.update_self, Option.map_some]
  · simp only [ctxs, setCo, Function.update_of_ne hd]

/-- A change to a record that leaves the context alone. -/
theorem setCo_ctxs_same {w : World} {c : McoRef} {r r' : McoRoutine} (hr : w.co c = some r)
    (h : r'.coctx.ctx.isSome = r.coctx.ctx.isSome) : (w.setCo c r').ctxs = w.ctxs := by
  rw [setCo_ctxs, h, ← ctxs_of_co hr, Function.update_eq_self]

theorem setCo_flags (w : World) (c : McoRef) (r : McoRoutine) :
    (w.setCo c r).flags = Function.update w.flags c (some (bare r)) := by
  funext d
  by_cases hd : d = c
  · rw [hd]
    simp only [flags, setCo, Function.update_self, Option.map_some]
  · simp only [flags, setCo, Function.update_of_ne hd]

/-- The same flags, slots and blocks, and contexts in the same places. -/
structure SameFlags (w w' : World) : Prop where
  flags : w'.flags = w.flags
  ctxs : w'.ctxs = w.ctxs
  callstack : w'.callstack = w.callstack
  shape : w'.shape = w.shape
  block : ∀ t, (w'.mgr t).commonStack = (w.mgr t).commonStack ∧
    (w'.mgr t).commonSize = (w.mgr t).commonSize

theorem SameFlags.trans {a b c : World} (h1 : SameFlags a b) (h2 : SameFlags b c) :
    SameFlags a c where
  flags := h2.flags.trans h1.flags
  ctxs := h2.ctxs.trans h1.ctxs
  callstack := h2.callstack.trans h1.callstack
  shape := h2.shape.trans h1.shape
  block := fun t => ⟨(h2.block t).1.trans (h1.block t).1, (h2.block t).2.trans (h1.block t).2⟩

theorem SameControl.sameFlags {w w' : World} (h : SameControl w w') : SameFlags w w' where
  flags := funext fun c => by rw [flags_ctl, flags_ctl, h.ctl]
  ctxs := funext fun c => by rw [ctxs_ctl, ctxs_ctl, h.ctl]
  callstack := h.callstack
  shape := h.shape
  block := h.block

/-- A change inside a context. -/
theorem setCo_sameFlags {w : World} {c : McoRef} {r r' : McoRoutine} (hr : w.co c = some r)
    (hb : bare r' = bare r) (hctx : r'.coctx.ctx.isSome = r.coctx.ctx.isSome) :
    SameFlags w (w.setCo c r') := by
  refine ⟨?_, setCo_ctxs_same hr hctx, rfl, rfl, fun _ => ⟨rfl, rfl⟩⟩
  rw [setCo_flags, hb, ← flags_of_co hr, Function.update_eq_self]

/-- The switch leaves all of them alone, wherever it leads. -/
theorem mcoSwap_sameFlags {w w' : World} {t : Tid} {a b : McoRef} {sp : Nat}
    (h : w.mcoSwap t a b sp = .ok w') : SameFlags w w' := by
  rcases mcoSwap_parts h with ⟨w1, w2, w3, back, h1, h2, h3, h4⟩
  have hsame := ((saveSp_sameControl h1).trans (occupy_sameControl h2)).sameFlags
  refine hsame.trans ?_
  rcases mcontextSwap_outcome h3 with ⟨rs, rc, m, hrs, _, _, _, hcase⟩
  have hset : SameFlags w2 (w2.setCo a (parked (w2.exec t) rs)) :=
    setCo_sameFlags hrs rfl Option.isSome_map
  have hpark : ∀ x, SameFlags w2 ((w2.setCo a (parked (w2.exec t) rs)).setExec t x) :=
    fun x => hset.trans ⟨rfl, rfl, rfl, rfl, fun _ => ⟨rfl, rfl⟩⟩
  rcases hcase with ⟨c, _, rfl, rfl⟩ | ⟨x, _, rfl, rfl⟩
  · have h4' : ((w2.setCo a (parked (w2.exec t) rs)).setExec t (some c)).enterCallback t = .ok w' :=
      h4
    have hx : ((w2.setCo a (parked (w2.exec t) rs)).setExec t (some c)).exec t = some c := by
      simp only [setExec, Function.update_self]
    rcases enterCallback_ok hx h4' with ⟨r, hr, rfl⟩
    exact (hpark (some c)).trans (setCo_sameFlags hr rfl rfl)
  · have h4' : ((w2.setCo a (parked (w2.exec t) rs)).setExec t x).swapTail t = .ok w' := h4
    exact (hpark x).trans (swapTail_sameControl h4').sameFlags

/-- A coroutine that is switched to has a stack. -/
theorem mcoSwap_stacked {w w' : World} {t : Tid} {a b : McoRef} {sp : Nat}
    (h : w.mcoSwap t a b sp = .ok w') : (w.shape b).isSome := by
  rcases mcoSwap_parts h with ⟨w1, w2, _, _, h1, h2, _, _⟩
  rcases occupy_cases h2 with ⟨s, hs, _⟩
  rw [← (saveSp_sameControl h1).shape, World.shape, hs]
  rfl

/-! ### The two directions -/

/-- `c`, with record `r`, has been taken off the call stack of `t`, and `s` is
    the one that was below. -/
structure TookOff (w w' : World) (t : Tid) (c s : McoRef) (r : McoRoutine) : Prop where
  sink : r.sink = some s
  below : (w.callstack t).fromTop 2 = some s
  callstack : w'.callstack = Function.update w.callstack t (w.callstack t).pop
  flags : ∃ rs, Function.update w.flags c (some (bare r.giveUp)) s = some rs ∧
    w'.flags = Function.update (Function.update w.flags c (some (bare r.giveUp))) s
      (some { rs with running := true })
  ctxs : w'.ctxs = w.ctxs
  shape : w'.shape = w.shape
  stacked : (w.shape s).isSome
  block : ∀ u, (w'.mgr u).commonStack = (w.mgr u).commonStack ∧
    (w'.mgr u).commonSize = (w.mgr u).commonSize

/-- `c`, with record `r`, has been put on the call stack of `t`, above `s`. -/
structure PutOn (w w' : World) (t : Tid) (c s : McoRef) (r : McoRoutine) : Prop where
  below : w.top t = some s
  callstack : w'.callstack = Function.update w.callstack t ((w.callstack t).push c)
  flags : ∃ rs, Function.update w.flags c (some (bare (r.takeOver (some s)))) s = some rs ∧
    w'.flags = Function.update (Function.update w.flags c (some (bare (r.takeOver (some s))))) s
      (some { rs with running := false })
  ctxs : w'.ctxs = Function.update w.ctxs c (some r.coctx.ctx.isSome)
  shape : w'.shape = w.shape
  stacked : (w.shape c).isSome
  block : ∀ u, (w'.mgr u).commonStack = (w.mgr u).commonStack ∧
    (w'.mgr u).commonSize = (w.mgr u).commonSize

-- What is there after one value has been written over another.
theorem update_twice {β : Type} {g : McoRef → Option β} {c s d : McoRef} {a b r : Option β}
    (h : Function.update (Function.update g c a) s b d = r) :
    (d = s ∧ b = r) ∨ (d ≠ s ∧ d = c ∧ a = r) ∨ (d ≠ s ∧ d ≠ c ∧ g d = r) := by
  by_cases hds : d = s
  · rw [hds, Function.update_self] at h
    exact Or.inl ⟨hds, h⟩
  · rw [Function.update_of_ne hds] at h
    by_cases hdc : d = c
    · rw [hdc, Function.update_self] at h
      exact Or.inr (Or.inl ⟨hds, hdc, h⟩)
    · rw [Function.update_of_ne hdc] at h
      exact Or.inr (Or.inr ⟨hds, hdc, h⟩)

-- The records afterwards: `s` runs, `c` has given up control, the others are as they were.
theorem TookOff.record (h : TookOff w w' t c s r) {d : McoRef} {r' : McoRoutine}
    (hr' : w'.flags d = some r') :
    (d = s ∧ r'.running = true) ∨ (d ≠ s ∧ d = c ∧ r' = bare r.giveUp) ∨
      (d ≠ s ∧ d ≠ c ∧ w.flags d = some r') := by
  rcases h.flags with ⟨rs, _, hfl⟩
  rw [hfl] at hr'
  rcases update_twice hr' with ⟨hds, hr⟩ | ⟨hds, hdc, hr⟩ | hr
  · injection hr with hr
    exact Or.inl ⟨hds, by rw [← hr]⟩
  · injection hr with hr
    exact Or.inr (Or.inl ⟨hds, hdc, hr.symm⟩)
  · exact Or.inr (Or.inr hr)

theorem PutOn.record {w w' : World} {t : Tid} {c s : McoRef} {r : McoRoutine}
    (h : PutOn w w' t c s r) {d : McoRef} {r' : McoRoutine}
    (hr' : w'.flags d = some r') :
    (d = s ∧ r'.running = false) ∨ (d ≠ s ∧ d = c ∧ r'.running = true) ∨
      (d ≠ s ∧ d ≠ c ∧ w.flags d = some r') := by
  rcases h.flags with ⟨rs, _, hfl⟩
  rw [hfl] at hr'
  rcases update_twice hr' with ⟨hds, hr⟩ | ⟨hds, hdc, hr⟩ | hr
  · injection hr with hr
    exact Or.inl ⟨hds, by rw [← hr]⟩
  · injection hr with hr
    exact Or.inr (Or.inl ⟨hds, hdc, by rw [← hr]; rfl⟩)
  · exact Or.inr (Or.inr hr)

theorem PutOn.live {w w' : World} {t : Tid} {c s : McoRef} {r : McoRoutine}
    (h : PutOn w w' t c s r) : ∃ r', w'.flags c = some r' := by
  rcases h.flags with ⟨rs, _, hfl⟩
  by_cases hcs : c = s
  · exact ⟨_, by rw [hfl, hcs, Function.update_self]⟩
  · exact ⟨_, by rw [hfl, Function.update_of_ne hcs, Function.update_self]⟩

-- The last line before the switch: one coroutine's `running` is set.
theorem setRunning_flags {w w' : World} {s : McoRef} {b : Bool} (h : w.setRunning s b = .ok w') :
    ∃ rs, w.flags s = some rs ∧
      w'.flags = Function.update w.flags s (some { rs with running := b }) ∧
      w'.callstack = w.callstack ∧ w'.ctxs = w.ctxs ∧ w'.shape = w.shape ∧ w'.mgr = w.mgr := by
  rcases setRunning_ok h with ⟨r, hr, rfl⟩
  exact ⟨bare r, flags_of_co hr, setCo_flags w s _, rfl, setCo_ctxs_same hr rfl, rfl, rfl⟩

/-- A `McoYield` that returns did nothing, since the coroutine is not running
    or has finished, or took the coroutine off. -/
theorem mcoYield_flags {w w' : World} {t : Tid} {co : Option McoRef} {sp : Nat}
    (h : w.mcoYield t co sp = .ok w') :
    (w' = w ∧ ∀ c, co = some c →
      ∃ r, w.co c = some r ∧ (r.running = false ∨ r.finished = true)) ∨
    ∃ c r s, co = some c ∧ w.co c = some r ∧ r.running = true ∧ r.finished = false ∧
      TookOff w w' t c s r := by
  rcases mcoYield_cases h with hq | ⟨c, r, s, hco, hr, hrun, hfin, hsink, hbelow, w1, h1, h2⟩
  · exact Or.inl hq
  · refine Or.inr ⟨c, r, s, hco, hr, hrun, hfin, ?_⟩
    have hsame := mcoSwap_sameFlags h2
    rcases setRunning_flags h1 with ⟨rs, hrs, hfl, hcs, hctx, hsh, hmgr⟩
    rw [setCo_flags] at hrs hfl
    have hgive : ((w.setCallstack t (w.callstack t).pop).setCo c r.giveUp).ctxs = w.ctxs :=
      setCo_ctxs_same (w := w.setCallstack t (w.callstack t).pop) hr (by rw [r.giveUp_coctx])
    refine ⟨hsink, hbelow, hsame.callstack.trans hcs, ⟨rs, hrs, hsame.flags.trans hfl⟩,
      hsame.ctxs.trans (hctx.trans hgive), hsame.shape.trans hsh, ?_, fun u => ?_⟩
    · have hst := mcoSwap_stacked h2
      rw [hsh] at hst
      exact hst
    · rw [← show w1.mgr u = w.mgr u from congrFun hmgr u]
      exact hsame.block u

/-- The end of a callback takes its coroutine off. -/
theorem coroutineRun_flags {w w' : World} {t : Tid} {sp : Nat} (h : w.coroutineRun t sp = .ok w') :
    ∃ c r s, w.exec t = some c ∧ w.co c = some r ∧ r.running = true ∧ r.doneYield = false ∧
      TookOff (w.setCo c { r with done := true }) w' t c s { r with done := true } := by
  rcases coroutineRun_cases h with ⟨c, r, hx, hr, hrun, hdy, h1⟩
  have hself : (w.setCo c { r with done := true }).co c = some { r with done := true } :=
    Function.update_self _ _ _
  rcases mcoYield_flags h1 with ⟨_, hq⟩ | ⟨d, r', s, hd, hr', _, _, htook⟩
  · rcases hq c rfl with ⟨r1, hr1, hbad⟩
    rw [hself] at hr1
    injection hr1 with hr1
    rw [← hr1] at hbad
    rcases hbad with hbad | hbad
    · rw [hrun] at hbad
      cases hbad
    · simp only [McoRoutine.finished, hdy, Bool.and_false] at hbad
      cases hbad
  · injection hd with hd
    rw [← hd] at hr' htook
    rw [hself] at hr'
    injection hr' with hr'
    rw [← hr'] at htook
    exact ⟨c, r, s, hx, hr, hrun, hdy, htook⟩

/-- The pushing branch of `McoResume` puts the coroutine on the one on top. -/
theorem pushCallstack_flags {b w' : World} {t : Tid} {c : McoRef} {r : McoRoutine} {sp : Nat}
    (h : b.pushCallstack t c r sp = .ok w') : ∃ s, PutOn b w' t c s r := by
  unfold pushCallstack at h
  simp only [] at h
  cases hs : ((b.callstack t).push c).fromTop 2 with
  | none =>
      rw [hs] at h
      cases h
  | some s =>
      rw [hs] at h
      rcases (Fallible.bind_eq_ok_iff _ _ _).mp h with ⟨w1, h1, h2⟩
      have hsame := mcoSwap_sameFlags h2
      rcases setRunning_flags h1 with ⟨rs, hrs, hfl, hcs, hctx, hsh, hmgr⟩
      rw [setCo_flags] at hrs hfl
      rw [setCo_ctxs] at hctx
      refine ⟨s, ?_, hsame.callstack.trans hcs, ⟨rs, hrs, hsame.flags.trans hfl⟩,
        hsame.ctxs.trans hctx, hsame.shape.trans hsh, ?_, fun u => ?_⟩
      · rw [World.top, ← McoCallStack.push_fromTop_two (b.callstack t) c]
        exact hs
      · have hst := mcoSwap_stacked h2
        rw [hsh] at hst
        exact hst
      · rw [← show w1.mgr u = b.mgr u from congrFun hmgr u]
        exact hsame.block u

/-- A new main coroutine. -/
theorem mainMco_flags {w : World} {t : Tid} {e : CallSite} (h : (w.callstack t).index = 0) :
    ∃ size sp, (w.mainMco t e).1.flags
      = Function.update w.flags e.main (some (bare (mainRecord t e.main size sp))) := by
  rcases (mainMco_booted w t e h).ctl with ⟨size, sp, hctl⟩
  refine ⟨size, sp, funext fun d => ?_⟩
  rw [flags_ctl, hctl]
  by_cases hd : d = e.main
  · rw [hd, Function.update_self, Function.update_self]
    rfl
  · rw [Function.update_of_ne hd, Function.update_of_ne hd, flags_ctl]

end World

end Fasco
