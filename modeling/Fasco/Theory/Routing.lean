import Mathlib.Data.List.Basic
import Fasco.Lib.Run
import Fasco.Core.LoopPool

/-!
# Where an Event Goes

An event names a thread, and `Eventsops::UpdateLoopEvents` hands it to the loop
the pool has for that tid. The acceptor takes the tid from the loop it has got
from `GetNextLoop`, and relies on the event coming back to that loop;
`RemoveEventFromLoop` asserts that there is one.

The pool has a loop under the tid it had when it was added. `resetOwnerTid`
changes the tid of a loop and not the pool, so a loop that is reset on another
thread after it has been added is no longer found: the tid leads nowhere, or to
another loop. Nothing else can go wrong (`routed_along_iff`).

## Main definitions

* `Loops.Added`: The pool has the loop.
* `Loops.Routed`: Every loop in the pool is found by its tid.
* `Loops.KeepsTid`: No loop in the pool is given another tid.

## Theorems

* `keyed_step`: The pool has each loop under its tid and no other.
* `routed_along_iff`: When every loop is found.
* `reset_loses_loop`: When one is not.
-/

namespace Fasco

namespace Loops

open Fallible

/-- The loop has been added to the pool, under whatever tid. -/
def Added (s : Loops) (l : LoopRef) : Prop := ∃ k, s.pool.loops k = some l

/-- `GetLoop(l->getTid()) == l` for every loop in the pool. -/
def Routed (s : Loops) : Prop := ∀ l, s.Added l → ∃ t, s.tid l = some t ∧ s.pool.getLoop t = some l

/-- The call leaves the pool so. -/
def LeavesRouted (s : Loops) (a : LoopsOp) : Prop := ∀ s', s.step a = .ok s' → s'.Routed

/-- If the call resets a loop in the pool, the thread is the one the loop has
    already. -/
def KeepsTid (s : Loops) : LoopsOp → Prop
  | .resetOwnerTid t l => s.Added l → s.tid l = some t
  | _ => True

/-- The pool has loops under their own tids only, and knows all it hands out. -/
structure Keyed (s : Loops) : Prop where
  tid : ∀ k l, s.pool.loops k = some l → s.tid l = some k
  worker : ∀ l, l ∈ s.pool.nextLoops → s.Added l
  main : ∀ l, s.pool.mainLoop = some l → s.Added l

variable {s s' : Loops} {t : Tid} {l : LoopRef}

theorem keyed_empty : empty.Keyed := by
  refine ⟨fun k l h => ?_, fun l h => ?_, fun l h => ?_⟩
  · cases h
  · cases h
  · cases h

theorem Keyed.routed (hk : s.Keyed) : s.Routed := by
  rintro l ⟨k, h⟩
  exact ⟨k, hk.tid k l h, h⟩

/-- What adding a loop does: nothing, or one entry under its tid. -/
theorem add_cases {ismain r : Bool} (h : s.add l ismain = .ok (s', r)) :
    (s' = s ∧ r = false) ∨
    ∃ k, s.tid l = some k ∧ s.pool.loops k = none ∧ s'.tid = s.tid ∧
      s'.pool.loops = Function.update s.pool.loops k (some l) ∧
      s'.pool.nextLoops = (if ismain then s.pool.nextLoops else s.pool.nextLoops ++ [l]) ∧
      s'.pool.mainLoop = if ismain then some l else s.pool.mainLoop := by
  unfold add at h
  cases ht : s.tid l with
  | none =>
      rw [ht] at h
      cases h
  | some k =>
      rw [ht] at h
      simp only [EventLoopPool.addEventLoop] at h
      cases hp : s.pool.loops k with
      | some l' =>
          rw [hp] at h
          injection h with h
          injection h with h1 h2
          exact .inl ⟨h1.symm, h2.symm⟩
      | none =>
          right
          refine ⟨k, rfl, hp, ?_⟩
          simp only [hp, Option.isSome_none, Bool.false_eq_true, if_false] at h
          cases ismain with
          | true =>
              injection h with h
              injection h with h1 _
              rw [← h1]
              exact ⟨rfl, rfl, rfl, rfl⟩
          | false =>
              injection h with h
              injection h with h1 _
              rw [← h1]
              exact ⟨rfl, rfl, rfl, rfl⟩

theorem Keyed.add {ismain r : Bool} (hk : s.Keyed) (h : s.add l ismain = .ok (s', r)) :
    s'.Keyed := by
  rcases add_cases h with ⟨rfl, _⟩ | ⟨k, ht, hnone, htid, hloops, hnext, hmain⟩
  · exact hk
  · -- What the pool had it still has.
    have hadded : ∀ d, s.Added d → s'.Added d := by
      rintro d ⟨j, hj⟩
      refine ⟨j, ?_⟩
      rw [hloops, Function.update_of_ne, hj]
      rintro rfl
      rw [hnone] at hj
      cases hj
    have hself : s'.Added l := ⟨k, by rw [hloops, Function.update_self]⟩
    refine ⟨fun j d hj => ?_, fun d hd => ?_, fun d hd => ?_⟩
    · rw [hloops] at hj
      rw [htid]
      by_cases hjk : j = k
      · rw [hjk, Function.update_self] at hj
        injection hj with hj
        rw [← hj, ht, hjk]
      · rw [Function.update_of_ne hjk] at hj
        exact hk.tid j d hj
    · rw [hnext] at hd
      cases ismain with
      | true => exact hadded d (hk.worker d hd)
      | false =>
          rcases List.mem_append.mp hd with hd | hd
          · exact hadded d (hk.worker d hd)
          · rw [List.mem_singleton.mp hd]
            exact hself
    · rw [hmain] at hd
      cases ismain with
      | true =>
          injection hd with hd
          rw [← hd]
          exact hself
      | false => exact hadded d (hk.main d hd)

-- Adding a loop takes no entry out, and overwrites none.
theorem add_keeps {ismain r : Bool} (h : s.add l ismain = .ok (s', r)) {k : Tid} {d : LoopRef}
    (hd : s.pool.loops k = some d) : s'.pool.loops k = some d := by
  rcases add_cases h with ⟨rfl, _⟩ | ⟨j, _, hnone, _, hloops, _, _⟩
  · exact hd
  · rw [hloops, Function.update_of_ne, hd]
    rintro rfl
    rw [hnone] at hd
    cases hd

theorem getNextLoop_tables (p : EventLoopPool) :
    p.getNextLoop.1.loops = p.loops ∧ p.getNextLoop.1.nextLoops = p.nextLoops ∧
      p.getNextLoop.1.mainLoop = p.mainLoop := by
  unfold EventLoopPool.getNextLoop
  by_cases h : p.nextLoops.length = 0
  · rw [if_pos h]
    exact ⟨rfl, rfl, rfl⟩
  · rw [if_neg h]
    by_cases hend : p.nextLoops.length ≤ p.next
    · simp only [if_pos hend, and_self]
    · simp only [if_neg hend, and_self]

/-- A call that gives no loop in the pool another tid keeps the pool keyed, and
    the entries that it has. -/
theorem keyed_step {a : LoopsOp} (hk : s.Keyed) (hsup : s.Supplied a) (ha : s.KeepsTid a)
    (h : s.step a = .ok s') :
    s'.Keyed ∧ ∀ k d, s.pool.loops k = some d → s'.pool.loops k = some d := by
  cases a with
  | construct t l =>
      injection h with h
      rw [← h]
      refine ⟨⟨fun k d hd => ?_, hk.worker, hk.main⟩, fun k d hd => hd⟩
      have hne : d ≠ l := by
        rintro rfl
        have := hk.tid k d hd
        rw [show s.tid d = none from hsup] at this
        cases this
      change Function.update s.tid l (some t) d = some k
      rw [Function.update_of_ne hne]
      exact hk.tid k d hd
  | addEventLoop l =>
      rcases (bind_eq_ok_iff _ _ _).mp h with ⟨⟨s1, r⟩, hadd, h1⟩
      injection h1 with h1
      rw [← h1]
      exact ⟨hk.add hadd, fun k d hd => add_keeps hadd hd⟩
  | addMainLoop l =>
      rcases (bind_eq_ok_iff _ _ _).mp h with ⟨⟨s1, r⟩, hadd, h1⟩
      injection h1 with h1
      rw [← h1]
      exact ⟨hk.add hadd, fun k d hd => add_keeps hadd hd⟩
  | resetOwnerTid t l =>
      have h' : s.resetOwnerTid t l = .ok s' := h
      unfold resetOwnerTid at h'
      cases ht : s.tid l with
      | none =>
          rw [ht] at h'
          cases h'
      | some u =>
          rw [ht] at h'
          injection h' with h'
          rw [← h']
          refine ⟨⟨fun k d hd => ?_, hk.worker, hk.main⟩, fun k d hd => hd⟩
          change Function.update s.tid l (some t) d = some k
          by_cases hdl : d = l
          · -- The loop keeps the tid it has.
            rw [hdl] at hd ⊢
            rw [Function.update_self, ← hk.tid k l hd]
            exact (ha ⟨k, hd⟩).symm
          · rw [Function.update_of_ne hdl]
            exact hk.tid k d hd
  | getNextLoop =>
      injection h with h
      rw [← h]
      rcases getNextLoop_tables s.pool with ⟨hl, hn, hm⟩
      have hadded : ∀ d, s.Added d → Added { s with pool := s.pool.getNextLoop.1 } d := by
        rintro d ⟨k, hd⟩
        exact ⟨k, by rw [hl, hd]⟩
      refine ⟨⟨fun k d hd => ?_, fun d hd => ?_, fun d hd => ?_⟩, fun k d hd => ?_⟩
      · rw [hl] at hd
        exact hk.tid k d hd
      · rw [hn] at hd
        exact hadded d (hk.worker d hd)
      · rw [hm] at hd
        exact hadded d (hk.main d hd)
      · rw [hl, hd]

/-- A call leaves every loop found by its tid exactly if it gives none in the
    pool another tid. -/
theorem leavesRouted_iff {a : LoopsOp} (hk : s.Keyed) (hsup : s.Supplied a) :
    s.LeavesRouted a ↔ s.KeepsTid a := by
  constructor
  · intro hr
    cases a with
    | resetOwnerTid t l =>
        rintro ⟨k, hkl⟩
        have ht := hk.tid k l hkl
        have hstep : s.step (.resetOwnerTid t l)
            = .ok { s with tid := Function.update s.tid l (some t) } := by
          simp only [step, resetOwnerTid, ht]
        rcases hr _ hstep l ⟨k, hkl⟩ with ⟨u, hu, hget⟩
        have hu' : Function.update s.tid l (some t) l = some u := hu
        rw [Function.update_self] at hu'
        injection hu' with hu'
        rw [hu']
        exact hk.tid u l hget
    | construct _ _ => trivial
    | addEventLoop _ => trivial
    | addMainLoop _ => trivial
    | getNextLoop => trivial
  · intro ha s' h
    exact (keyed_step hk hsup ha h).1.routed

/-- `GetNextLoop` returns a loop in the pool. -/
theorem Keyed.next_added (hk : s.Keyed) (h : s.pool.getNextLoop.2 = some l) : s.Added l := by
  unfold EventLoopPool.getNextLoop at h
  by_cases h0 : s.pool.nextLoops.length = 0
  · rw [if_pos h0] at h
    exact hk.main l h
  · rw [if_neg h0] at h
    refine hk.worker l (List.mem_of_getElem? (i := if s.pool.nextLoops.length ≤ s.pool.next then 0
      else s.pool.next) ?_)
    by_cases hend : s.pool.nextLoops.length ≤ s.pool.next
    · simp only [if_pos hend] at h ⊢
      exact h
    · simp only [if_neg hend] at h ⊢
      exact h

/-- Every sequence of calls by any threads leaves each loop in the pool found
    by its tid, all along, exactly if no loop in the pool is reset on a thread
    other than its own. And then an event whose tid is that of a loop returned
    by `GetNextLoop` is handed to that loop ever after. -/
theorem routed_along_iff {as : List LoopsOp} (hsup : Along step Supplied empty as) :
    (Along step LeavesRouted empty as ↔ Along step KeepsTid empty as) ∧
    ∀ bs cs s s',
      Runs step (fun s a => s.Supplied a ∧ s.KeepsTid a) empty bs s →
      Runs step (fun s a => s.Supplied a ∧ s.KeepsTid a) s cs s' →
      ∀ l, s.pool.getNextLoop.2 = some l →
        ∃ t, s.tid l = some t ∧ s'.updateLoopEvents t = some l := by
  constructor
  · refine along_congr (I := Keyed) ?_ ?_ as empty keyed_empty hsup
    · intro s a s' hk hs ha hstep
      exact (keyed_step hk hs ha hstep).1
    · intro s a hk hs
      exact leavesRouted_iff hk hs
  · intro bs cs s s' hbs hcs l hl
    have hk : s.Keyed := hbs.invariant (I := Keyed)
      (fun _ _ _ hk ha hstep => (keyed_step hk ha.1 ha.2 hstep).1) keyed_empty
    rcases hk.next_added hl with ⟨k, hkl⟩
    -- What the pool has under a tid it keeps.
    have hkept : s'.Keyed ∧ s'.pool.loops k = some l :=
      hcs.invariant (I := fun v => v.Keyed ∧ v.pool.loops k = some l)
        (fun v a v' hv ha hstep =>
          ⟨(keyed_step hv.1 ha.1 ha.2 hstep).1, (keyed_step hv.1 ha.1 ha.2 hstep).2 k l hv.2⟩)
        ⟨hk, hkl⟩
    exact ⟨k, hk.tid k l hkl, hkept.2⟩

/-- A main loop and two workers. -/
theorem routed_along_iff_server :
    let as : List LoopsOp := [.construct 0 10, .addMainLoop 10, .getNextLoop, .construct 1 11,
      .addEventLoop 11, .construct 2 12, .addEventLoop 12, .getNextLoop, .resetOwnerTid 1 11]
    (Along step LeavesRouted empty as ↔ Along step KeepsTid empty as) ∧
    ∀ bs cs s s',
      Runs step (fun s a => s.Supplied a ∧ s.KeepsTid a) empty bs s →
      Runs step (fun s a => s.Supplied a ∧ s.KeepsTid a) s cs s' →
      ∀ l, s.pool.getNextLoop.2 = some l →
        ∃ t, s.tid l = some t ∧ s'.updateLoopEvents t = some l :=
  routed_along_iff (Checks.along (by decide))

/-- A worker's loop is reset on another thread after it has been added. It is
    still handed out, and an event with its tid is dropped. -/
theorem reset_loses_loop :
    let as : List LoopsOp := [.construct 1 10, .addEventLoop 10, .resetOwnerTid 2 10]
    let s := after step empty as
    Checks step Supplied empty as ∧ ¬ Along step LeavesRouted empty as ∧
      s.pool.getNextLoop.2 = some 10 ∧ s.tid 10 = some 2 ∧ s.updateLoopEvents 2 = none ∧
      s.updateLoopEvents 1 = some 10 := by
  refine ⟨by decide, ?_, rfl, rfl, rfl, rfl⟩
  rintro ⟨_, h⟩
  rcases h _ rfl with ⟨_, h⟩
  rcases h _ rfl with ⟨h, _⟩
  rcases h _ rfl 10 ⟨1, rfl⟩ with ⟨t, ht, hget⟩
  injection ht with ht
  rw [← ht] at hget
  cases hget

end Loops

end Fasco
