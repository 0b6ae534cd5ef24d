import Fasco.Lib.Rotation
import Fasco.Core.LoopPool

/-!
# Connections in Turn

`EventLoopPool::getNextLoop` goes round the vector of loops that have been
added. The cursor `next_` is put back to the start only when the next loop is
asked for, not when it passes the end; so a loop that is added while the cursor
stands at the end still comes in this round.

The pool is a cursor over a growing range in the sense of `Lib.Rotation`, the
sizes of the range being those of the vector at the calls that find it not
empty. Fairness is then read off from there.

## Main definitions

* `EventLoopPool.slot`: The slot the next call selects.
* `EventLoopPool.picks`: The slots selected by a list of calls.

## Theorems

* `next_le`: The cursor is never beyond the end.
* `picks_eq`: The slots selected are those of a rotation.
* `next_loop_round_robin`: Which slots are selected in any run.
-/

namespace Fasco

namespace EventLoopPool

/-- The slot `getNextLoop` selects, none if it falls back to the main loop. -/
def slot (p : EventLoopPool) : Option Nat :=
  if p.nextLoops.length = 0 then none
  else some (if p.nextLoops.length ≤ p.next then 0 else p.next)

/-- The slots the calls of `getNextLoop` among these select. -/
def picks (p : EventLoopPool) : List PoolOp → List Nat
  | [] => []
  | .getNextLoop :: as => p.slot.toList ++ picks (p.step .getNextLoop) as
  | a :: as => picks (p.step a) as

/-- The size of the vector at each selection. -/
def sizes (p : EventLoopPool) : List PoolOp → List Nat
  | [] => []
  | .getNextLoop :: as =>
    (if p.nextLoops.length = 0 then [] else [p.nextLoops.length]) ++
      sizes (p.step .getNextLoop) as
  | a :: as => sizes (p.step a) as

variable {p : EventLoopPool}

theorem run_cons (a : PoolOp) (as : List PoolOp) : p.run (a :: as) = (p.step a).run as := rfl

/-! ### One call -/

theorem addEventLoop_next (tid : Tid) (loop : Option LoopRef) (ismain : Bool) :
    (p.addEventLoop tid loop ismain).1.next = p.next := by
  cases loop with
  | none => rfl
  | some l =>
      unfold addEventLoop
      by_cases h : (p.loops tid).isSome = true
      · simp only [if_pos h]
      · cases ismain with
        | true => simp only [if_neg h, Bool.not_true, Bool.false_eq_true, if_false]
        | false => simp only [if_neg h, Bool.not_false, if_true]

/-- Loops are added at the end of the vector. -/
theorem addEventLoop_nextLoops (tid : Tid) (loop : Option LoopRef) (ismain : Bool) :
    ∃ ls, (p.addEventLoop tid loop ismain).1.nextLoops = p.nextLoops ++ ls := by
  cases loop with
  | none => exact ⟨[], (List.append_nil _).symm⟩
  | some l =>
      unfold addEventLoop
      by_cases h : (p.loops tid).isSome = true
      · simp only [if_pos h]
        exact ⟨[], (List.append_nil _).symm⟩
      · cases ismain with
        | true =>
            simp only [if_neg h, Bool.not_true, Bool.false_eq_true, if_false]
            exact ⟨[], (List.append_nil _).symm⟩
        | false =>
            simp only [if_neg h, Bool.not_false, if_true]
            exact ⟨[l], rfl⟩

theorem getNextLoop_empty (h : p.nextLoops.length = 0) : p.getNextLoop = (p, p.mainLoop) := if_pos h

theorem getNextLoop_slot (h : p.nextLoops.length ≠ 0) :
    p.getNextLoop = ({ p with next := Rotation.slot p.nextLoops.length p.next + 1 },
      p.nextLoops[Rotation.slot p.nextLoops.length p.next]?) := by
  unfold getNextLoop Rotation.slot
  rw [if_neg h]
  by_cases hend : p.nextLoops.length ≤ p.next
  · simp only [if_pos hend]
  · simp only [if_neg hend]

theorem slot_of_nonempty (h : p.nextLoops.length ≠ 0) :
    p.slot = some (Rotation.slot p.nextLoops.length p.next) := if_neg h

theorem getNextLoop_nextLoops : p.getNextLoop.1.nextLoops = p.nextLoops := by
  by_cases h : p.nextLoops.length = 0
  · rw [getNextLoop_empty h]
  · rw [getNextLoop_slot h]

theorem step_length (a : PoolOp) : p.nextLoops.length ≤ (p.step a).nextLoops.length := by
  cases a with
  | addEventLoop tid loop ismain =>
      rcases addEventLoop_nextLoops (p := p) tid loop ismain with ⟨ls, hls⟩
      rw [step, hls, List.length_append]
      exact Nat.le_add_right _ _
  | getNextLoop => rw [step, getNextLoop_nextLoops]

/-- The cursor is at most at the end. -/
theorem step_next (h : p.next ≤ p.nextLoops.length) (a : PoolOp) :
    (p.step a).next ≤ (p.step a).nextLoops.length := by
  cases a with
  | addEventLoop tid loop ismain =>
      have := step_length (p := p) (.addEventLoop tid loop ismain)
      rw [step, addEventLoop_next]
      exact Nat.le_trans h this
  | getNextLoop =>
      rw [step, getNextLoop_nextLoops]
      by_cases h0 : p.nextLoops.length = 0
      · rw [getNextLoop_empty h0]
        exact h
      · rw [getNextLoop_slot h0]
        exact Rotation.slot_lt (Nat.pos_of_ne_zero h0) p.next

/-! ### Runs -/

theorem run_length (as : List PoolOp) : ∀ p : EventLoopPool,
    p.nextLoops.length ≤ (p.run as).nextLoops.length := by
  induction as with
  | nil => exact fun p => Nat.le_refl _
  | cons a as ih => exact fun p => Nat.le_trans (step_length a) (ih (p.step a))

theorem next_le (as : List PoolOp) : ∀ p : EventLoopPool, p.next ≤ p.nextLoops.length →
    (p.run as).next ≤ (p.run as).nextLoops.length := by
  induction as with
  | nil => exact fun p h => h
  | cons a as ih => exact fun p h => ih (p.step a) (step_next h a)

/-- The slots selected are those of a cursor over a range of these sizes. -/
theorem picks_eq (as : List PoolOp) : ∀ p : EventLoopPool,
    p.picks as = Rotation.picks p.next (p.sizes as) ∧
      (p.run as).next = Rotation.cursor p.next (p.sizes as) := by
  induction as with
  | nil => exact fun p => ⟨rfl, rfl⟩
  | cons a as ih =>
      intro p
      rcases ih (p.step a) with ⟨hp, hc⟩
      rw [run_cons]
      cases a with
      | addEventLoop tid loop ismain =>
          rw [step, addEventLoop_next] at hp hc
          exact ⟨hp, hc⟩
      | getNextLoop =>
          unfold picks sizes
          by_cases h0 : p.nextLoops.length = 0
          · have hs : p.slot = none := if_pos h0
            rw [hs, if_pos h0]
            rw [step, getNextLoop_empty h0] at hp hc ⊢
            exact ⟨hp, hc⟩
          · rw [slot_of_nonempty h0, if_neg h0]
            have hn : (p.step .getNextLoop).next = Rotation.slot p.nextLoops.length p.next + 1 := by
              rw [step, getNextLoop_slot h0]
            -- The selection moves the cursor as it does in the abstract range.
            rw [hn] at hp hc
            constructor
            · rw [hp]
              rfl
            · rw [hc]
              rfl

/-- The sizes do not go down, from what the size is before the calls to what it
    is after them. -/
theorem sizes_chain (as : List PoolOp) : ∀ p : EventLoopPool,
    (p.nextLoops.length :: p.sizes as ++ [(p.run as).nextLoops.length]).IsChain (· ≤ ·) := by
  induction as with
  | nil =>
      intro p
      exact List.isChain_cons_cons.mpr ⟨Nat.le_refl _, List.isChain_singleton _⟩
  | cons a as ih =>
      intro p
      have hrest := ih (p.step a)
      have hle := step_length (p := p) a
      rw [run_cons]
      cases a with
      -- A loop that is added makes the first size larger, and none of the others smaller.
      | addEventLoop tid loop ismain => exact hrest.imp_head (fun h => Nat.le_trans hle h)
      | getNextLoop =>
          unfold sizes
          rw [step, getNextLoop_nextLoops] at hrest
          by_cases h0 : p.nextLoops.length = 0
          · rw [if_pos h0]
            exact hrest
          · rw [if_neg h0]
            exact List.isChain_cons_cons.mpr ⟨Nat.le_refl _, hrest⟩

/-- While no worker joins, all sizes are the same. -/
theorem sizes_const {as : List PoolOp} : ∀ {p : EventLoopPool},
    (p.run as).nextLoops.length = p.nextLoops.length →
    ∀ m, m ∈ p.sizes as → m = p.nextLoops.length := by
  induction as with
  | nil =>
      intro p _ m hm
      cases hm
  | cons a as ih =>
      intro p h m hm
      rw [run_cons] at h
      -- The size is the same at the end, so it has been so all the time.
      have h1 := step_length (p := p) a
      have h2 := run_length as (p.step a)
      have hrest := ih (p := p.step a) (by omega)
      cases a with
      | addEventLoop tid loop ismain =>
          rw [hrest m hm]
          omega
      | getNextLoop =>
          unfold sizes at hm
          rcases List.mem_append.mp hm with hm | hm
          · by_cases h0 : p.nextLoops.length = 0
            · rw [if_pos h0] at hm
              cases hm
            · rw [if_neg h0, List.mem_singleton] at hm
              exact hm
          · rw [hrest m hm]
            omega

/-- For every sequence of calls on a pool. A call of `getNextLoop` after it
    falls back to the main loop exactly if no worker has joined, and selects a
    slot of the vector otherwise. If it selects slot `i`, and after some calls
    that do not select `i` the next one does again, then in between every other
    slot there was has been selected once, and no slot more often. And in calls
    among which no worker joins any two slots are selected equally often, up to
    one. -/
theorem next_loop_round_robin (as : List PoolOp) (p : EventLoopPool) (h : p = construct.run as) :
    ((p.nextLoops = [] → p.getNextLoop = (p, p.mainLoop) ∧ p.slot = none) ∧
      (p.nextLoops ≠ [] → ∃ i l, i < p.nextLoops.length ∧ p.slot = some i ∧
        p.nextLoops[i]? = some l ∧ p.getNextLoop.2 = some l)) ∧
    (∀ i bs, p.slot = some i → ((p.step .getNextLoop).run bs).slot = some i →
      i ∉ (p.step .getNextLoop).picks bs → ∀ j, j ≠ i →
        (j < p.nextLoops.length → ((p.step .getNextLoop).picks bs).count j = 1) ∧
        ((p.step .getNextLoop).picks bs).count j ≤ 1) ∧
    (∀ bs, (p.run bs).nextLoops.length = p.nextLoops.length →
      ∀ i j, i < p.nextLoops.length → j < p.nextLoops.length →
        (p.picks bs).count i ≤ (p.picks bs).count j + 1) := by
  have hle : p.next ≤ p.nextLoops.length := by
    rw [h]
    exact next_le as construct (Nat.le_refl 0)
  refine ⟨⟨?_, ?_⟩, ?_, ?_⟩
  · intro hnil
    have h0 : p.nextLoops.length = 0 := by rw [hnil, List.length_nil]
    exact ⟨getNextLoop_empty h0, if_pos h0⟩
  · intro hne
    have h0 : p.nextLoops.length ≠ 0 := fun hc => hne (List.length_eq_zero_iff.mp hc)
    have hlt := Rotation.slot_lt (Nat.pos_of_ne_zero h0) p.next
    refine ⟨_, _, hlt, slot_of_nonempty h0, List.getElem?_eq_getElem hlt, ?_⟩
    rw [getNextLoop_slot h0, List.getElem?_eq_getElem hlt]
  · intro i bs hi hagain hnot j hj
    have h0 : p.nextLoops.length ≠ 0 := by
      intro hc
      rw [slot, if_pos hc] at hi
      cases hi
    rw [slot_of_nonempty h0] at hi
    injection hi with hi
    -- The call has selected `i`, and the cursor is behind it.
    have hnext : (p.step .getNextLoop).next = i + 1 := by
      rw [step, getNextLoop_slot h0, hi]
    have hsize : (p.step .getNextLoop).nextLoops.length = p.nextLoops.length := by
      rw [step, getNextLoop_nextLoops]
    have hlt : i < p.nextLoops.length := by
      rw [← hi]
      exact Rotation.slot_lt (Nat.pos_of_ne_zero h0) p.next
    rcases picks_eq bs (p.step .getNextLoop) with ⟨hpicks, hcur⟩
    have hch := sizes_chain bs (p.step .getNextLoop)
    rw [hsize] at hch
    rw [hnext] at hpicks hcur
    have h0' : ((p.step .getNextLoop).run bs).nextLoops.length ≠ 0 := by
      intro hc
      rw [slot, if_pos hc] at hagain
      cases hagain
    rw [slot_of_nonempty h0'] at hagain
    injection hagain with hagain
    rw [hcur] at hagain
    rw [hpicks] at hnot ⊢
    exact Rotation.between hlt hch hnot hagain hj
  · intro bs hconst i j hi hj
    rw [(picks_eq bs p).1]
    exact Rotation.even hle (sizes_const hconst) hi hj

/-- Two workers have joined and slot 0 comes next. A third joins after slot 1
    has been selected, and still comes before slot 0 does again. -/
theorem next_loop_round_robin_joining :
    let p := construct.run [.addEventLoop 1 (some 10) true, .addEventLoop 2 (some 20) false,
      .addEventLoop 3 (some 30) false]
    let bs : List PoolOp := [.getNextLoop, .addEventLoop 4 (some 40) false, .getNextLoop]
    ((p.step .getNextLoop).picks bs).count 1 = 1 ∧ ((p.step .getNextLoop).picks bs).count 2 ≤ 1 ∧
      ((p.step .getNextLoop).picks bs) = [1, 2] := by
  intro p bs
  have h := (next_loop_round_robin _ p rfl).2.1 0 bs rfl rfl (by decide)
  exact ⟨(h 1 (by decide)).1 (by decide), (h 2 (by decide)).2, rfl⟩

end EventLoopPool

end Fasco
