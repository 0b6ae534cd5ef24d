import Fasco.Theory.Waking
import Fasco.Theory.RoundRobin

/-!
# Who Gets the Connections

`TcpServer::accept` asks the registry for the next loop once for every
connection. In between the acceptor sleeps and is woken, other threads serve
their connections, and connections are accepted and handed over in any number of
calls; only the cursor of the registry remembers whose turn it is.

It is enough. While no loop joins, the numbers of connections that any two
worker loops have been given differ by one at most, from any moment on and
however the threads are interleaved (`connections_are_shared_out`). The counts are
those of a rotation in the sense of `Lib.Rotation`, one selection for every step
that calls `getNextLoop`, and the loops are named by the slots they are in, which
are different because the registry takes no thread twice.

## Main definitions

* `TcpSys.chooses`, `TcpSys.given`: A step that gives a connection to a loop.
* `TcpSys.Rotating`: What holds of the vector of worker loops and its cursor.

## Theorems

* `step_loops`: What a step does to the registry.
* `step_rotating`: The vector has each loop once, and the cursor is in it.
* `level_run`: The counts are those of a rotation.
* `connections_are_shared_out`: The workers are given the same number, but for one.
-/

namespace Fasco

open Fallible

/-- The acceptor has a connection, and no loop for it. -/
def Pos.choosing : Pos → Bool
  | .accepted _ => true
  | _ => false

/-- A thread gets a loop in this step. -/
def TcpOp.joins : TcpOp → Bool
  | .addLoop _ _ _ => true
  | _ => false

namespace TcpSys

/-- The step calls `getNextLoop`. -/
def chooses (s : TcpSys) : TcpOp → Bool
  | .run t _ =>
    match s.turn t with
    | .inside c => (s.pos c).any Pos.choosing
    | _ => false
  | _ => false

/-- The connections that the loop of thread `l` is given in this step. -/
def given (l : Tid) (s : TcpSys) (a : TcpOp) : Nat :=
  if s.chooses a = true ∧ s.loops.getNextLoop.2 = some l then 1 else 0

/-- The worker loops are different, and the cursor is not beyond the end. -/
structure Rotating (s : TcpSys) : Prop where
  distinct : s.loops.nextLoops.Nodup
  cursor : s.loops.next ≤ s.loops.nextLoops.length

section Sharing

variable {s s' : TcpSys} {a : TcpOp} {t : Tid} {i : Supply}

/-- A call of a loop does not ask the registry. -/
theorem loop_loops (hno : ∀ c, s.turn t ≠ .inside c) (hs : s.step (.run t i) = .ok s') :
    s'.loops = s.loops := by
  have ho := run_outcome hs
  generalize s.turn t = r at hno ho
  cases ho with
  | calls _ _ _ _ => exact absurd rfl (hno _)
  | _ => rfl

/-- A step asks the registry for a loop, or adds one, or leaves it as it is. -/
theorem step_loops (hi : s.Inv) (ha : s.Supplied a) (hs : s.step a = .ok s') :
    (s.chooses a = true ∧ s'.loops = s.loops.step .getNextLoop) ∨
      s.chooses a = false ∧ (s'.loops = s.loops ∨ ∃ t fd ismain, a = .addLoop t fd ismain ∧
        s'.loops = s.loops.step (.addEventLoop t (some t) ismain)) := by
  cases a with
  | addLoop t fd ismain =>
      rcases (bind_eq_ok_iff _ _ _).mp hs with ⟨io, _, hs⟩
      injection hs with hs
      rw [← hs]
      exact .inr ⟨rfl, .inr ⟨t, fd, ismain, rfl, rfl⟩⟩
  | start t fd co ok =>
      have hs' : s.start t fd co ok = .ok s' := hs
      unfold TcpSys.start at hs'
      simp only [ha.1] at hs'
      rcases (bind_eq_ok_iff _ _ _).mp hs' with ⟨io, _, hs'⟩
      injection hs' with hs'
      rw [← hs']
      exact .inr ⟨rfl, .inl rfl⟩
  | poll t events =>
      injection hs with hs
      rw [← hs]
      exact .inr ⟨rfl, .inl rfl⟩
  | run t i =>
      by_cases hin : ∃ c, s.turn t = .inside c
      · rcases hin with ⟨c, hr⟩
        have hok := hi.turns t
        rw [hr] at hok
        rcases hok with ⟨k, p, hk, hp, _, rfl⟩
        have hl := (code_local (hi.run_inside hk hp hr hs)).loops
        have hch : s.chooses (.run k.loop i) = p.choosing := by
          rw [chooses, hr]
          simp only [hp, Option.any_some]
        rw [hch]
        cases p with
        | accepted g => exact .inl ⟨rfl, hl⟩
        | _ => exact .inr ⟨rfl, .inl hl⟩
      · refine .inr ⟨?_, .inl (loop_loops (fun c hc => hin ⟨c, hc⟩) hs)⟩
        cases hr : s.turn t with
        | inside c => exact absurd ⟨c, hr⟩ hin
        | _ => rw [chooses, hr]
  | drop t d =>
      rcases Option.isSome_iff_exists.mp ha.1 with ⟨kd, hkd⟩
      rw [step, hkd] at hs
      rcases (bind_eq_ok_iff _ _ _).mp hs with ⟨w, _, hs⟩
      rcases (bind_eq_ok_iff _ _ _).mp hs with ⟨io, _, hs⟩
      injection hs with hs
      rw [← hs]
      exact .inr ⟨rfl, .inl rfl⟩

theorem step_rotating (hi : s.Inv) (hr : s.Rotating) (ha : s.Supplied a)
    (hs : s.step a = .ok s') : s'.Rotating := by
  rcases step_loops hi ha hs with ⟨_, h⟩ | ⟨_, h | ⟨t, fd, ismain, rfl, h⟩⟩
  · refine ⟨?_, ?_⟩
    · rw [h, EventLoopPool.step, EventLoopPool.getNextLoop_nextLoops]
      exact hr.distinct
    · rw [h]
      exact EventLoopPool.step_next hr.cursor _
  · exact ⟨by rw [h]; exact hr.distinct, by rw [h]; exact hr.cursor⟩
  · refine ⟨?_, ?_⟩
    · rw [h, EventLoopPool.step, EventLoopPool.addEventLoop]
      by_cases hin : (s.loops.loops t).isSome = true
      · simp only [if_pos hin]
        exact hr.distinct
      · cases ismain with
        | true =>
            simp only [if_neg hin, Bool.not_true, Bool.false_eq_true, if_false]
            exact hr.distinct
        -- Whoever is in the vector is in the table, so the thread is not.
        | false =>
            simp only [if_neg hin, Bool.not_false, if_true]
            refine List.nodup_append.mpr ⟨hr.distinct, List.nodup_singleton t, ?_⟩
            rintro x hx y hy rfl
            rw [List.mem_singleton.mp hy] at hx
            rw [hi.registry.workers t hx] at hin
            exact hin rfl
    · rw [h]
      exact EventLoopPool.step_next hr.cursor _

theorem rotating_init (h : TcpInit s) : s.Rotating := by
  refine ⟨?_, ?_⟩
  · rw [h.loops]
    exact List.nodup_nil
  · rw [h.loops]
    exact Nat.le_refl 0

/-- The next loop is the one in the slot of the rotation. -/
theorem given_slot {ws : List LoopRef} (hr : s.Rotating) (hws : s.loops.nextLoops = ws)
    (hch : s.chooses a = true) {j : Nat} (hj : j < ws.length) :
    given ws[j] s a = if j = Rotation.slot ws.length s.loops.next then 1 else 0 := by
  have hne : s.loops.nextLoops.length ≠ 0 := by
    rw [hws]
    omega
  have hslot := Rotation.slot_lt (Nat.pos_of_ne_zero hne) s.loops.next
  have hnodup := hr.distinct
  rw [given, EventLoopPool.getNextLoop_slot hne]
  rw [hws] at hslot hnodup ⊢
  rw [List.getElem?_eq_getElem hslot]
  by_cases hjs : j = Rotation.slot ws.length s.loops.next
  · rw [if_pos hjs, if_pos ⟨hch, by simp only [← hjs]⟩]
  · rw [if_neg hjs, if_neg]
    rintro ⟨_, heq⟩
    injection heq with heq
    exact hjs ((hnodup.getElem_inj_iff).mp heq).symm

/-- While no loop joins, the connections that the workers are given are counted
    by a rotation. -/
theorem level_run {ws : List LoopRef} (hpos : 0 < ws.length) {as : List TcpOp}
    (h : Runs step (fun u a => u.Supplied a ∧ a.joins = false) s as s') (hi : s.Inv)
    (hr : s.Rotating) (hws : s.loops.nextLoops = ws) {f : Nat → Nat}
    (hf : Rotation.Level ws.length s.loops.next f) :
    Rotation.Level ws.length s'.loops.next
      (fun j => f j + total step (given (ws.getD j 0)) s as) := by
  induction h generalizing f with
  | nil s => exact hf
  | cons s s' t a as hok hs _ ih =>
      have hi' := next_inv hi hok.1 hs
      have hr' := step_rotating hi hr hok.1 hs
      have hsum : ∀ j, total step (given (ws.getD j 0)) s (a :: as)
          = given (ws.getD j 0) s a + total step (given (ws.getD j 0)) s' as := fun j => by
        rw [total, next_of_ok hs]
      have hget : ∀ j (hj : j < ws.length), ws.getD j 0 = ws[j] := fun j hj =>
        List.getD_eq_getElem ws 0 hj
      rcases step_loops hi hok.1 hs with ⟨hch, hl⟩ | ⟨hch, hl⟩
      · have hne : s.loops.nextLoops.length ≠ 0 := by
          rw [hws]
          omega
        rw [EventLoopPool.step, EventLoopPool.getNextLoop_slot hne] at hl
        have hws' : s'.loops.nextLoops = ws := by
          rw [hl]
          exact hws
        have hnext : s'.loops.next = Rotation.slot ws.length s.loops.next + 1 := by
          rw [hl, ← hws]
        have hpick := hf.pick hpos
        rw [← hnext] at hpick
        refine (ih hi' hr' hws' hpick).congr (fun j hj => ?_)
        rw [hsum, hget j hj, given_slot hr hws hch hj, Nat.add_assoc]
      · have hl : s'.loops = s.loops := by
          rcases hl with hl | ⟨_, _, _, rfl, _⟩
          · exact hl
          · cases hok.2
        rw [← hl] at hws hf
        refine (ih hi' hr' hws hf).congr (fun j hj => ?_)
        have hzero : given (ws.getD j 0) s a = 0 := if_neg (fun h => by
          rw [hch] at h
          cases h.1)
        rw [hsum, hzero, Nat.zero_add]

end Sharing

end TcpSys

/-- In every run of the server, while no loop joins, any two worker loops are
    given the same number of connections but for one, from any moment on and in
    any interleaving of the threads. -/
theorem connections_are_shared_out {s₀ s s' : TcpSys} {as bs : List TcpOp} {l l' : Tid}
    (h₀ : TcpInit s₀) (h : Runs TcpSys.step TcpSys.Supplied s₀ as s)
    (hrun : Runs TcpSys.step (fun u a => u.Supplied a ∧ a.joins = false) s bs s')
    (hl : l ∈ s.loops.nextLoops) (hl' : l' ∈ s.loops.nextLoops) :
    total TcpSys.step (TcpSys.given l) s bs ≤ total TcpSys.step (TcpSys.given l') s bs + 1 := by
  rcases h.invariant (I := fun u => u.Inv ∧ u.Rotating)
    (fun u a u' hI ha hs => ⟨TcpSys.next_inv hI.1 ha hs, TcpSys.step_rotating hI.1 hI.2 ha hs⟩)
    ⟨TcpSys.inv_init h₀, TcpSys.rotating_init h₀⟩ with ⟨hi, hr⟩
  obtain ⟨j, hj, rfl⟩ := List.getElem_of_mem hl
  obtain ⟨j', hj', rfl⟩ := List.getElem_of_mem hl'
  have hlevel := TcpSys.level_run (Nat.zero_lt_of_lt hj) hrun hi hr rfl
    (Rotation.Level.start hr.cursor)
  have hclose := hlevel.close hj hj'
  simp only [Nat.zero_add, List.getD_eq_getElem _ 0 hj, List.getD_eq_getElem _ 0 hj'] at hclose
  exact hclose

/-- Two connections are accepted, and there are two workers. -/
theorem connections_are_shared_out_two :
    let s := after TcpSys.step .blank
      [.addLoop 1 3 true, .addLoop 2 4 false, .addLoop 3 6 false, .start 1 5 10 true]
    let next := { TcpOp.onMain with co := 22 }
    let bs := .poll 1 [(5, pollIn)] :: List.replicate 14 (.run 1 TcpOp.onMain) ++
      .poll 1 [(5, pollIn)] :: List.replicate 6 (.run 1 TcpOp.onMain) ++
      [.run 1 { TcpOp.onMain with accepted := some (9, false) }, .run 1 TcpOp.onMain,
        .run 1 TcpOp.onMain] ++ List.replicate 12 (.run 1 next) ++
      .poll 1 [(5, pollIn)] :: List.replicate 6 (.run 1 next) ++
      [.run 1 { next with accepted := some (11, false) }, .run 1 next]
    total TcpSys.step (TcpSys.given 3) s bs = 1 ∧
      total TcpSys.step (TcpSys.given 3) s bs ≤ total TcpSys.step (TcpSys.given 2) s bs + 1 := by
  intro s next bs
  have h : Runs TcpSys.step TcpSys.Supplied .blank
      [.addLoop 1 3 true, .addLoop 2 4 false, .addLoop 3 6 false, .start 1 5 10 true] s :=
    undropped (by decide +kernel)
  have hrun : Runs TcpSys.step (fun u a => u.Supplied a ∧ a.joins = false) s bs
      (after TcpSys.step s bs) :=
    undropped_and (by decide +kernel)
  obtain ⟨hworkers, hcount⟩ : s.loops.nextLoops = [2, 3] ∧
      total TcpSys.step (TcpSys.given 3) s bs = 1 := by decide +kernel
  clear_value s bs
  exact ⟨hcount, connections_are_shared_out tcpBlank_init h hrun
    (by rw [hworkers]; decide) (by rw [hworkers]; decide)⟩

end Fasco
