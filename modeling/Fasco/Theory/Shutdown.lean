import Fasco.Core.Quit
import Fasco.Lib.Run

/-!
# Quitting a Loop

A call of `quit` reaches the loop wherever the loop's thread is at the time.
Before the test of `quit_` the flag is enough. In `epoll_wait` it is not: the
thread sees it only after it has been woken, so the `eventfd` must have been
written to, and `quit` writes only if it does not take its own thread for the
loop's.

`Awake` is the invariant. While the loop runs, `tid_` is its own thread: the
assertion on entry has seen to that, and only the loop's thread, outside of
the loop, changes it. So a call of `quit` that finds the loop in `epoll_wait`
comes from another thread and writes. Nothing reads the counter while the
thread is in `epoll_wait`, and it came there with the flag unset. What is
written earlier may be lost: `handle` reads the counter for any number of
writes at once, but the test of the flag follows.

## Main definitions

* `WakeLoop.Awake`: The invariant.
* `WakeLoop.fresh`: A loop just made.

## Theorems

* `updateEvents_cases`: A call of `updateEvents` writes to the `eventfd` or
  does nothing.
* `handle_frame`: What a reported event leaves as it is.
* `construct_start`: A loop just made is not running.
* `awake_step`, `awake_run`: Every step keeps the invariant.
* `quit_run`: The flag stays set.
* `quit_never_lost`: After a call of `quit` the loop is not blocked.
* `never_waits_again`: Once out of `epoll_wait`, it does not go back.
* `wake_reportable`: In `epoll_wait`, the `eventfd` can be reported.
-/

namespace Fasco

open Fallible

namespace WakeLoop

/-! ### What the calls change -/

/-- A call of `updateEvents` has no effect, or it writes to the `eventfd` and
    changes the table. -/
theorem updateEvents_cases {s s' : WakeLoop} {e : EvRef} {ok : Bool}
    (h : s.updateEvents e ok = .ok s') :
    s' = s ∨ ∃ w, s' = { s with watch := w, counter := s.counter.write } := by
  unfold updateEvents at h
  cases ho : s.watch.obj e with
  | none =>
      rw [ho] at h
      cases h
  | some o =>
      simp only [ho] at h
      by_cases hi : o.invaild = true
      · rw [if_pos hi] at h
        injection h with h
        exact Or.inl h.symm
      · rw [if_neg hi] at h
        rcases (bind_eq_ok_iff _ _ _).mp h with ⟨r, _, hr⟩
        injection hr with hr
        exact Or.inr ⟨r.1, hr.symm⟩

/-- A reported event leaves the flag, the owner and the place in the program
    as they are. -/
theorem handle_frame {s s' : WakeLoop} {fd : Fd} {event : UInt32}
    (h : s.handle fd event = .ok s') :
    s'.pc = s.pc ∧ s'.tid = s.tid ∧ s'.quit_ = s.quit_ := by
  unfold handle at h
  cases he : s.watch.events fd with
  | none =>
      simp only [he] at h
      injection h with h
      exact ⟨by rw [← h], by rw [← h], by rw [← h]⟩
  | some e =>
      simp only [he] at h
      cases ho : s.watch.obj e with
      | none =>
          rw [ho] at h
          cases h
      | some o =>
          simp only [ho] at h
          -- Whatever the tests say, what is left is a write of the object or of the counter.
          split at h
          · injection h with h
            exact ⟨by rw [← h], by rw [← h], by rw [← h]⟩
          · split at h
            · injection h with h
              exact ⟨by rw [← h]; rfl, by rw [← h]; rfl, by rw [← h]; rfl⟩
            · injection h with h
              exact ⟨by rw [← h], by rw [← h], by rw [← h]⟩

/-! ### The invariant -/

/-- While the loop runs, `tid_` is its thread, and in `epoll_wait` with the
    flag set there is something to read from the `eventfd`. -/
structure Awake (ℓ : Tid) (s : WakeLoop) : Prop where
  owned : s.pc.Idle ∨ s.tid = ℓ
  woken : s.pc = .wait → s.quit_ = true → 0 < s.counter.val

/-- Outside `epoll_wait` only the owner matters. -/
theorem Awake.of_not_wait {ℓ : Tid} {s : WakeLoop} (howned : s.pc.Idle ∨ s.tid = ℓ)
    (hpc : s.pc ≠ .wait) : Awake ℓ s :=
  ⟨howned, fun h => absurd h hpc⟩

/-- Once the loop runs, its thread is the owner. -/
theorem Awake.owner {ℓ : Tid} {s : WakeLoop} (h : Awake ℓ s) (hpc : ¬ s.pc.Idle) : s.tid = ℓ :=
  h.owned.resolve_left hpc

theorem not_idle_of_handling {pc : LoopPc} (h : pc.Handling) : ¬ pc.Idle ∧ pc ≠ .wait := by
  cases pc with
  | handle occur => simp [LoopPc.Idle]
  | start => cases h
  | test => cases h
  | wait => cases h
  | returned => cases h

theorem ne_wait_of_outside {pc : LoopPc} (h : pc.Outside) : pc ≠ .wait := by
  rintro rfl
  rcases h with h | h
  · rcases h with h | h <;> cases h
  · cases h

/-- The constructor leaves a loop nobody runs yet. -/
theorem construct_start {obj : EvRef → Option Events} {t : Tid} {created ok : Bool} {wakeFd : Fd}
    {wakeEvent : EvRef} {s : WakeLoop}
    (h : construct obj t created wakeFd wakeEvent ok = .ok s) : s.pc = .start := by
  rcases updateEvents_cases h with heq | ⟨w, heq⟩
  · rw [heq]
  · rw [heq]

theorem awake_start (ℓ : Tid) {s : WakeLoop} (h : s.pc = .start) : Awake ℓ s :=
  Awake.of_not_wait (Or.inl (Or.inl h)) (by simp [h])

/-- A write to the `eventfd` wakes the loop wherever it is. -/
theorem Awake.written {ℓ : Tid} {s s' : WakeLoop} (h : Awake ℓ s) (hpc : s'.pc = s.pc)
    (htid : s'.tid = s.tid) (hc : s'.counter = s.counter.write) : Awake ℓ s' where
  owned := by
    rw [hpc, htid]
    exact h.owned
  woken := by
    intro _ _
    rw [hc]
    exact s.counter.write_pos

/-- `quit` writes if the loop is in `epoll_wait`: the caller is then another
    thread than the owner. -/
theorem Awake.quit {ℓ : Tid} {s : WakeLoop} {u : Tid} (h : Awake ℓ s)
    (hu : u = ℓ → s.pc.Outside) : Awake ℓ (s.quit u) := by
  by_cases hself : s.tid = u
  · have heq : s.quit u = { s with quit_ := true } := by simp [WakeLoop.quit, hself]
    rw [heq]
    refine ⟨h.owned, fun hw _ => ?_⟩
    -- The caller is the owner, so it is the loop's own thread, which is elsewhere.
    have hℓ : u = ℓ := by
      rcases h.owned with hidle | hown
      · exact absurd hw (ne_wait_of_outside (Or.inl hidle))
      · exact hself.symm.trans hown
    exact absurd hw (ne_wait_of_outside (hu hℓ))
  · have heq : s.quit u = { s with quit_ := true, counter := s.counter.write } := by
      simp [WakeLoop.quit, hself, wakeupLoop]
    rw [heq]
    exact h.written rfl rfl rfl

/-- What concerns only the table keeps the invariant. -/
theorem Awake.of_watch {ℓ : Tid} {s : WakeLoop} (h : Awake ℓ s) (w : Watch) :
    Awake ℓ { s with watch := w } := ⟨h.owned, h.woken⟩

/-- The next reported event, or the end of the `for`. -/
theorem next_frame {ℓ : Tid} {s s' : WakeLoop} (hpc : s.pc.Handling)
    (h : s.step ℓ .next = .ok s') :
    s'.pc ≠ .wait ∧ s'.tid = s.tid ∧ s'.quit_ = s.quit_ := by
  cases hp : s.pc with
  | handle occur =>
      cases occur with
      | nil =>
          simp only [step, hp] at h
          injection h with h
          exact ⟨by simp [← h], by rw [← h], by rw [← h]⟩
      | cons p occur =>
          simp only [step, hp] at h
          have hf := handle_frame h
          exact ⟨by simp [hf.1], hf.2.1, hf.2.2⟩
  | start => rw [hp] at hpc; cases hpc
  | test => rw [hp] at hpc; cases hpc
  | wait => rw [hp] at hpc; cases hpc
  | returned => rw [hp] at hpc; cases hpc

theorem awake_step {ℓ : Tid} (s : WakeLoop) (a : LoopOp) (s' : WakeLoop) (h : Awake ℓ s)
    (ha : s.Admits ℓ a) (hstep : s.step ℓ a = .ok s') : Awake ℓ s' := by
  cases a with
  | resetOwnerTid =>
      injection hstep with hstep
      rw [← hstep]
      exact Awake.of_not_wait (Or.inr rfl) (ne_wait_of_outside (Or.inl ha))
  | enter =>
      rcases (bind_eq_ok_iff _ _ _).mp hstep with ⟨_, hassert, hs⟩
      injection hs with hs
      have hown : ℓ = s.tid := by
        by_contra hne
        rw [assertInOwnerThread, if_neg hne] at hassert
        cases hassert
      rw [← hs]
      exact Awake.of_not_wait (Or.inr hown.symm) (by simp)
  | test =>
      injection hstep with hstep
      have hpc : s.pc = .test := ha
      have hown := h.owner (by simp [hpc, LoopPc.Idle])
      rw [← hstep]
      refine ⟨Or.inr hown, fun hw hq => ?_⟩
      -- With the flag set the thread leaves the loop instead.
      have hq' : s.quit_ = true := hq
      simp [hq'] at hw
  | report occur =>
      injection hstep with hstep
      have hpc : s.pc = .wait := ha.1
      have hown := h.owner (by simp [hpc, LoopPc.Idle])
      rw [← hstep]
      exact Awake.of_not_wait (Or.inr hown) (by simp)
  | next =>
      have hf := next_frame ha hstep
      have hown := h.owner (not_idle_of_handling ha).1
      exact Awake.of_not_wait (Or.inr (hf.2.1.trans hown)) hf.1
  | quit u =>
      injection hstep with hstep
      rw [← hstep]
      exact h.quit ha
  | update u e ok =>
      rcases updateEvents_cases hstep with heq | ⟨w, heq⟩
      · rw [heq]
        exact h
      · rw [heq]
        exact h.written rfl rfl rfl
  | call u e m =>
      rcases (bind_eq_ok_iff _ _ _).mp hstep with ⟨r, _, hs⟩
      injection hs with hs
      rw [← hs]
      exact h.of_watch r.1
  | make u e fd events =>
      rcases (bind_eq_ok_iff _ _ _).mp hstep with ⟨r, _, hs⟩
      injection hs with hs
      rw [← hs]
      exact h.of_watch r.1

theorem awake_run {ℓ : Tid} {s t : WakeLoop} {as : List LoopOp}
    (h : Runs (step ℓ) (Admits ℓ) s as t) (hs : Awake ℓ s) : Awake ℓ t :=
  h.invariant (fun s a s' hi ha hstep => awake_step s a s' hi ha hstep) hs

/-! ### The flag -/

/-- No step takes the flag back, and with the flag set none enters
    `epoll_wait`. -/
theorem quit_step {ℓ : Tid} (s : WakeLoop) (a : LoopOp) (s' : WakeLoop) (hq : s.quit_ = true)
    (ha : s.Admits ℓ a) (hstep : s.step ℓ a = .ok s') :
    s'.quit_ = true ∧ (s.pc ≠ .wait → s'.pc ≠ .wait) := by
  cases a with
  | resetOwnerTid =>
      injection hstep with hstep
      rw [← hstep]
      exact ⟨hq, id⟩
  | enter =>
      rcases (bind_eq_ok_iff _ _ _).mp hstep with ⟨_, _, hs⟩
      injection hs with hs
      rw [← hs]
      exact ⟨hq, fun _ => by simp⟩
  | test =>
      injection hstep with hstep
      rw [← hstep]
      exact ⟨hq, fun _ => by simp [hq]⟩
  | report occur =>
      injection hstep with hstep
      rw [← hstep]
      exact ⟨hq, fun _ => by simp⟩
  | next =>
      have hf := next_frame ha hstep
      exact ⟨hf.2.2.trans hq, fun _ => hf.1⟩
  | quit u =>
      injection hstep with hstep
      rw [← hstep]
      by_cases hself : s.tid = u <;> simp [WakeLoop.quit, hself, wakeupLoop]
  | update u e ok =>
      rcases updateEvents_cases hstep with heq | ⟨w, heq⟩
      · rw [heq]
        exact ⟨hq, id⟩
      · rw [heq]
        exact ⟨hq, id⟩
  | call u e m =>
      rcases (bind_eq_ok_iff _ _ _).mp hstep with ⟨r, _, hs⟩
      injection hs with hs
      rw [← hs]
      exact ⟨hq, id⟩
  | make u e fd events =>
      rcases (bind_eq_ok_iff _ _ _).mp hstep with ⟨r, _, hs⟩
      injection hs with hs
      rw [← hs]
      exact ⟨hq, id⟩

/-- A run with a call of `quit` in it ends with the flag set. -/
theorem quit_run {ℓ : Tid} {s t : WakeLoop} {as : List LoopOp} {u : Tid}
    (h : Runs (step ℓ) (Admits ℓ) s as t) (hu : .quit u ∈ as) : t.quit_ = true := by
  rcases List.append_of_mem hu with ⟨xs, ys, rfl⟩
  rcases h.append_inv xs (.quit u :: ys) with ⟨m, _, hrest⟩
  cases hrest with
  | cons _ m' _ _ _ _ hstep hys =>
      have hset : m'.quit_ = true := by
        injection hstep with hstep
        rw [← hstep]
        by_cases hself : m.tid = u <;> simp [WakeLoop.quit, hself, wakeupLoop]
      exact hys.invariant (fun s a s' hq ha hs => (quit_step s a s' hq ha hs).1) hset

/-- A loop that is told to quit does not stay in `epoll_wait` for want of a
    wake-up: in every interleaving, once a call of `quit` has returned, the
    counter of the `eventfd` is positive whenever the thread is there. -/
theorem quit_never_lost (ℓ : Tid) (s s' : WakeLoop) (as : List LoopOp) (u : Tid)
    (hstart : s.pc = .start) (h : Runs (step ℓ) (Admits ℓ) s as s') (hu : .quit u ∈ as) :
    ¬ s'.Blocked := by
  rintro ⟨hw, hzero⟩
  have hpos := (awake_run h (awake_start ℓ hstart)).woken hw (quit_run h hu)
  omega

/-- A loop just made, on thread 0, with descriptor 3 for the wake-up. -/
def fresh : WakeLoop where
  watch :=
    { events := Function.update (fun _ => none) 3 (some 0)
      interest := Function.update (fun _ => none) 3 (some kReadEvent)
      created := true
      obj := Function.update (fun _ => none) 0 (some (Events.make 3 kReadEvent 0)) }
  wakeFd := 3
  counter := Counter.zero.write
  tid := 0
  quit_ := false
  pc := .start

example : construct (fun _ => none) 0 true 3 0 true = .ok fresh := rfl

/-- Thread 1 takes the loop over and reads the constructor's wake-up; thread 0
    calls `quit` when it waits again. -/
theorem quit_never_lost_waiting :
    ¬ (after (step 1) fresh [.resetOwnerTid, .enter, .test, .report [(3, pollIn)], .next, .next,
      .test, .quit 0]).Blocked :=
  quit_never_lost 1 fresh _ _ 0 rfl (Checks.runs (by decide)) (by decide)

/-- Once it is out of `epoll_wait`, a loop that has been told to quit does not
    go back. -/
theorem never_waits_again {ℓ : Tid} {s t : WakeLoop} {as : List LoopOp}
    (h : Runs (step ℓ) (Admits ℓ) s as t) (hq : s.quit_ = true) (hpc : s.pc ≠ .wait) :
    t.pc ≠ .wait := by
  have hboth : t.quit_ = true ∧ t.pc ≠ .wait :=
    h.invariant (I := fun s => s.quit_ = true ∧ s.pc ≠ .wait)
      (fun s a s' hi ha hstep =>
        ⟨(quit_step s a s' hi.1 ha hstep).1, (quit_step s a s' hi.1 ha hstep).2 hi.2⟩)
      ⟨hq, hpc⟩
  exact hboth.2

/-- In `epoll_wait` after a call of `quit`, the kernel has the `eventfd` to
    report, whatever else is ready. -/
theorem wake_reportable {ℓ : Tid} {s t : WakeLoop} {as : List LoopOp} {u : Tid}
    (hstart : s.pc = .start) (h : Runs (step ℓ) (Admits ℓ) s as t) (hu : .quit u ∈ as)
    (hw : t.pc = .wait) (occur : List (Fd × UInt32)) : t.Admits ℓ (.report occur) :=
  ⟨hw, fun _ _ _ => (awake_run h (awake_start ℓ hstart)).woken hw (quit_run h hu)⟩

end WakeLoop

end Fasco
