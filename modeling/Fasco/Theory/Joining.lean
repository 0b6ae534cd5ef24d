import Fasco.Core.ThreadPool
import Fasco.Lib.Attempts
import Fasco.Lib.Run

/-!
# Threads Are Joined Once

What a `ThreadPool` starts and what its destructor joins.

`start` is a loop that stops at the first failure, and the library's
`attempts` is what it tries. `startThreads_calls` says so, and with it the
order of the calls, where they stop and what `start` returns are read off the
list of what `pthread_create` answers. All of this holds in every life of a
pool.

The destructor is another matter. `started_` says that `start` has been
called, not how far it has come, and `threads_` holds every thread there was
to be. `startThreads_ids` gives the ids that are in it: those of the threads
that were created, and after them, if a creation failed, whatever the failed
call left and zero for each thread that was not attempted. The destructor
calls `pthread_join` on all of them. So it settles what `start` has done
exactly if nothing failed, or if `start` was not called; the joins may wait as
long as they like.

## Main definitions

* `asked`: What `pthread_create` would answer for all threads of a pool.
* `PoolLife.Built`: The state of a pool in terms of what it was asked.
* `threadCount`: The number of threads asked for last.
* `PoolLife.StartsInOrder`: What `start` did.

## Theorems

* `startThreads_calls`, `startThreads_count`, `startThreads_ids`: The loop in
  `start`.
* `joinThreads_isPrefix`, `joinThreads_all`: The loop in the destructor.
* `step_cases`: What a call does to a pool.
* `runs_built`: The state of a pool after any calls.
* `Built.startsInOrder`: The threads are started in order.
* `Built.settles_iff`: What the destructor of a started pool does.
* `joins_created_iff`: The destructor joins the threads that were created
  exactly if `start` was not called or nothing failed.
-/

namespace Fasco

open Attempts Fallible

variable {φ : Type}

/-! ### The loop in `start` -/

/-- What `pthread_create` would answer for `n` threads from position `i` on. -/
def asked (create : Nat → Creation) (i n : Nat) : List (Nat × Creation) :=
  (List.range' i n).map (fun j => (j, create j))

theorem asked_succ (create : Nat → Creation) (i n : Nat) :
    asked create i (n + 1) = (i, create i) :: asked create (i + 1) n := by
  rw [asked, List.range'_succ, List.map_cons]
  rfl

@[simp] theorem asked_length (create : Nat → Creation) (i n : Nat) :
    (asked create i n).length = n := by
  rw [asked, List.length_map, List.length_range']

theorem asked_get {create : Nat → Creation} {n i : Nat} (h : i < n) :
    (asked create 0 n)[i]? = some (i, create i) := by
  rw [asked, List.getElem?_map, List.getElem?_range' h]
  simp only [Nat.zero_add, Nat.one_mul, Option.map_some]

theorem all_asked_iff {create : Nat → Creation} {n : Nat} :
    (∀ c ∈ asked create 0 n, callOk c = true) ↔ ∀ i < n, (create i).ok = true := by
  constructor
  · intro h i hi
    exact h _ (List.mem_of_getElem? (asked_get hi))
  · intro h c hc
    obtain ⟨j, hj, rfl⟩ := List.mem_map.mp hc
    rw [List.mem_range'_1] at hj
    exact h j (by omega)

theorem start_ok {th : Thread φ} {c : Creation} (h : c.ok = true) :
    th.start c = ({ th with threadId := c.id }, true) := by
  have hc : c.rc = 0 := of_decide_eq_true h
  unfold Thread.start
  rw [if_neg (not_not.mpr hc)]

theorem start_fail {th : Thread φ} {c : Creation} (h : ¬ c.ok = true) :
    th.start c = ({ th with threadId := c.id }, false) := by
  have hc : c.rc ≠ 0 := fun hc => h (decide_eq_true hc)
  unfold Thread.start
  rw [if_pos hc]

/-- The loop goes on after a thread that could be created. -/
theorem startThreads_ok {create : Nat → Creation} {i : Nat} (h : (create i).ok = true)
    (th : Thread φ) (ths : List (Thread φ)) :
    startThreads create i (th :: ths) =
      { threads := { th with threadId := (create i).id } ::
          (startThreads create (i + 1) ths).threads
        count := (startThreads create (i + 1) ths).count + 1
        calls := (i, create i) :: (startThreads create (i + 1) ths).calls } := by
  rw [startThreads, start_ok h]
  rfl

/-- It breaks after one that could not. -/
theorem startThreads_fail {create : Nat → Creation} {i : Nat} (h : ¬ (create i).ok = true)
    (th : Thread φ) (ths : List (Thread φ)) :
    startThreads create i (th :: ths) =
      { threads := { th with threadId := (create i).id } :: ths
        count := 0
        calls := [(i, create i)] } := by
  rw [startThreads, start_fail h]
  rfl

/-- The calls the loop makes. -/
theorem startThreads_calls (create : Nat → Creation) (i : Nat) (ths : List (Thread φ)) :
    (startThreads create i ths).calls = attempts callOk (asked create i ths.length) := by
  induction ths generalizing i with
  | nil => rfl
  | cons th ths ih =>
      rw [List.length_cons, asked_succ]
      by_cases h : callOk (i, create i) = true
      · rw [startThreads_ok h, attempts_cons_ok callOk h, ← ih]
      · rw [startThreads_fail h, attempts_cons_fail callOk h]

/-- `count` is the number of threads that were created. -/
theorem startThreads_count (create : Nat → Creation) (i : Nat) (ths : List (Thread φ)) :
    (startThreads create i ths).count
      = ((startThreads create i ths).calls.filter callOk).length := by
  induction ths generalizing i with
  | nil => rfl
  | cons th ths ih =>
      by_cases h : callOk (i, create i) = true
      · rw [startThreads_ok h, List.filter_cons_of_pos h, List.length_cons, ← ih]
      · rw [startThreads_fail h, List.filter_cons_of_neg h]
        rfl

/-- No thread is dropped from `threads_`. -/
theorem startThreads_length (create : Nat → Creation) (i : Nat) (ths : List (Thread φ)) :
    (startThreads create i ths).threads.length = ths.length := by
  induction ths generalizing i with
  | nil => rfl
  | cons th ths ih =>
      by_cases h : (create i).ok = true
      · rw [startThreads_ok h]
        simp only [List.length_cons]
        rw [ih]
      · rw [startThreads_fail h]
        simp only [List.length_cons]

/-- The ids in `threads_` begin with those of the threads that were created. -/
theorem startThreads_ids (create : Nat → Creation) (i : Nat) (ths : List (Thread φ)) :
    ((startThreads create i ths).calls.filter callOk).map (fun c => c.2.id)
      <+: (startThreads create i ths).threads.map Thread.threadId := by
  induction ths generalizing i with
  | nil => exact List.prefix_refl _
  | cons th ths ih =>
      by_cases h : callOk (i, create i) = true
      · rw [startThreads_ok h, List.filter_cons_of_pos h, List.map_cons, List.map_cons]
        exact (List.prefix_cons_inj _).mpr (ih (i + 1))
      · -- Nothing has been created, so there is nothing to begin with.
        rw [startThreads_fail h, List.filter_cons_of_neg h]
        exact List.nil_prefix

/-! ### The loop in the destructor -/

theorem joinThreads_waits {join : Nat → Option Nat} {i : Nat} (h : join i = none) (th : Thread φ)
    (ths : List (Thread φ)) :
    joinThreads join i (th :: ths) = { joined := [th.threadId], returns := false } := by
  rw [joinThreads, Thread.join, h]
  rfl

theorem joinThreads_goes_on {join : Nat → Option Nat} {i rc : Nat} (h : join i = some rc)
    (th : Thread φ) (ths : List (Thread φ)) :
    joinThreads join i (th :: ths) =
      { joined := th.threadId :: (joinThreads join (i + 1) ths).joined
        returns := (joinThreads join (i + 1) ths).returns } := by
  rw [joinThreads, Thread.join, h]
  rfl

/-- The destructor joins what is in `threads_`, in order, as far as it
    comes. -/
theorem joinThreads_isPrefix (join : Nat → Option Nat) (i : Nat) (ths : List (Thread φ)) :
    (joinThreads join i ths).joined <+: ths.map Thread.threadId := by
  induction ths generalizing i with
  | nil => exact List.prefix_refl _
  | cons th ths ih =>
      rw [List.map_cons]
      cases h : join i with
      | none =>
          rw [joinThreads_waits h]
          exact ⟨ths.map Thread.threadId, rfl⟩
      | some rc =>
          rw [joinThreads_goes_on h]
          exact (List.prefix_cons_inj _).mpr (ih (i + 1))

/-- When it returns it has joined all of it. -/
theorem joinThreads_through {join : Nat → Option Nat} {i : Nat} {ths : List (Thread φ)}
    (h : (joinThreads join i ths).returns = true) :
    (joinThreads join i ths).joined = ths.map Thread.threadId := by
  induction ths generalizing i with
  | nil => rfl
  | cons th ths ih =>
      cases hj : join i with
      | none =>
          rw [joinThreads_waits hj] at h
          cases h
      | some rc =>
          rw [joinThreads_goes_on hj] at h ⊢
          rw [List.map_cons, ← ih h]

/-- It returns if every join does. -/
theorem joinThreads_all {join : Nat → Option Nat} (h : ∀ i, (join i).isSome = true) (i : Nat)
    (ths : List (Thread φ)) : (joinThreads join i ths).returns = true := by
  induction ths generalizing i with
  | nil => rfl
  | cons th ths ih =>
      obtain ⟨rc, hrc⟩ := Option.isSome_iff_exists.mp (h i)
      rw [joinThreads_goes_on hrc]
      exact ih (i + 1)

/-! ### Calls on a pool -/

theorem assertInOwnerThread_ok {p : ThreadPool φ} {t : Tid} {u : Unit}
    (h : p.assertInOwnerThread t = .ok u) : t = p.tid := by
  unfold ThreadPool.assertInOwnerThread at h
  by_cases ht : t = p.tid
  · exact ht
  · rw [if_neg ht] at h
    cases h

theorem assertNotStarted_ok {p : ThreadPool φ} {u : Unit} (h : p.assertNotStarted = .ok u) :
    p.started = false := by
  unfold ThreadPool.assertNotStarted at h
  cases hs : p.started with
  | false => rfl
  | true =>
      rw [hs] at h
      cases h

/-- A function of the pool returns on the owner's thread and before `start`
    only. -/
theorem asserted {α : Type} {p : ThreadPool φ} {t : Tid} {x : Except Fault α} {r : α}
    (h : (do p.assertInOwnerThread t; p.assertNotStarted; x) = .ok r) :
    t = p.tid ∧ p.started = false ∧ x = .ok r := by
  obtain ⟨_, ht, h⟩ := (bind_eq_ok_iff _ _ _).mp h
  obtain ⟨_, hs, h⟩ := (bind_eq_ok_iff _ _ _).mp h
  exact ⟨assertInOwnerThread_ok ht, assertNotStarted_ok hs, h⟩

/-- What `start` leaves, if it is called now. -/
def PoolLife.atStart (P : Pthreads) (l : PoolLife φ) : Started φ :=
  startThreads P.create 0
    (l.pool.threads ++ List.replicate l.pool.threadNum.toNat (Thread.construct l.pool.threadFunc))

/-- What a call that returns does. -/
theorem step_cases {P : Pthreads} {l l' : PoolLife φ} {a : Tid × PoolCall φ}
    (h : PoolLife.step P l a = .ok l') :
    a.1 = l.pool.tid ∧ l.pool.started = false ∧
      ((∃ f, a.2 = .updateThreadFunc f ∧ l' = { l with pool := { l.pool with threadFunc := f } }) ∨
       (∃ m, a.2 = .updateThreadNum m ∧ 0 ≤ m ∧
          l' = { l with pool := { l.pool with threadNum := m } }) ∨
       (a.2 = .start ∧
          l' = { pool := { l.pool with threads := (l.atStart P).threads, started := true }
                 calls := l.calls ++ (l.atStart P).calls
                 returned := some
                  (if ((l.atStart P).count : Int) ≠ l.pool.threadNum then false else true) })) := by
  obtain ⟨t, c⟩ := a
  cases c with
  | updateThreadFunc f =>
      obtain ⟨p, hp, h⟩ := (bind_eq_ok_iff _ _ _).mp h
      obtain ⟨ht, hs, hp⟩ := asserted hp
      injection hp with hp
      injection h with h
      exact ⟨ht, hs, Or.inl ⟨f, rfl, by rw [← h, ← hp]⟩⟩
  | updateThreadNum m =>
      obtain ⟨p, hp, h⟩ := (bind_eq_ok_iff _ _ _).mp h
      obtain ⟨ht, hs, hp⟩ := asserted hp
      -- The third assertion is on the argument.
      by_cases hm : 0 ≤ m
      · rw [if_pos hm] at hp
        injection hp with hp
        injection h with h
        exact ⟨ht, hs, Or.inr (Or.inl ⟨m, rfl, hm, by rw [← h, ← hp]⟩)⟩
      · rw [if_neg hm] at hp
        cases hp
  | start =>
      obtain ⟨r, hr, h⟩ := (bind_eq_ok_iff _ _ _).mp h
      obtain ⟨ht, hs, hr⟩ := asserted hr
      injection hr with hr
      injection h with h
      exact ⟨ht, hs, Or.inr (Or.inr ⟨rfl, by rw [← h, ← hr]; rfl⟩)⟩

/-! ### The state of a pool -/

/-- Before `start` there are no threads. Afterwards there are those that the
    loop left, for the number and the function that the pool has. -/
structure PoolLife.Built (P : Pthreads) (l : PoolLife φ) : Prop where
  num : 0 ≤ l.pool.threadNum
  before : l.pool.started = false → l.pool.threads = [] ∧ l.calls = [] ∧ l.returned = none
  after : l.pool.started = true → ∃ s : Started φ,
    s = startThreads P.create 0
      (List.replicate l.pool.threadNum.toNat (Thread.construct l.pool.threadFunc)) ∧
    l.pool.threads = s.threads ∧ l.calls = s.calls ∧
    l.returned = some (decide ((s.count : Int) = l.pool.threadNum))

theorem begin_built {P : Pthreads} {t : Tid} {n : Int} {f : Option φ} {p : ThreadPool φ}
    (h : ThreadPool.construct t n f = .ok p) :
    (PoolLife.begin p).Built P ∧ p.threadNum = n ∧ p.started = false := by
  unfold ThreadPool.construct at h
  by_cases hn : 0 ≤ n
  · rw [if_pos hn] at h
    injection h with h
    subst h
    exact ⟨⟨hn, fun _ => ⟨rfl, rfl, rfl⟩, fun hs => (by cases hs)⟩, rfl, rfl⟩
  · rw [if_neg hn] at h
    cases h

theorem built_step {P : Pthreads} {l l' : PoolLife φ} {a : Tid × PoolCall φ} (hb : l.Built P)
    (h : PoolLife.step P l a = .ok l') : l'.Built P := by
  obtain ⟨_, hs, h⟩ := step_cases h
  obtain ⟨ht, hc, hr⟩ := hb.before hs
  -- A pool that a call returns on has not been started.
  have hno : ¬ l.pool.started = true := by
    rw [hs]
    exact Bool.false_ne_true
  rcases h with ⟨f, _, rfl⟩ | ⟨m, _, hm, rfl⟩ | ⟨_, rfl⟩
  · exact ⟨hb.num, fun _ => ⟨ht, hc, hr⟩, fun hs' => absurd hs' hno⟩
  · exact ⟨hm, fun _ => ⟨ht, hc, hr⟩, fun hs' => absurd hs' hno⟩
  · refine ⟨hb.num, fun hs' => absurd hs' Bool.noConfusion, fun _ => ⟨l.atStart P, ?_, rfl, ?_, ?_⟩⟩
    · rw [PoolLife.atStart, ht, List.nil_append]
    · rw [hc, List.nil_append]
    · simp only [ne_eq, ite_not, Bool.if_false_right, Bool.and_true]

/-- The number of threads a pool is asked for by a call. -/
def PoolCall.num (n : Int) : PoolCall φ → Int
  | .updateThreadNum m => m
  | _ => n

/-- The number of threads asked for last. -/
def threadCount (n : Int) (as : List (Tid × PoolCall φ)) : Int :=
  as.foldl (fun n a => a.2.num n) n

theorem step_num {P : Pthreads} {l l' : PoolLife φ} {a : Tid × PoolCall φ}
    (h : PoolLife.step P l a = .ok l') : l'.pool.threadNum = a.2.num l.pool.threadNum := by
  obtain ⟨_, _, ⟨f, ha, rfl⟩ | ⟨m, ha, _, rfl⟩ | ⟨ha, rfl⟩⟩ := step_cases h <;> rw [ha] <;> rfl

theorem step_started {P : Pthreads} {l l' : PoolLife φ} {a : Tid × PoolCall φ}
    (h : PoolLife.step P l a = .ok l') : l'.pool.started = true ↔ a.2 = .start := by
  obtain ⟨_, hs, ⟨f, ha, rfl⟩ | ⟨m, ha, _, rfl⟩ | ⟨ha, rfl⟩⟩ := step_cases h
  · rw [ha]
    exact ⟨fun h' => (by rw [hs] at h'; cases h'), fun h' => (by cases h')⟩
  · rw [ha]
    exact ⟨fun h' => (by rw [hs] at h'; cases h'), fun h' => (by cases h')⟩
  · exact ⟨fun _ => ha, fun _ => rfl⟩

section Runs

variable {P : Pthreads} {l l' : PoolLife φ} {as : List (Tid × PoolCall φ)}
variable (h : Runs (PoolLife.step P) (fun _ _ => True) l as l')

include h

theorem runs_built (hb : l.Built P) : l'.Built P :=
  h.invariant (fun _ _ _ hb _ hstep => built_step hb hstep) hb

theorem runs_num : l'.pool.threadNum = threadCount l.pool.threadNum as :=
  h.simulate (R := fun l n => l.pool.threadNum = n)
    (fun _ _ _ _ hn _ hstep => by rw [step_num hstep, hn]) rfl

/-- A pool has been started when `start` has been called. -/
theorem runs_started (hs : l.pool.started = false) :
    l'.pool.started = true ↔ PoolCall.start ∈ as.map Prod.snd := by
  induction h with
  | nil s =>
      rw [hs]
      exact ⟨fun h' => (by cases h'), fun h' => (by cases h')⟩
  | cons s s' u a as _ hstep hrest ih =>
      rw [List.map_cons, List.mem_cons]
      by_cases ha : a.2 = .start
      · -- Nothing returns after `start`, so the run is over.
        have hs' : s'.pool.started = true := (step_started hstep).mpr ha
        refine ⟨fun _ => Or.inl ha.symm, fun _ => ?_⟩
        cases hrest with
        | nil => exact hs'
        | cons _ s'' _ b bs _ hstep' _ =>
            have hno := (step_cases hstep').2.1
            rw [hs'] at hno
            cases hno
      · have hs' : s'.pool.started = false := by
          cases hv : s'.pool.started with
          | false => rfl
          | true => exact absurd ((step_started hstep).mp hv) ha
        rw [ih hs']
        exact ⟨Or.inr, fun h' => h'.resolve_left (fun he => ha he.symm)⟩

end Runs

/-! ### What `start` does -/

/-- The threads of a pool with `n` threads are attempted in order up to the
    first failure, and `start` returns whether there was none. -/
structure PoolLife.StartsInOrder (P : Pthreads) (n : Nat) (l : PoolLife φ) : Prop where
  /-- The `i`-th call of `pthread_create` is for the `i`-th thread. -/
  order : ∀ i c, l.calls[i]? = some c → c = (i, P.create i)
  most : l.calls.length ≤ n
  goesOn : ∀ i, i + 1 < l.calls.length → (P.create i).ok = true
  stops : l.calls.length < n → ∃ i, i + 1 = l.calls.length ∧ ¬ (P.create i).ok = true
  returned : ∃ b, l.returned = some b ∧ (b = true ↔ l.created.length = n)

section Built

variable {P : Pthreads} {l : PoolLife φ}

/-- The calls `start` has made. -/
theorem PoolLife.Built.calls_eq (hb : l.Built P) (hs : l.pool.started = true) :
    l.calls = attempts callOk (asked P.create 0 l.pool.threadNum.toNat) := by
  obtain ⟨s, hs, _, hc, _⟩ := hb.after hs
  rw [hc, hs, startThreads_calls, List.length_replicate]

/-- The threads that were created are those before the first failure. -/
theorem PoolLife.Built.created_eq (hb : l.Built P) (hs : l.pool.started = true) :
    l.created
      = ((asked P.create 0 l.pool.threadNum.toNat).takeWhile callOk).map (fun c => c.2.id) := by
  rw [PoolLife.created, hb.calls_eq hs, attempts_filter]

theorem PoolLife.Built.created_length_iff (hb : l.Built P) (hs : l.pool.started = true) :
    l.created.length = l.pool.threadNum.toNat ↔
      ∀ i < l.pool.threadNum.toNat, (P.create i).ok = true := by
  rw [hb.created_eq hs, List.length_map, ← all_asked_iff, ← length_takeWhile_iff, asked_length]

theorem PoolLife.Built.created_nodup (hb : l.Built P) (hs : l.pool.started = true) :
    l.created.Nodup := by
  rw [hb.created_eq hs]
  have hpre := List.takeWhile_prefix callOk (l := asked P.create 0 l.pool.threadNum.toNat)
  apply List.Nodup.map_on
  · intro x hx y hy hxy
    obtain ⟨i, _, rfl⟩ := List.mem_map.mp (hpre.subset hx)
    obtain ⟨j, _, rfl⟩ := List.mem_map.mp (hpre.subset hy)
    -- Both were created, so the same id is the same thread.
    have hi : callOk (i, P.create i) = true := List.mem_takeWhile_imp hx
    have hj : callOk (j, P.create j) = true := List.mem_takeWhile_imp hy
    rw [P.distinct i j hi hj hxy]
  · refine List.Nodup.sublist hpre.sublist (List.Nodup.map ?_ (List.nodup_range' 1))
    intro i j hij
    exact congrArg Prod.fst hij

/-- The threads are started in order. -/
theorem PoolLife.Built.startsInOrder (hb : l.Built P) (hs : l.pool.started = true) :
    l.StartsInOrder P l.pool.threadNum.toNat := by
  have hcalls := hb.calls_eq hs
  have hpre := attempts_isPrefix callOk (asked P.create 0 l.pool.threadNum.toNat)
  rw [← hcalls] at hpre
  have hlen : l.calls.length ≤ l.pool.threadNum.toNat := by
    have hle := hpre.length_le
    rwa [asked_length] at hle
  refine ⟨?_, hlen, ?_, ?_, ?_⟩
  · intro i c hc
    obtain ⟨hi, _⟩ := List.getElem?_eq_some_iff.mp hc
    obtain ⟨rest, hrest⟩ := hpre
    have hget : (asked P.create 0 l.pool.threadNum.toNat)[i]? = some c := by
      rw [← hrest, List.getElem?_append_left hi, hc]
    rw [asked_get (by omega)] at hget
    injection hget with hget
    exact hget.symm
  · intro i hi
    rw [hcalls] at hi
    exact attempts_goes_on callOk hi (asked_get (by rw [← hcalls] at hi; omega))
  · intro hlt
    rw [hcalls] at hlt ⊢
    obtain ⟨i, c, hi, hc, hf⟩ := attempts_stops callOk (by rw [asked_length]; exact hlt)
    rw [asked_get (by omega)] at hc
    injection hc with hc
    subst hc
    exact ⟨i, hi, hf⟩
  · obtain ⟨s, hs, _, hc, hr⟩ := hb.after hs
    refine ⟨_, hr, ?_⟩
    have hcount : s.count = l.created.length := by
      rw [PoolLife.created, List.length_map, hc, hs, startThreads_count]
    have hnum := hb.num
    rw [decide_eq_true_iff, hcount]
    omega

/-- What is in `threads_` begins with the threads that were created. -/
theorem PoolLife.Built.created_isPrefix (hb : l.Built P) (hs : l.pool.started = true) :
    l.created <+: l.pool.threads.map Thread.threadId := by
  obtain ⟨s, hs, ht, hc, _⟩ := hb.after hs
  rw [PoolLife.created, ht, hc, hs]
  exact startThreads_ids _ _ _

theorem PoolLife.Built.threads_length (hb : l.Built P) (hs : l.pool.started = true) :
    (l.pool.threads.map Thread.threadId).length = l.pool.threadNum.toNat := by
  obtain ⟨s, hs, ht, _, _⟩ := hb.after hs
  rw [List.length_map, ht, hs, startThreads_length, List.length_replicate]

/-- The destructor of a pool that has been started settles what was created
    exactly if everything was. -/
theorem PoolLife.Built.settles_iff (hb : l.Built P) (hs : l.pool.started = true) :
    (∀ join, Settles l.created (l.pool.destroy join).joined
      ((l.pool.destroy join).returns = true)) ↔
      ∀ i < l.pool.threadNum.toNat, (P.create i).ok = true := by
  have hd : ∀ join, l.pool.destroy join = joinThreads join 0 l.pool.threads := by
    intro join
    rw [ThreadPool.destroy, hs]
    rfl
  have hpre := hb.created_isPrefix hs
  rw [← hb.created_length_iff hs, ← hb.threads_length hs]
  constructor
  · intro h
    -- With joins that all return, every thread in `threads_` is joined.
    have hset := h (fun _ => some 0)
    rw [hd, joinThreads_through (joinThreads_all (fun _ => rfl) 0 _)] at hset
    by_contra hne
    have hle := hpre.length_le
    exact not_settles_of_length (by omega) hset
  · intro h join
    have heq : l.created = l.pool.threads.map Thread.threadId := hpre.eq_of_length h
    rw [hd, heq]
    refine settles_of_isPrefix ?_ (joinThreads_isPrefix _ _ _) joinThreads_through
    rw [← heq]
    exact hb.created_nodup hs

/-- The destructor of a pool that has not been started joins nothing. -/
theorem PoolLife.Built.settles_unstarted (hb : l.Built P) (hs : l.pool.started = false)
    (join : Nat → Option Nat) :
    Settles l.created (l.pool.destroy join).joined ((l.pool.destroy join).returns = true) := by
  have hc : l.created = [] := by
    rw [PoolLife.created, (hb.before hs).2.1]
    rfl
  rw [hc, ThreadPool.destroy, hs]
  exact settles_of_isPrefix List.nodup_nil (List.prefix_refl _) (fun _ => rfl)

end Built

/-- In every life of a pool the threads are started in order, up to the first
    failure. The destructor joins every thread that was created once and no
    other, however long the joins take, exactly if `start` was not called or
    nothing failed. -/
theorem joins_created_iff (P : Pthreads) (t : Tid) (n : Int) (func : Option φ)
    {p : ThreadPool φ} {as : List (Tid × PoolCall φ)} {l : PoolLife φ}
    (hp : ThreadPool.construct t n func = .ok p)
    (hrun : Runs (PoolLife.step P) (fun _ _ => True) (.begin p) as l) :
    (PoolCall.start ∈ as.map Prod.snd → l.StartsInOrder P (threadCount n as).toNat) ∧
    (PoolCall.start ∉ as.map Prod.snd → l.calls = [] ∧ l.returned = none) ∧
    ((∀ join, Settles l.created (l.pool.destroy join).joined
        ((l.pool.destroy join).returns = true)) ↔
      PoolCall.start ∉ as.map Prod.snd ∨
        ∀ i < (threadCount n as).toNat, (P.create i).ok = true) := by
  obtain ⟨hb, hn, hs⟩ := begin_built (P := P) hp
  have hb' := runs_built hrun hb
  have hnum : l.pool.threadNum = threadCount n as := by
    rw [runs_num hrun, ← hn]
    rfl
  have hstart := runs_started hrun hs
  rw [← hnum, ← hstart]
  refine ⟨hb'.startsInOrder, fun hno => (hb'.before (Bool.eq_false_iff.mpr hno)).2, ?_⟩
  cases hv : l.pool.started with
  | false =>
      exact ⟨fun _ => Or.inl Bool.false_ne_true, fun _ => hb'.settles_unstarted hv⟩
  | true =>
      rw [hb'.settles_iff hv]
      exact ⟨Or.inr, fun h => h.resolve_left (fun hno => hno rfl)⟩

/-- No call of `pthread_create` fails. -/
def noneFails : Pthreads where
  create i := { rc := 0, id := 100 + i }
  distinct := by
    intro i j _ _ h
    exact Nat.add_left_cancel h

/-- A pool made for no threads, which is then given three. -/
theorem joins_created_iff_three :
    let p : ThreadPool Unit := ⟨0, [], none, 1, false⟩
    let as : List (Tid × PoolCall Unit) := [(1, .updateThreadNum 3), (1, .start)]
    let l := after (PoolLife.step noneFails) (.begin p) as
    l.StartsInOrder noneFails 3 ∧
      ∀ join, Settles l.created (l.pool.destroy join).joined
        ((l.pool.destroy join).returns = true) := by
  intro p as l
  have hrun : Runs (PoolLife.step noneFails) (fun _ _ => True) (.begin p) as l :=
    Checks.runs (by decide)
  have h := joins_created_iff noneFails 1 0 none rfl hrun
  exact ⟨h.1 (by decide), h.2.2.mpr (Or.inr (fun _ _ => rfl))⟩

/-- The second call of `pthread_create` fails for want of resources. -/
def secondFails : Pthreads where
  create i := if i = 1 then { rc := 11, id := 0 } else { rc := 0, id := 100 + i }
  distinct := by
    intro i j hi hj h
    by_cases h1 : i = 1
    · subst h1
      cases hi
    · by_cases h2 : j = 1
      · subst h2
        cases hj
      · rw [if_neg h1, if_neg h2] at h
        exact Nat.add_left_cancel h

/-- Of three threads one is created; the destructor calls `pthread_join` with
    the id of that and twice with zero, which is no thread. -/
theorem unset_id_joined :
    ∃ (p : ThreadPool Unit) (l : PoolLife Unit), ThreadPool.construct 1 3 (some ()) = .ok p ∧
      PoolLife.step secondFails (.begin p) (1, .start) = .ok l ∧
      l.returned = some false ∧ l.created = [100] ∧
      (l.pool.destroy (fun _ => some 0)).joined = [100, 0, 0] ∧
      ¬ ∀ join, Settles l.created (l.pool.destroy join).joined
        ((l.pool.destroy join).returns = true) := by
  refine ⟨_, _, rfl, rfl, rfl, rfl, rfl, fun h => ?_⟩
  exact not_settles_of_length (by decide) (h (fun _ => some 0))

end Fasco
