import Fasco.Core.Stack

/-!
# The Pool of Threads

`ThreadPool.cpp`, and what it uses of `Thread.cpp`: a number of threads that
all execute one function, started together and joined by the destructor.

What `pthread_create` and `pthread_join` do is an input. A call of
`pthread_create` returns an error number, zero for none, and leaves something
in the id it has the address of also when it fails; what that is POSIX does
not say. A call of `pthread_join` returns when the thread has ended, which may
be never.

`curThreadNum_` and `name_` are not read anywhere. They are left out, and so
are `errno` and the log.

## Main definitions

* `Creation`, `Pthreads`: What `pthread_create` answers.
* `Thread`, `Thread.start`, `Thread.join`: A thread.
* `ThreadPool`: The pool.
* `startThreads`: The loop in `start`.
* `joinThreads`: The loop in the destructor.
* `PoolLife`, `PoolLife.step`: The calls a pool gets between the constructor
  and the destructor.
-/

namespace Fasco

/-- `pthread_t`. -/
abbrev PthreadId := Nat

/-- The result of a call of `pthread_create`, and what is then in the id. -/
structure Creation where
  rc : Nat
  id : PthreadId
  deriving DecidableEq, Repr

def Creation.ok (c : Creation) : Bool := decide (c.rc = 0)

/-- Whether a call succeeded, given with the position of its thread. -/
def callOk (c : Nat × Creation) : Bool := c.2.ok

/-- What the calls of `pthread_create` answer, in the order in which a pool
    makes them. Threads that have not been joined have different ids. -/
structure Pthreads where
  create : Nat → Creation
  distinct : ∀ i j, (create i).ok = true → (create j).ok = true → (create i).id = (create j).id →
    i = j

/-- `class Thread`. A `boost::function<void ()>` may be empty. -/
structure Thread (φ : Type) where
  threadId : PthreadId
  threadFunc : Option φ
  deriving DecidableEq, Repr

namespace Thread

variable {φ : Type}

/-- The constructor. -/
def construct (threadFunc : Option φ) : Thread φ := { threadId := 0, threadFunc := threadFunc }

/-- `start`, when `pthread_create` answers `c`. -/
def start (th : Thread φ) (c : Creation) : Thread φ × Bool :=
  let th := { th with threadId := c.id }
  if c.rc ≠ 0 then (th, false) else (th, true)

/-- `join`: the id `pthread_join` is called with; and, if that returns `rc`,
    what `join` returns. -/
def join (th : Thread φ) (rc : Option Nat) : PthreadId × Option Bool :=
  (th.threadId, rc.map (fun rc => if rc ≠ 0 then false else true))

end Thread

/-- `class ThreadPool`. -/
structure ThreadPool (φ : Type) where
  threadNum : Int
  threads : List (Thread φ)
  threadFunc : Option φ
  tid : Tid
  started : Bool
  deriving DecidableEq, Repr

/-- What the loop in `start` leaves: the threads, `count`, and the calls of
    `pthread_create`, each with the position of its thread in `threads_`. -/
structure Started (φ : Type) where
  threads : List (Thread φ)
  count : Nat
  calls : List (Nat × Creation)

/-- The loop in `start`, from the thread at position `i` on. -/
def startThreads {φ : Type} (create : Nat → Creation) : Nat → List (Thread φ) → Started φ
  | _, [] => { threads := [], count := 0, calls := [] }
  | i, th :: ths =>
    let r := th.start (create i)
    if r.2 then
      let s := startThreads create (i + 1) ths
      { threads := r.1 :: s.threads, count := s.count + 1, calls := (i, create i) :: s.calls }
    -- The first failure ends the loop; the threads after it are never started.
    else { threads := r.1 :: ths, count := 0, calls := [(i, create i)] }

/-- What the destructor does: the ids `pthread_join` is called with, and
    whether all those calls return. -/
structure Destroyed where
  joined : List PthreadId
  returns : Bool
  deriving DecidableEq, Repr

/-- The loop in the destructor, from the `i`-th call of `pthread_join` on. -/
def joinThreads {φ : Type} (join : Nat → Option Nat) : Nat → List (Thread φ) → Destroyed
  | _, [] => { joined := [], returns := true }
  | i, th :: ths =>
    let r := th.join (join i)
    match r.2 with
    -- A call that does not return is the last one.
    | none => { joined := [r.1], returns := false }
    | some _ =>
      let d := joinThreads join (i + 1) ths
      { joined := r.1 :: d.joined, returns := d.returns }

namespace ThreadPool

variable {φ : Type}

/-- The constructor, on thread `t`. -/
def construct (t : Tid) (threadNum : Int) (func : Option φ) : Except Fault (ThreadPool φ) :=
  if 0 ≤ threadNum then
    .ok { threadNum := threadNum, threads := [], threadFunc := func, tid := t, started := false }
  else .error .assertion

def assertInOwnerThread (p : ThreadPool φ) (t : Tid) : Except Fault Unit :=
  if t = p.tid then .ok () else .error .assertion

/-- `assert(!started_)`. -/
def assertNotStarted (p : ThreadPool φ) : Except Fault Unit :=
  if !p.started then .ok () else .error .assertion

def updateThreadFunc (p : ThreadPool φ) (t : Tid) (func : Option φ) :
    Except Fault (ThreadPool φ) := do
  p.assertInOwnerThread t
  p.assertNotStarted
  .ok { p with threadFunc := func }

def updateThreadNum (p : ThreadPool φ) (t : Tid) (newNum : Int) : Except Fault (ThreadPool φ) := do
  p.assertInOwnerThread t
  p.assertNotStarted
  if 0 ≤ newNum then .ok { p with threadNum := newNum } else .error .assertion

/-- `start` on thread `t`, with the calls of `pthread_create` it makes and
    what it returns. -/
def start (P : Pthreads) (p : ThreadPool φ) (t : Tid) :
    Except Fault (ThreadPool φ × List (Nat × Creation) × Bool) := do
  p.assertInOwnerThread t
  p.assertNotStarted
  let threads := p.threads ++ List.replicate p.threadNum.toNat (Thread.construct p.threadFunc)
  let s := startThreads P.create 0 threads
  -- `started_` is set however many threads there are.
  .ok ({ p with threads := s.threads, started := true }, s.calls,
    if (s.count : Int) ≠ p.threadNum then false else true)

/-- The destructor, when the `i`-th call of `pthread_join` returns `join i`. -/
def destroy (p : ThreadPool φ) (join : Nat → Option Nat) : Destroyed :=
  -- Every `Thread` is joined, also those whose creation failed or was not tried.
  if p.started then joinThreads join 0 p.threads else { joined := [], returns := true }

end ThreadPool

/-- A call between the constructor and the destructor. -/
inductive PoolCall (φ : Type) where
  | updateThreadFunc (func : Option φ)
  | updateThreadNum (newNum : Int)
  | start
  deriving DecidableEq, Repr

/-- A pool, the calls of `pthread_create` it has made, and what `start` has
    returned. -/
structure PoolLife (φ : Type) where
  pool : ThreadPool φ
  calls : List (Nat × Creation)
  returned : Option Bool

namespace PoolLife

variable {φ : Type}

/-- After the constructor. -/
def begin (p : ThreadPool φ) : PoolLife φ := { pool := p, calls := [], returned := none }

/-- A call on a thread. -/
def step (P : Pthreads) (l : PoolLife φ) (a : Tid × PoolCall φ) : Except Fault (PoolLife φ) :=
  match a.2 with
  | .updateThreadFunc func => do
    let p ← l.pool.updateThreadFunc a.1 func
    .ok { l with pool := p }
  | .updateThreadNum newNum => do
    let p ← l.pool.updateThreadNum a.1 newNum
    .ok { l with pool := p }
  | .start => do
    let r ← l.pool.start P a.1
    .ok { pool := r.1, calls := l.calls ++ r.2.1, returned := some r.2.2 }

/-- The threads whose creation succeeded. -/
def created (l : PoolLife φ) : List PthreadId :=
  (l.calls.filter callOk).map (fun c => c.2.id)

end PoolLife

end Fasco
