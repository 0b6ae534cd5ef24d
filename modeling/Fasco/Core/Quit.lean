import Mathlib.Order.Basic
import Fasco.Core.Poll

/-!
# A Loop That Is Told to Quit

`EventLoop::loop`, `quit` and `updateEvents` of one loop, interleaved. The
thread that runs the loop is a parameter; its program counter is part of the
state. Every other thread can call `quit` and `updateEvents` at any time, and
so can the loop's own thread where it runs other code: before and after
`loop`, and in the coroutines it resumes while it goes through what
`epoll_wait` has reported.

A call of `quit` or `updateEvents` is one step, and so is each of the places
where the loop reads shared state: the assertion on entry, the test of
`quit_`, the return of `epoll_wait`, and each reported event.

The `eventfd` counts what is written to it and is set to 0 by a read. It does
not block: a write that would take it over its maximum and a read of 0 fail,
which the program logs and ignores. What `epoll_wait` returns is an input; it
reports the `eventfd` only while its counter is positive. It also returns
without events, after its timeout or with an error.

## Main definitions

* `Counter`: The counter of an `eventfd`.
* `LoopPc`: Where the thread of the loop is.
* `WakeLoop`: The loop, its `eventfd` and its thread.
* `WakeLoop.quit`, `WakeLoop.updateEvents`: The calls of any thread.
* `WakeLoop.handle`: The body of the `for` in `loop`.
* `LoopOp`, `WakeLoop.step`: One atomic step of any thread.
* `WakeLoop.Admits`: What a thread can do next.
* `WakeLoop.Blocked`: In `epoll_wait`, with nothing written to the `eventfd`.
-/

namespace Fasco

/-- The largest value of an `eventfd`. -/
def counterMax : Nat := 2 ^ 64 - 2

/-- The counter of an `eventfd`. -/
structure Counter where
  val : Nat
  le_max : val ≤ counterMax

namespace Counter

def zero : Counter := ⟨0, Nat.zero_le _⟩

/-- `write(fd, &one, sizeof one)`. A write that does not fit fails. -/
def write (c : Counter) : Counter :=
  if h : c.val + 1 ≤ counterMax then ⟨c.val + 1, h⟩ else c

/-- `read(fd, &one, sizeof one)`, which fails on 0. -/
def read (_ : Counter) : Counter := zero

/-- A counter is positive after a write, whether or not the write succeeds. -/
theorem write_pos (c : Counter) : 0 < c.write.val := by
  unfold write
  by_cases h : c.val + 1 ≤ counterMax
  · rw [dif_pos h]
    exact Nat.succ_pos _
  · -- The write fails only on a counter that is already at its maximum.
    rw [dif_neg h]
    have hmax : 0 < counterMax := by decide
    omega

end Counter

/-- Where the thread of the loop is. -/
inductive LoopPc where
  /-- Before the call of `loop`. -/
  | start
  /-- At `while (!quit_)`. -/
  | test
  /-- In `epoll_wait`. -/
  | wait
  /-- In the `for`, with the entries that are left. -/
  | handle (occur : List (Fd × UInt32))
  /-- After the return of `loop`. -/
  | returned
  deriving DecidableEq, Repr

namespace LoopPc

/-- In the `for`. -/
def Handling : LoopPc → Prop
  | .handle _ => True
  | _ => False

/-- The loop is not running. -/
def Idle (pc : LoopPc) : Prop := pc = .start ∨ pc = .returned

/-- The thread of the loop runs code that is not the loop's. -/
def Outside (pc : LoopPc) : Prop := pc.Idle ∨ pc.Handling

instance (pc : LoopPc) : Decidable pc.Handling :=
  match pc with
  | .handle _ => isTrue trivial
  | .start | .test | .wait | .returned => isFalse id

instance (pc : LoopPc) : Decidable pc.Idle := inferInstanceAs (Decidable (_ ∨ _))

instance (pc : LoopPc) : Decidable pc.Outside := inferInstanceAs (Decidable (_ ∨ _))

end LoopPc

/-- `class EventLoop` with what its calls share: the table and the epoll set,
    `wakeFd_` and its counter, `tid_`, `quit_`, and the thread that runs
    `loop`. -/
structure WakeLoop where
  watch : Watch
  wakeFd : Fd
  counter : Counter
  tid : Tid
  quit_ : Bool
  pc : LoopPc

namespace WakeLoop

def wakeupLoop (s : WakeLoop) : WakeLoop := { s with counter := s.counter.write }

/-- `HandleWake`. -/
def handleWake (s : WakeLoop) : WakeLoop := { s with counter := s.counter.read }

/-- `EventLoop::resetOwnerTid` on thread `t`. -/
def resetOwnerTid (s : WakeLoop) (t : Tid) : WakeLoop := { s with tid := t }

/-- `EventLoop::assertInOwnerThread` on thread `t`. -/
def assertInOwnerThread (s : WakeLoop) (t : Tid) : Except Fault Unit :=
  if t = s.tid then .ok () else .error .assertion

/-- `EventLoop::quit` on thread `t`. -/
def quit (s : WakeLoop) (t : Tid) : WakeLoop :=
  let s := { s with quit_ := true }
  -- The owner is past `epoll_wait` when it calls this, so it wakes nobody.
  if s.tid = t then s else s.wakeupLoop

/-- `EventLoop::updateEvents`. -/
def updateEvents (s : WakeLoop) (e : EvRef) (ok : Bool) : Except Fault WakeLoop :=
  match s.watch.obj e with
  | none => .error .badPointer
  | some o =>
    if o.invaild then .ok s
    else do
      -- The wake-up is written before the table is changed; the lock is held for both.
      let s := s.wakeupLoop
      let r ← s.watch.pollUpdate .debug e ok
      .ok { s with watch := r.1 }

/-- The body of the `for` in `EventLoop::loop`, up to the resume of the
    coroutine, whose code follows in steps of its own. -/
def handle (s : WakeLoop) (fd : Fd) (event : UInt32) : Except Fault WakeLoop :=
  match s.watch.events fd with
  | none => .ok s
  | some e =>
    match s.watch.obj e with
    | none => .error .badPointer
    | some o =>
      let h := (o.setMutable event).eventHandleAble
      let s := { s with watch := { s.watch with obj := Function.update s.watch.obj e (some h.2) } }
      if !h.1 then .ok s
      -- Only an event that the test lets through empties the counter.
      else if s.wakeFd = h.2.fd then .ok s.handleWake
      else .ok s

/-- The constructor, on thread `t`, with the descriptor and the object made for
    the wake-up. -/
def construct (obj : EvRef → Option Events) (t : Tid) (created : Bool) (wakeFd : Fd)
    (wakeEvent : EvRef) (ok : Bool) : Except Fault WakeLoop :=
  updateEvents
    { watch :=
        { events := fun _ => none
          interest := fun _ => none
          created := created
          obj := Function.update obj wakeEvent (some (Events.make wakeFd kReadEvent t)) }
      wakeFd := wakeFd
      counter := .zero
      tid := t
      quit_ := false
      pc := .start }
    wakeEvent ok

end WakeLoop

/-- One atomic step. -/
inductive LoopOp where
  | resetOwnerTid
  /-- The call of `loop`. -/
  | enter
  /-- `while (!quit_)`. -/
  | test
  /-- `epoll_wait` returns. -/
  | report (occur : List (Fd × UInt32))
  /-- The next reported event, or the end of the `for`. -/
  | next
  /-- `quit` on thread `u`. -/
  | quit (u : Tid)
  /-- `updateEvents` on thread `u`. -/
  | update (u : Tid) (e : EvRef) (ok : Bool)
  /-- Thread `u` makes or changes an `Events` object. -/
  | call (u : Tid) (e : EvRef) (m : EventsCall)
  | make (u : Tid) (e : EvRef) (fd : Fd) (events : UInt32)
  deriving DecidableEq, Repr

namespace WakeLoop

/-- One step, `ℓ` being the thread that runs the loop. -/
def step (ℓ : Tid) (s : WakeLoop) : LoopOp → Except Fault WakeLoop
  | .resetOwnerTid => .ok (s.resetOwnerTid ℓ)
  | .enter => do
    s.assertInOwnerThread ℓ
    .ok { s with pc := .test }
  | .test => .ok { s with pc := if s.quit_ then .returned else .wait }
  | .report occur => .ok { s with pc := .handle occur }
  | .next =>
    match s.pc with
    -- The end of the `for`.
    | .handle [] => .ok { s with pc := .test }
    | .handle (p :: occur) => { s with pc := .handle occur }.handle p.1 p.2
    | _ => .ok s
  | .quit u => .ok (s.quit u)
  | .update _ e ok => s.updateEvents e ok
  | .call _ e m => do
    let r ← s.watch.step .debug (.call e m)
    .ok { s with watch := r.1 }
  | .make u e fd events => do
    let r ← s.watch.step .debug (.make e fd events u)
    .ok { s with watch := r.1 }

/-- What can happen next: the thread of the loop follows its program, the
    others do as they like, and `epoll_wait` reports the `eventfd` only while
    it can be read. -/
def Admits (ℓ : Tid) (s : WakeLoop) : LoopOp → Prop
  | .resetOwnerTid => s.pc.Idle
  | .enter => s.pc.Idle
  | .test => s.pc = .test
  | .report occur => s.pc = .wait ∧ ∀ p ∈ occur, p.1 = s.wakeFd → 0 < s.counter.val
  | .next => s.pc.Handling
  | .quit u => u = ℓ → s.pc.Outside
  | .update u _ _ => u = ℓ → s.pc.Outside
  | .call u _ _ => u = ℓ → s.pc.Outside
  | .make u _ _ _ => u = ℓ → s.pc.Outside

instance (ℓ : Tid) (s : WakeLoop) : ∀ a, Decidable (s.Admits ℓ a)
  | .resetOwnerTid | .enter => inferInstanceAs (Decidable s.pc.Idle)
  | .next => inferInstanceAs (Decidable s.pc.Handling)
  | .test => inferInstanceAs (Decidable (_ = _))
  | .report _ => inferInstanceAs (Decidable (_ ∧ _))
  | .quit _ | .update _ _ _ | .call _ _ _ | .make _ _ _ _ => inferInstanceAs (Decidable (_ → _))

/-- The thread of the loop is in `epoll_wait`, and nothing has been written to
    the `eventfd` since its counter was read last. -/
def Blocked (s : WakeLoop) : Prop := s.pc = .wait ∧ s.counter.val = 0

end WakeLoop

end Fasco
