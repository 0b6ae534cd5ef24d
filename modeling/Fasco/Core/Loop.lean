import Mathlib.Logic.Function.Basic
import Fasco.Core.Events

/-!
# Event Loops and Coroutine Pools

`EventLoop.cpp`, `Epoll.cpp`, `Eventsops.h`, `McoPool.cpp` and the registry of
`EventLoopPool.cpp`: which descriptors a thread's loop watches, which coroutine
waits for which descriptor, and the shared `Events` objects the loops' tables
and the code in between hold.

An `Events` object closes its descriptor when its last `shared_ptr` goes
(`~Events`), so the number of pointers is part of the state, kept as
`shared_ptr` keeps it. New objects get numbers that have not been used; no
pointer outlives its object, so addresses used twice would look the same. A
`Continuation` is its coroutine.

The kernel's part is the set of open descriptors and, for every loop, the set
of descriptors its epoll instance watches with the events asked for. Whether
an `epoll_ctl` succeeds is an input of the call, but adding needs an open
descriptor that is not watched, and changing and removing need one that is.
Closing a descriptor takes it out of every set. The remaining fields of
`Kernel` are no state of the program or the kernel: they count the openings of
each number, and what has been done with each.

Assertions are compiled in, `assert(events_.erase(..))` with its effect. The
`eventfd` a loop is woken with is in its table like any other descriptor; it
does not block, and what is written to it is not modelled, nor are the fields
`pollDelta_` and `type_`, the mutex and the log.

## Main definitions

* `Abort`: How a call ends when it does not return.
* `Kernel`: Descriptors and epoll sets, and the record of the openings.
* `EventLoop`, `McoPool`: The two tables of a thread.
* `Io`: The tables of all threads, the `Events` objects and the kernel.
* `Io.newEvents`, `Io.share`, `Io.release`: The life of an object.
* `Io.pollUpdate`, `Io.updateLoopEvents`, `Io.removeEventFromLoop`: Changing
  what a loop watches.
* `Io.loopEntry`: What `EventLoop::loop` makes of one reported event.
-/

namespace Fasco

/-- `Events` objects, in the order they were made. -/
abbrev EvRef := Nat

/-- How a call ends when it does not return. -/
inductive Abort where
  /-- `assert(mco == McoPool::GetCurMco())` in `read` and `accept`. -/
  | notCurMco
  /-- `assert(iter == events_.end())` in `pollUpdate`. -/
  | newInTable
  /-- `assert(events_.erase(event->getFd()))` in `pollUpdate`. -/
  | notInTable
  /-- `assert(false)` in `RemoveEventFromLoop`. -/
  | noLoop
  /-- A null or dangling pointer is used. -/
  | badPointer
  /-- A coroutine operation does not return. -/
  | mco (f : Fault)
  deriving DecidableEq, Repr

/-- One entry of what `epoll_wait` returns, with the opening of the descriptor
    it is about. -/
structure PollerEvent where
  fd : Fd
  event : UInt32
  opening : Nat
  deriving DecidableEq, Repr

/-- Descriptors and epoll sets. `opening` counts how often a number has been
    opened; `requested` and `closedCount` tell for each opening whether the
    program has called `close` and how often `uni_close` has been called;
    `user` is the coroutine that has called `read` or `accept` on the current
    opening last. -/
structure Kernel where
  isOpen : Fd → Bool
  nonblock : Fd → Bool
  interest : Tid → Fd → Option UInt32
  opening : Fd → Nat
  requested : Fd → Nat → Bool
  closedCount : Fd → Nat → Nat
  user : Fd → Option McoRef

namespace Kernel

/-- `O_NONBLOCK & fcntl(fd, F_GETFL)`. On a bad descriptor the call returns
    -1, which has the bit set. -/
def nonblocking (k : Kernel) (fd : Fd) : Bool := !k.isOpen fd || k.nonblock fd

def setInterest (k : Kernel) (t : Tid) (fd : Fd) (i : Option UInt32) : Kernel :=
  { k with interest := Function.update k.interest t (Function.update (k.interest t) fd i) }

/-- `EPOLL_CTL_ADD`, which succeeds if `ok` and it can. -/
def eventAdd (k : Kernel) (t : Tid) (fd : Fd) (events : UInt32) (ok : Bool) : Kernel × Bool :=
  if ok && k.isOpen fd && (k.interest t fd).isNone then
    (k.setInterest t fd (some events), true)
  else (k, false)

/-- `EPOLL_CTL_MOD`. -/
def eventMod (k : Kernel) (t : Tid) (fd : Fd) (events : UInt32) (ok : Bool) : Kernel × Bool :=
  if ok && (k.interest t fd).isSome then (k.setInterest t fd (some events), true)
  else (k, false)

/-- `EPOLL_CTL_DEL`. -/
def eventDel (k : Kernel) (t : Tid) (fd : Fd) (ok : Bool) : Kernel × Bool :=
  if ok && (k.interest t fd).isSome then (k.setInterest t fd none, true)
  else (k, false)

/-- A system call returns a descriptor it has opened. -/
def openFd (k : Kernel) (fd : Fd) (nonblock : Bool) : Kernel :=
  { k with
    isOpen := Function.update k.isOpen fd true
    nonblock := Function.update k.nonblock fd nonblock
    opening := Function.update k.opening fd (k.opening fd + 1)
    user := Function.update k.user fd none }

/-- `uni_close`. -/
def uniClose (k : Kernel) (fd : Fd) : Kernel :=
  { k with
    isOpen := Function.update k.isOpen fd false
    interest := fun t => Function.update (k.interest t) fd none
    closedCount := Function.update k.closedCount fd
      (Function.update (k.closedCount fd) (k.opening fd) (k.closedCount fd (k.opening fd) + 1)) }

/-- The program asks for the current opening of `fd` to be closed. -/
def request (k : Kernel) (fd : Fd) : Kernel :=
  { k with
    requested := Function.update k.requested fd
      (Function.update (k.requested fd) (k.opening fd) true) }

/-- The coroutine `c` reads from or accepts on `fd`. -/
def use (k : Kernel) (fd : Fd) (c : McoRef) : Kernel :=
  { k with user := Function.update k.user fd (some c) }

end Kernel

/-- `class EventLoop`: the table, and the `eventfd` with its object. `tid_` is
    the thread the loop is registered for. -/
structure EventLoop where
  events : Fd → Option EvRef
  wakeFd : Fd
  wakeEvent : EvRef

/-- `class McoPool`. -/
structure McoPool where
  cur : Option McoRef
  fdMcos : Fd → Option McoRef

/-- An `Events` object and the number of `shared_ptr`s to it. -/
structure EventsCell where
  obj : Events
  useCount : Nat
  deriving DecidableEq, Repr

/-- The pools and the registered loops of all threads, the `Events` objects,
    and the kernel. -/
structure Io where
  hookable : Bool
  pool : Tid → McoPool
  loop : Tid → Option EventLoop
  ev : EvRef → Option EventsCell
  nextEv : EvRef
  kern : Kernel

namespace Io

/-! ### `McoPool` -/

def getMcoRoutine (s : Io) (t : Tid) (fd : Fd) : Option McoRef := (s.pool t).fdMcos fd

def getCurMco (s : Io) (t : Tid) : Option McoRef := (s.pool t).cur

def setMcoRoutine (s : Io) (t : Tid) (fd : Fd) (c : McoRef) : Io :=
  { s with
    pool := Function.update s.pool t
      { s.pool t with fdMcos := Function.update (s.pool t).fdMcos fd (some c) } }

def removeMcoRoutine (s : Io) (t : Tid) (fd : Fd) : Io :=
  { s with
    pool := Function.update s.pool t
      { s.pool t with fdMcos := Function.update (s.pool t).fdMcos fd none } }

def setCurMco (s : Io) (t : Tid) (c : Option McoRef) : Io :=
  { s with pool := Function.update s.pool t { s.pool t with cur := c } }

/-! ### `Events` objects -/

def setEv (s : Io) (e : EvRef) (c : Option EventsCell) : Io :=
  { s with ev := Function.update s.ev e c }

/-- `boost::make_shared<Events>(fd, events)` on thread `t`; the pointer
    returned is the only one. -/
def newEvents (s : Io) (t : Tid) (fd : Fd) (events : UInt32) : Io × EvRef :=
  ({ s with
      ev := Function.update s.ev s.nextEv (some { obj := Events.make fd events t, useCount := 1 })
      nextEv := s.nextEv + 1 }, s.nextEv)

/-- A method call that changes the object. -/
def modifyEvents (s : Io) (e : EvRef) (g : Events → Events) : Except Abort Io :=
  match s.ev e with
  | none => .error .badPointer
  | some c => .ok (s.setEv e (some { c with obj := g c.obj }))

/-- A `shared_ptr` is copied. -/
def share (s : Io) (e : EvRef) : Except Abort Io :=
  match s.ev e with
  | none => .error .badPointer
  | some c => .ok (s.setEv e (some { c with useCount := c.useCount + 1 }))

/-- A `shared_ptr` goes; with the last one the object, whose destructor
    calls `uni_close`. -/
def release (s : Io) (e : EvRef) : Except Abort Io :=
  match s.ev e with
  | none => .error .badPointer
  | some c =>
    if c.useCount ≤ 1 then
      -- `~Events` closes the number it was made with, whatever is open under it now.
      .ok { s.setEv e none with kern := s.kern.uniClose c.obj.fd }
    else .ok (s.setEv e (some { c with useCount := c.useCount - 1 }))

/-! ### `EventLoop` -/

/-- `events_[fd] = e`, or `events_.erase(fd)`. -/
def setTable (s : Io) (t : Tid) (l : EventLoop) (fd : Fd) (e : Option EvRef) : Io :=
  { s with
    loop := Function.update s.loop t
      (some { l with events := Function.update l.events fd e }) }

/-- `EventLoop::getEvents` through `Eventsops::GetEvents`: a new pointer to
    the object in the calling thread's table. -/
def getEvents (s : Io) (t : Tid) (fd : Fd) : Except Abort (Io × Option EvRef) :=
  match s.loop t with
  | none => .ok (s, none)
  | some l =>
    match l.events fd with
    | none => .ok (s, none)
    | some e => do
      let s ← s.share e
      .ok (s, some e)

/-- `events_[fd] = e; poll_->EventsAdd(e)`. -/
def tableAdd (s : Io) (t : Tid) (l : EventLoop) (e : EvRef) (obj : Events) (ok : Bool) :
    Except Abort Io := do
  let s ← s.share e
  let s := s.setTable t l obj.fd (some e)
  .ok { s with kern := (s.kern.eventAdd t obj.fd obj.eorigin ok).1 }

/-- `EventLoop::pollUpdate` of the loop `l` of thread `t`. -/
def pollUpdate (s : Io) (t : Tid) (l : EventLoop) (e : EvRef) (ok : Bool) : Except Abort Io :=
  match s.ev e with
  | none => .error .badPointer
  | some c =>
    if c.obj.invaild then .ok s
    else if c.obj.isnew then
      match l.events c.obj.fd with
      | some _ => .error .newInTable
      | none => s.tableAdd t l e c.obj ok
    else if c.obj.ismod then
      match l.events c.obj.fd with
      -- A changed object whose descriptor has left the table is added as a new one is.
      | none => s.tableAdd t l e c.obj ok
      | some _ => .ok { s with kern := (s.kern.eventMod t c.obj.fd c.obj.eorigin ok).1 }
    else if c.obj.isdel then
      -- `EventsDel` first, then the argument of the assertion, which lets go of the
      -- pointer in the table; that need not be `e`.
      let s := { s with kern := (s.kern.eventDel t c.obj.fd ok).1 }
      match l.events c.obj.fd with
      | none => .error .notInTable
      | some old => (s.setTable t l c.obj.fd none).release old
    else .ok s

/-- `Eventsops::UpdateLoopEvents`: without a registered loop nothing
    happens. The wake-up and the result are not used by anyone. -/
def updateLoopEvents (s : Io) (e : EvRef) (ok : Bool) : Except Abort Io :=
  match s.ev e with
  | none => .error .badPointer
  | some c =>
    match s.loop c.obj.tid with
    | none => .ok s
    | some l => s.pollUpdate c.obj.tid l e ok

/-- `Eventsops::RemoveEventFromLoop`. -/
def removeEventFromLoop (s : Io) (e : EvRef) (ok : Bool) : Except Abort Io :=
  match s.ev e with
  | none => .error .badPointer
  | some c =>
    match s.loop c.obj.tid with
    | none => .error .noLoop
    | some l => do
      let s ← s.modifyEvents e (fun o => o.setState .DEL)
      s.pollUpdate c.obj.tid l e ok

/-- The constructor of `EventLoop` on thread `t`, followed by
    `EventLoopPool::AddEventLoop`. The `eventfd` gets the number `fd`; its
    `Events` is held by the loop and its table. -/
def newLoop (s : Io) (t : Tid) (fd : Fd) : Except Abort Io :=
  let s := { s with kern := s.kern.openFd fd true }
  let (s, e) := s.newEvents t fd kReadEvent
  -- The member keeps one pointer, and the table gets a second one below.
  let l : EventLoop := { events := fun _ => none, wakeFd := fd, wakeEvent := e }
  let s := { s with loop := Function.update s.loop t (some l) }
  s.pollUpdate t l e true

/-- The body of the `for` in `EventLoop::loop`, for one reported event on
    thread `t`, up to the resume: the coroutine to resume, if any. -/
def loopEntry (s : Io) (t : Tid) (p : PollerEvent) : Except Abort (Io × Option McoRef) :=
  match s.loop t with
  | none => .error .badPointer
  | some l =>
    match l.events p.fd with
    | none => .ok (s, none)
    | some e =>
      match s.ev e with
      | none => .error .badPointer
      | some c =>
        let h := (c.obj.setMutable p.event).eventHandleAble
        let s := s.setEv e (some { c with obj := h.2 })
        if !h.1 then .ok (s, none)
        -- What is compared is the descriptor of the object, not the reported one.
        else if l.wakeFd = h.2.fd then .ok (s, none)
        else .ok (s, s.getMcoRoutine t h.2.fd)

end Io

end Fasco
