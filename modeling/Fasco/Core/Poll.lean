import Fasco.Core.Loop

/-!
# One Loop and Its Epoll Set

`EventLoop::updateEvents` with everything below it, down to `epoll_ctl`, for
one loop, and with the values the calls return. `Core.Loop` has the same
functions as parts of the hooks, where the returned values are dropped.

There are two builds. Compiled with assertions, as `SConstruct` does it, a
failed `assert` ends the program, and an effect in its argument takes place;
compiled with `NDEBUG` the expression is not there at all. The functions take
the build as an argument.

`epoll_ctl` can refuse any request, which is an input of the call, and it
refuses to add a descriptor that is watched and to change or remove one that
is not. The objects are those somebody outside the loop keeps a pointer to:
none is destroyed, and no descriptor is closed. The loop's mutex and its
wake-up are left out.

## Main definitions

* `Build`: With or without assertions.
* `Interest.ctl`: `epoll_ctl`.
* `Watch`: The table, the epoll set, and the `Events` objects.
* `Watch.pollUpdate`, `Watch.updateEvents`: Telling the loop about an object.
* `EventsCall`: The operations on the state and the masks of an object.
* `Watch.step`: One call, with what it returns.
* `Watch.construct`: The constructor of `EventLoop`.
-/

namespace Fasco

/-- How the program is compiled. -/
inductive Build where
  | debug
  | release
  deriving DecidableEq, Repr

/-- `assert(c)`, for an expression without effect. -/
def Build.assert (b : Build) (c : Bool) : Except Fault Unit :=
  match b with
  | .debug => if c then .ok () else .error .assertion
  | .release => .ok ()

/-- The operations of `epoll_ctl`. -/
inductive CtlOp where
  | add
  | mod
  | del
  deriving DecidableEq, Repr

/-- What an epoll instance watches, with the events asked for. -/
abbrev Interest := Fd → Option UInt32

/-- `epoll_ctl`, which succeeds if `ok` and it can. -/
def Interest.ctl (i : Interest) (op : CtlOp) (sd : Fd) (events : UInt32) (ok : Bool) :
    Interest × Bool :=
  match op with
  | .add => if ok && (i sd).isNone then (Function.update i sd (some events), true) else (i, false)
  | .mod => if ok && (i sd).isSome then (Function.update i sd (some events), true) else (i, false)
  | .del => if ok && (i sd).isSome then (Function.update i sd none, true) else (i, false)

/-- A loop and the objects it is told about: `events_`, the epoll set of
    `poll_`, whether `epoll_fd_` is a descriptor at all, and the objects. -/
structure Watch where
  events : Fd → Option EvRef
  interest : Interest
  created : Bool
  obj : EvRef → Option Events

namespace Watch

/-! ### `Epoll` -/

/-- `Epoll::eventCtl`. On the descriptor -1 the system call fails. -/
def eventCtl (b : Build) (s : Watch) (op : CtlOp) (sd : Fd) (events : UInt32) (ok : Bool) :
    Except Fault (Watch × Bool) := do
  b.assert s.created
  let r := s.interest.ctl op sd events (ok && s.created)
  .ok ({ s with interest := r.1 }, r.2)

def eventsAdd (b : Build) (s : Watch) (o : Events) (ok : Bool) : Except Fault (Watch × Bool) :=
  s.eventCtl b .add o.fd o.eorigin ok

def eventsMod (b : Build) (s : Watch) (o : Events) (ok : Bool) : Except Fault (Watch × Bool) :=
  s.eventCtl b .mod o.fd o.eorigin ok

def eventsDel (b : Build) (s : Watch) (o : Events) (ok : Bool) : Except Fault (Watch × Bool) :=
  s.eventCtl b .del o.fd o.eorigin ok

/-! ### `EventLoop` -/

/-- `events_[fd] = e`, or `events_.erase(fd)`. -/
def setEntry (s : Watch) (fd : Fd) (e : Option EvRef) : Watch :=
  { s with events := Function.update s.events fd e }

/-- `assert(events_.erase(fd))`. -/
def assertErase (b : Build) (s : Watch) (fd : Fd) : Except Fault Watch :=
  match b with
  | .debug => if (s.events fd).isSome then .ok (s.setEntry fd none) else .error .assertion
  | .release => .ok s

/-- `EventLoop::pollUpdate`. -/
def pollUpdate (b : Build) (s : Watch) (e : EvRef) (ok : Bool) : Except Fault (Watch × Bool) :=
  match s.obj e with
  | none => .error .badPointer
  | some o =>
    if o.invaild then .ok (s, false)
    else if o.isnew then do
      b.assert (s.events o.fd).isNone
      (s.setEntry o.fd (some e)).eventsAdd b o ok
    else if o.ismod then
      -- The descriptor has left the table since: it is added, as a new one is.
      if (s.events o.fd).isNone then (s.setEntry o.fd (some e)).eventsAdd b o ok
      else s.eventsMod b o ok
    else if o.isdel then do
      -- What `EventsDel` returns is dropped, and `true` is returned in any case.
      let r ← s.eventsDel b o ok
      let s ← r.1.assertErase b o.fd
      .ok (s, true)
    else .ok (s, true)

/-- `EventLoop::updateEvents`. -/
def updateEvents (b : Build) (s : Watch) (e : EvRef) (ok : Bool) : Except Fault (Watch × Bool) :=
  match s.obj e with
  | none => .error .badPointer
  -- `pollUpdate` makes the same test again.
  | some o => if o.invaild then .ok (s, false) else s.pollUpdate b e ok

/-- `EventLoop::getEvents`. -/
def getEvents (s : Watch) (fd : Fd) : Option EvRef := s.events fd

end Watch

/-- The calls that change the state or the masks of an `Events` object. -/
inductive EventsCall where
  | setState (st : EventsState)
  | setMutable (event : UInt32)
  | updateEvents (events : UInt32)
  | addEvent (event : UInt32)
  | deleteEvent (event : UInt32)
  | addEventMutable (event : UInt32)
  | deleteEventMutable (event : UInt32)
  deriving DecidableEq, Repr

def EventsCall.run (m : EventsCall) (o : Events) : Events :=
  match m with
  | .setState st => o.setState st
  | .setMutable event => o.setMutable event
  | .updateEvents events => o.updateEvents events
  | .addEvent event => o.addEvent event
  | .deleteEvent event => o.deleteEvent event
  | .addEventMutable event => o.addEventMutable event
  | .deleteEventMutable event => o.deleteEventMutable event

/-- The mask operations, which set the state to `MOD`. -/
def EventsCall.isMask : EventsCall → Bool
  | .setState _ => false
  | .setMutable _ => false
  | _ => true

/-- What is called next. -/
inductive WatchOp where
  /-- The constructor of `Events`, on thread `t`. -/
  | make (e : EvRef) (fd : Fd) (events : UInt32) (t : Tid)
  | call (e : EvRef) (m : EventsCall)
  | update (e : EvRef) (ok : Bool)
  | get (fd : Fd)
  deriving DecidableEq, Repr

/-- What a call returns. -/
inductive Answer where
  | void
  | bool (r : Bool)
  | event (e : Option EvRef)
  deriving DecidableEq, Repr

namespace Watch

def step (b : Build) (s : Watch) : WatchOp → Except Fault (Watch × Answer)
  | .make e fd events t =>
    .ok ({ s with obj := Function.update s.obj e (some (Events.make fd events t)) }, .void)
  | .call e m =>
    match s.obj e with
    | none => .error .badPointer
    | some o => .ok ({ s with obj := Function.update s.obj e (some (m.run o)) }, .void)
  | .update e ok => do
    let r ← s.updateEvents b e ok
    .ok (r.1, .bool r.2)
  | .get fd => .ok (s, .event (s.getEvents fd))

/-- The constructor of `EventLoop` on thread `t`, with the `eventfd` and the
    object made for it. -/
def construct (b : Build) (created : Bool) (obj : EvRef → Option Events) (t : Tid) (wakeFd : Fd)
    (wakeEvent : EvRef) (ok : Bool) : Except Fault (Watch × Bool) :=
  updateEvents b
    { events := fun _ => none
      interest := fun _ => none
      created := created
      obj := Function.update obj wakeEvent (some (Events.make wakeFd kReadEvent t)) }
    wakeEvent ok

end Watch

end Fasco
