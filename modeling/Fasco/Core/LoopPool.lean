import Mathlib.Logic.Function.Basic
import Fasco.Core.Stack

/-!
# The Pool of Event Loops

`EventLoopPool.cpp`: the table of loops by the tid of their thread, the main
loop, and the vector that `getNextLoop` goes round; and what the pool and the
routing of events use of a loop, its `tid_`.

A loop takes its tid from the thread that constructs it. `AddEventLoop` and
`addMainLoop` read it when they are called, and `resetOwnerTid` sets it to the
tid of the thread that calls that. Which thread makes the other calls makes no
difference. `next_` is never greater than the size of the vector, so that it
does not wrap. The mutex and the log are left out, and each call is atomic;
loops are not destroyed.

## Main definitions

* `EventLoopPool`: The registry.
* `EventLoopPool.addEventLoop`, `EventLoopPool.getNextLoop`,
  `EventLoopPool.getLoop`: Its functions.
* `PoolOp`, `EventLoopPool.step`: Calls of the first two, in any order.
* `Loops`: The registry and the loops.
* `Loops.updateLoopEvents`: Where `Eventsops` sends an event.
* `LoopsOp`, `Loops.step`: The calls that make, add and change loops.
-/

namespace Fasco

/-- Addresses of `EventLoop` objects. -/
abbrev LoopRef := Nat

/-- `class EventLoopPool`. -/
structure EventLoopPool where
  mainLoop : Option LoopRef
  loops : Tid → Option LoopRef
  nextLoops : List LoopRef
  next : Nat

namespace EventLoopPool

/-- The constructor. -/
def construct : EventLoopPool :=
  { mainLoop := none, loops := fun _ => none, nextLoops := [], next := 0 }

def addEventLoop (p : EventLoopPool) (tid : Tid) (loop : Option LoopRef) (ismain : Bool) :
    EventLoopPool × Bool :=
  match loop with
  | none => (p, false)
  | some l =>
    if (p.loops tid).isSome then (p, false)
    else
      let p := { p with loops := Function.update p.loops tid (some l) }
      -- The main loop is in the table like the others but does not take part in the
      -- round.
      if !ismain then ({ p with nextLoops := p.nextLoops ++ [l] }, true)
      else ({ p with mainLoop := some l }, true)

/-- `getNextLoop`. The subscript is read before the increment is stored. -/
def getNextLoop (p : EventLoopPool) : EventLoopPool × Option LoopRef :=
  if p.nextLoops.length = 0 then (p, p.mainLoop)
  else
    -- The round starts again when `next_` has come to the end.
    let p := if p.nextLoops.length ≤ p.next then { p with next := 0 } else p
    ({ p with next := p.next + 1 }, p.nextLoops[p.next]?)

def getLoop (p : EventLoopPool) (tid : Tid) : Option LoopRef := p.loops tid

end EventLoopPool

/-- What is called next. -/
inductive PoolOp where
  | addEventLoop (tid : Tid) (loop : Option LoopRef) (ismain : Bool)
  | getNextLoop
  deriving DecidableEq, Repr

namespace EventLoopPool

def step (p : EventLoopPool) : PoolOp → EventLoopPool
  | .addEventLoop tid loop ismain => (p.addEventLoop tid loop ismain).1
  | .getNextLoop => p.getNextLoop.1

/-- The pool after a list of calls. -/
def run (p : EventLoopPool) (as : List PoolOp) : EventLoopPool := as.foldl step p

end EventLoopPool

/-- The registry, and `tid_` of every loop there is. -/
structure Loops where
  pool : EventLoopPool
  tid : LoopRef → Option Tid

namespace Loops

/-- Before anything has been constructed. -/
def empty : Loops := { pool := .construct, tid := fun _ => none }

/-- The constructor of `EventLoop` on thread `t`. -/
def construct (s : Loops) (t : Tid) (l : LoopRef) : Loops :=
  { s with tid := Function.update s.tid l (some t) }

/-- `AddEventLoop(loop)`, or `addMainLoop(loop)`. -/
def add (s : Loops) (l : LoopRef) (ismain : Bool) : Except Fault (Loops × Bool) :=
  match s.tid l with
  | none => .error .badPointer
  | some t =>
    -- `getTid()` is read now: a later `resetOwnerTid` does not move the entry.
    let r := s.pool.addEventLoop t (some l) ismain
    .ok ({ s with pool := r.1 }, r.2)

/-- `resetOwnerTid` on thread `t`. -/
def resetOwnerTid (s : Loops) (t : Tid) (l : LoopRef) : Except Fault Loops :=
  match s.tid l with
  | none => .error .badPointer
  | some _ => .ok { s with tid := Function.update s.tid l (some t) }

/-- `Eventsops::UpdateLoopEvents` on an event with this tid: the loop it is
    handed to, none if it is dropped. -/
def updateLoopEvents (s : Loops) (tid : Tid) : Option LoopRef := s.pool.getLoop tid

end Loops

/-- What is called next. -/
inductive LoopsOp where
  | construct (t : Tid) (l : LoopRef)
  | addEventLoop (l : LoopRef)
  | addMainLoop (l : LoopRef)
  | resetOwnerTid (t : Tid) (l : LoopRef)
  | getNextLoop
  deriving DecidableEq, Repr

namespace Loops

def step (s : Loops) : LoopsOp → Except Fault Loops
  | .construct t l => .ok (s.construct t l)
  | .addEventLoop l => do
    let r ← s.add l false
    .ok r.1
  | .addMainLoop l => do
    let r ← s.add l true
    .ok r.1
  | .resetOwnerTid t l => s.resetOwnerTid t l
  | .getNextLoop => .ok { s with pool := s.pool.getNextLoop.1 }

/-- `new` returns an address that is not in use. -/
def Supplied (s : Loops) : LoopsOp → Prop
  | .construct _ l => s.tid l = none
  | _ => True

instance (s : Loops) : ∀ a, Decidable (s.Supplied a)
  | .construct _ l => inferInstanceAs (Decidable (s.tid l = none))
  | .addEventLoop _ => isTrue trivial
  | .addMainLoop _ => isTrue trivial
  | .resetOwnerTid _ _ => isTrue trivial
  | .getNextLoop => isTrue trivial

end Loops

end Fasco
