import Fasco.Lib.Run
import Fasco.Core.Events

/-!
# Waiting for Events

`Epoll::Loop`: one `epoll_wait` into the vector `revents_`, and the copy of
what it reported to the caller's vector. After each call the vector is cleared,
and when the batch was full, the number of events asked for and the vector are
made larger.

What `epoll_wait` answers is an input, so is how often it is interrupted
first. It writes to the address of the vector's first element; what goes beyond
its end is no part of the vector. A subscript beyond the end and an `int` that
overflows are faults, as neither means anything. The timestamp `Loop` returns
is left out, and so is the log.

## Main definitions

* `EpollEvent`, `Epoll.PollerEvent`: The records of the kernel and the caller.
* `Epoll`: The vector and the number of events asked for.
* `Epoll.Wait`: What a call is given, by the caller and by the kernel.
* `Epoll.loopWait`, `Epoll.loop`: The wait, and the call.
-/

namespace Fasco

/-- `struct epoll_event`, with the descriptor in `data`. -/
structure EpollEvent where
  events : UInt32
  fd : Fd
  deriving DecidableEq, Repr

/-- `class Epoll`, without the descriptor. -/
structure Epoll where
  revents : List EpollEvent
  maxNum : Nat
  deriving DecidableEq, Repr

namespace Epoll

/-- `struct PollerEvent`. -/
structure PollerEvent where
  fd : Fd
  event : UInt32
  deriving DecidableEq, Repr

/-- How a call ends when it does not return. -/
inductive Stop where
  /-- `revents_[i]` beyond the end of the vector. -/
  | subscript
  /-- `maxNum_` leaves the range of `int`. -/
  | overflow
  deriving DecidableEq, Repr

/-- The argument of a call, how often its `epoll_wait` ends with `EINTR`, and
    what it returns then: none for -1, and otherwise the events. -/
structure Wait where
  events : List PollerEvent
  interrupted : Nat
  result : Option (List EpollEvent)
  deriving DecidableEq, Repr

/-- The events `epoll_wait` has reported. -/
def Wait.reported (a : Wait) : List EpollEvent := a.result.getD []

def addStep : Nat := 15

/-- `revents_.resize(n)`, on an empty vector. -/
def resized (n : Nat) : List EpollEvent := List.replicate n { events := 0, fd := 0 }

/-- The constructor. -/
def construct : Epoll := { revents := resized 20, maxNum := 20 }

/-- The vector after the kernel has written `rs` to its address. -/
def fill (revents rs : List EpollEvent) : List EpollEvent :=
  (rs ++ revents.drop rs.length).take revents.length

/-- `loopWait`: what it returns, and the vector then. -/
def loopWait (revents : List EpollEvent) : Nat → Option (List EpollEvent) → Int × List EpollEvent
  | 0, none => (-1, revents)
  | 0, some rs => (rs.length, fill revents rs)
  | n + 1, r => loopWait revents n r

/-- The `for` of `Loop`, with `i` and the number of rounds left. -/
def collect (revents : List EpollEvent) (i : Nat) :
    Nat → List PollerEvent → Except Stop (List PollerEvent)
  | 0, events => .ok events
  | n + 1, events =>
    match revents[i]? with
    -- The vector is as long as it was after the last call, whatever was reported.
    | none => .error .subscript
    | some e => collect revents (i + 1) n (events ++ [{ fd := e.fd, event := e.events }])

/-- `Loop`, with the caller's vector afterwards. -/
def loop (s : Epoll) (a : Wait) : Except Stop (Epoll × List PollerEvent) := do
  -- The vector is empty here after any call whose batch was not full.
  let (ret, revents) := loopWait s.revents a.interrupted a.result
  let events ← collect revents 0 ret.toNat a.events
  -- The batch was full. Both are made larger, and otherwise the vector is only cleared.
  if ret = s.maxNum then
    if s.maxNum + addStep < 2 ^ 31 then
      .ok ({ revents := resized (s.maxNum + addStep), maxNum := s.maxNum + addStep }, events)
    else .error .overflow
  else .ok ({ revents := [], maxNum := s.maxNum }, events)

end Epoll

end Fasco
