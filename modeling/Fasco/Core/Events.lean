import Fasco.Core.Stack

/-!
# Events

`class Events`: a descriptor, the poll events the program asks for, and the
ones the last `epoll_wait` reported. The masks are those of `poll(2)`. Of the
states a value can be in, `NEW`, `MOD` and `DEL` decide what the event loop
does with it; `USED` and `INVAILD` are never assigned by the functions modelled
here but are tested for.

The field `type_` is written and never read, and is left out.

## Main definitions

* `Events`: The object.
* `kReadEvent`, `kWriteEvent`: The events a program can ask for.
* `updateEvents`, `addEvent`, `deleteEvent`, `setMutable`, `addEventMutable`,
  `deleteEventMutable`: The operations on the masks.
* `eventHandleAble`: The test `EventLoop::loop` makes on a reported event.

## Theorems

* `eventHandleAble_keeps`: The test changes the reported mask only.
-/

namespace Fasco

/-- File descriptors. -/
abbrev Fd := Nat

def pollIn : UInt32 := 0x001
def pollPri : UInt32 := 0x002
def pollOut : UInt32 := 0x004
def pollErr : UInt32 := 0x008
def pollHup : UInt32 := 0x010
def pollRdHup : UInt32 := 0x2000

def kNoneEvent : UInt32 := 0
def kReadEvent : UInt32 := pollIn ||| pollPri
def kWriteEvent : UInt32 := pollOut

/-- `enum Events::state`. -/
inductive EventsState where
  | NEW
  | MOD
  | USED
  | DEL
  | INVAILD
  deriving DecidableEq, Repr

/-- `class Events`. -/
structure Events where
  fd : Fd
  tid : Tid
  state : EventsState
  eorigin : UInt32
  mutable_ : UInt32
  deriving DecidableEq, Repr

namespace Events

/-- The constructor, called on thread `t`. -/
def make (fd : Fd) (events : UInt32) (t : Tid) : Events :=
  { fd := fd, tid := t, state := .NEW, eorigin := events, mutable_ := kNoneEvent }

def invaild (e : Events) : Bool := e.state = .INVAILD
def ismod (e : Events) : Bool := e.state = .MOD
def isdel (e : Events) : Bool := e.state = .DEL
def isnew (e : Events) : Bool := e.state = .NEW

def setTid (e : Events) (t : Tid) : Events := { e with tid := t }
def setState (e : Events) (st : EventsState) : Events := { e with state := st }
def setMutable (e : Events) (event : UInt32) : Events := { e with mutable_ := event }

def updateEvents (e : Events) (events : UInt32) : Events :=
  { e with eorigin := events, state := .MOD }

def deleteEvent (e : Events) (event : UInt32) : Events :=
  { e with eorigin := e.eorigin &&& ~~~event, state := .MOD }

def addEvent (e : Events) (event : UInt32) : Events :=
  { e with eorigin := e.eorigin ||| event, state := .MOD }

def addEventMutable (e : Events) (event : UInt32) : Events :=
  { e with mutable_ := e.mutable_ ||| event, state := .MOD }

def deleteEventMutable (e : Events) (event : UInt32) : Events :=
  { e with mutable_ := e.mutable_ &&& ~~~event, state := .MOD }

def containsAtLeastOneEvents (emutable events : UInt32) : Bool := emutable &&& events != 0

def isRead (e : Events) : Bool :=
  containsAtLeastOneEvents e.mutable_ (pollIn ||| pollPri ||| pollRdHup)

def isWrite (e : Events) : Bool := containsAtLeastOneEvents e.mutable_ pollOut

def originRead (e : Events) : Bool :=
  containsAtLeastOneEvents e.eorigin (pollIn ||| pollPri ||| pollRdHup)

def originWrite (e : Events) : Bool := containsAtLeastOneEvents e.eorigin pollOut

/-- `EventLoop::eventHandleAble`, with its effect on the object. Read and write
    events that are no longer asked for are dropped from what was reported;
    errors and hang-ups are not, whether or not anything is asked for. -/
def eventHandleAble (e : Events) : Bool × Events :=
  if e.isdel then (false, e)
  else if e.ismod then
    -- Each of the two sets the state to `MOD`, which it is already.
    let e := if e.isRead && !e.originRead then e.deleteEventMutable kReadEvent else e
    let e := if e.isWrite && !e.originWrite then e.deleteEventMutable kWriteEvent else e
    (e.mutable_ != kNoneEvent, e)
  else (true, e)

/-- The fields the reported mask does not concern. -/
theorem eventHandleAble_keeps (e : Events) :
    e.eventHandleAble.2.fd = e.fd ∧ e.eventHandleAble.2.tid = e.tid ∧
      e.eventHandleAble.2.state = e.state ∧ e.eventHandleAble.2.eorigin = e.eorigin := by
  unfold eventHandleAble
  by_cases hd : e.isdel = true
  · rw [if_pos hd]
    exact ⟨rfl, rfl, rfl, rfl⟩
  · rw [if_neg hd]
    by_cases hm : e.ismod = true
    · rw [if_pos hm]
      have hst : e.state = .MOD := of_decide_eq_true hm
      -- Either test may drop its events, and dropping them sets the state to what it is.
      by_cases h1 : (e.isRead && !e.originRead) = true
      · simp only [if_pos h1]
        by_cases h2 : ((e.deleteEventMutable kReadEvent).isWrite &&
            !(e.deleteEventMutable kReadEvent).originWrite) = true
        · rw [if_pos h2]
          exact ⟨rfl, rfl, hst.symm, rfl⟩
        · rw [if_neg h2]
          exact ⟨rfl, rfl, hst.symm, rfl⟩
      · simp only [if_neg h1]
        by_cases h2 : (e.isWrite && !e.originWrite) = true
        · rw [if_pos h2]
          exact ⟨rfl, rfl, hst.symm, rfl⟩
        · rw [if_neg h2]
          exact ⟨rfl, rfl, rfl, rfl⟩
    · rw [if_neg hm]
      exact ⟨rfl, rfl, rfl, rfl⟩

end Events

end Fasco
