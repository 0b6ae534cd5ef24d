import Mathlib.Logic.Function.Basic
import Fasco.Core.Stack

/-!
# Coroutines

`McoRoutine.cpp` and `McoCallStack.h`: creating, resuming, yielding and
freeing coroutines, and the switch between two of them.

The state is the heap of live `McoRoutine` objects with the `McoStack` each
one points to, the call stack and the stack manager of every thread, and the
memory of the common blocks. One more component is the machine's own and
appears in no variable of the program: `exec`, the coroutine whose code a
thread is executing. It is none until `MainMco` has made a coroutine for the
thread's own code, and afterwards it changes only in `mcontext_swap`.

What `mcontext_swap` saves and loads is a position in some coroutine's code.
Three positions occur. `McontextInit` zeroes the registers; `McontextMake`
points them at the start of `CoroutineRun` with the coroutine as argument; and
`mcontext_swap` saves the place inside `McoSwap` where the calling code will
go on. Loading the second starts a callback, loading the third runs the
recovery step at the end of `McoSwap`.

`McoRoutine::stackMgr` is assigned nowhere in the program, so
`InitMcoContext` would dereference a null pointer. It is read here as the
manager of the thread that starts the coroutine, and the field records that
thread. The two size assertions of `McoCallStack` are read as compiled out;
the size they compare is kept.

The frame of `McoSwap` itself is not modelled. Its locals `callstack` and
`cur_co` are assigned after the switch, by the code that has regained control.
A compiler may put them above `c`, and then these few bytes above the stack
pointer are not what they were at the switch; nothing that the caller of
`McoSwap` keeps is among them.

Calls that do not return end in a `Fault`: a failed assertion, or a use of a
null or freed object. Values the allocator and the compiler choose are inputs
of a call, gathered in `CallSite`.

## Main definitions

* `Mcontext`, `McoContext`, `McoRoutine`: The records of a coroutine.
* `McoCallStack`: The call stack of a thread.
* `World`: The heap, the per-thread structures, and memory.
* `mcontextSwap`: The register switch.
* `mcoSwap`: `McoSwap`, with its bookkeeping before and after the switch.
* `mcoCreate`, `mainMco`, `mcoResume`, `mcoYield`, `coroutineRun`, `mcoFree`:
  The operations on coroutines.
-/

namespace Fasco

/-- A position in some coroutine's code, as the saved registers name it. -/
inductive Regs where
  /-- All zero: nothing to go on with. -/
  | zero
  /-- The start of `CoroutineRun`, called with `co`. -/
  | entry (co : McoRef)
  /-- Inside `McoSwap`, in the code of `co`; none for a thread that has no
      coroutine for its own code yet. -/
  | inSwap (co : Option McoRef)
  deriving DecidableEq, Repr

/-- `struct Mcontext`. -/
structure Mcontext where
  regs : Regs
  ssSize : Nat
  ssSp : Nat
  deriving DecidableEq, Repr

/-- `struct McoContext`. `ctx` is none until it is assigned; of the callback
    only the number of times it has been called is kept. -/
structure McoContext where
  ctx : Option Mcontext
  coruns : Nat
  deriving DecidableEq, Repr

/-- `struct McoRoutine`. The `McoStack` it points to is in `World.stack`;
    `McoCreate` always assigns `coctx`. -/
structure McoRoutine where
  coctx : McoContext
  sink : Option McoRef
  stackMgr : Option Tid
  usePrivate : Bool
  isMain : Bool
  inCallstack : Bool
  shouldClose : Bool
  start : Bool
  running : Bool
  done : Bool
  doneYield : Bool
  stackStore : Bool
  deriving DecidableEq, Repr

/-- The callback has ended and the coroutine has given up control for good. -/
def McoRoutine.finished (r : McoRoutine) : Bool := r.done && r.doneYield

/-- The first lines of `McoYield`: a coroutine whose callback has ended is
    marked as giving up control for the last time. -/
def McoRoutine.endDone (r : McoRoutine) : McoRoutine :=
  if r.done then { r with doneYield := true, start := false } else r

/-- The record of a coroutine about to give up control in `McoYield`. -/
def McoRoutine.giveUp (r : McoRoutine) : McoRoutine :=
  { r.endDone with running := false, inCallstack := true }

/-- The record of a coroutine `McoResume` has put on top of `sink`. -/
def McoRoutine.takeOver (r : McoRoutine) (sink : Option McoRef) : McoRoutine :=
  { r with running := true, sink := sink, inCallstack := true }

/-- `class McoCallStack`: a map from indices to pointers, its number of keys,
    and the index. -/
structure McoCallStack where
  callStack : Nat → Option (Option McoRef)
  size : Nat
  index : Nat

/-- `callStack_[i]`; a missing key reads as the null pointer it inserts. -/
def McoCallStack.slot (s : McoCallStack) (i : Nat) : Option McoRef := (s.callStack i).join

/-- `(*callstack)[i] = c`. -/
def McoCallStack.put (s : McoCallStack) (i : Nat) (c : McoRef) : McoCallStack :=
  { s with
    callStack := Function.update s.callStack i (some (some c))
    size := if (s.callStack i).isSome then s.size else s.size + 1 }

/-- `(*callstack)[index++] = c`. -/
def McoCallStack.push (s : McoCallStack) (c : McoRef) : McoCallStack :=
  { s.put s.index c with index := s.index + 1 }

/-- `(*callstack)[index - k]`. Below zero the subtraction wraps to a key far
    above any the map holds, and reads as a missing one. -/
def McoCallStack.fromTop (s : McoCallStack) (k : Nat) : Option McoRef :=
  if k ≤ s.index then s.slot (s.index - k) else none

def McoCallStack.getCurMco (s : McoCallStack) : Option McoRef :=
  if 0 < s.size then s.fromTop 1 else none

/-- The coroutines, the call stack and stack manager of each thread, the code
    each thread executes, and memory. -/
structure World where
  co : McoRef → Option McoRoutine
  stack : McoRef → Option McoStack
  callstack : Tid → McoCallStack
  mgr : Tid → McoStackManager
  exec : Tid → Option McoRef
  mem : Nat → UInt8

/-- What the machine supplies at a call: the address of the local `c` in
    `McoSwap`, and the addresses `new` returns for the main coroutine, its
    private block and the private block of a coroutine that is started. -/
structure CallSite where
  sp : Nat
  main : McoRef
  mainBlk : Nat
  blk : Nat
  deriving DecidableEq, Repr

namespace World

def setCo (w : World) (c : McoRef) (r : McoRoutine) : World :=
  { w with co := Function.update w.co c (some r) }

def setStack (w : World) (c : McoRef) (s : McoStack) : World :=
  { w with stack := Function.update w.stack c (some s) }

def setCallstack (w : World) (t : Tid) (s : McoCallStack) : World :=
  { w with callstack := Function.update w.callstack t s }

def setExec (w : World) (t : Tid) (x : Option McoRef) : World :=
  { w with exec := Function.update w.exec t x }

/-- `SetCommonOccupy` called on thread `t`. -/
def setCommonOccupy (w : World) (t : Tid) (o : Option McoRef) : World :=
  { w with mgr := Function.update w.mgr t { w.mgr t with commonOccupy := o } }

/-- `co->running = b` through a pointer. -/
def setRunning (w : World) (c : McoRef) (b : Bool) : Except Fault World :=
  match w.co c with
  | none => .error .badPointer
  | some r => .ok (w.setCo c { r with running := b })

/-- `McoCreate`; `c` is the address of the new object. -/
def mcoCreate (w : World) (c : McoRef) (usePrivate : Bool) : World :=
  { w with
    co := Function.update w.co c (some
      { coctx := { ctx := none, coruns := 0 }, sink := none, stackMgr := none,
        usePrivate := usePrivate, isMain := false, inCallstack := false, shouldClose := false,
        start := false, running := false, done := false, doneYield := false,
        stackStore := false })
    stack := Function.update w.stack c none }

/-- `InitMcoContext`, on the coroutine `c` with record `r`, called on thread
    `t`. The result is its return value and the state. -/
def initMcoContext (w : World) (t : Tid) (c : McoRef) (r : McoRoutine) (blk : Nat) :
    Bool × World :=
  let s := if r.usePrivate then (w.mgr t).createPrivateMcoStack blk
    else (w.mgr t).createCommonMcoStack
  let w := w.setStack c s
  let w := w.setCo c
    { r with
      stackMgr := some t
      coctx := { r.coctx with ctx := some { regs := .zero, ssSize := s.size, ssSp := s.stack } } }
  ((w.stack c).isSome, w)

/-- `McontextMake(ctx, CoroutineRun, co)`. -/
def mcontextMake (m : Mcontext) (co : McoRef) : Mcontext := { m with regs := .entry co }

/-- A coroutine whose context `McontextMake` has been called on. -/
def madeContext (c : McoRef) (r : McoRoutine) : McoRoutine :=
  { r with coctx := { r.coctx with ctx := r.coctx.ctx.map (fun m => mcontextMake m c) } }

/-- `MainMco` on thread `t`, with its return value. -/
def mainMco (w : World) (t : Tid) (e : CallSite) : World × Option McoRef :=
  if (w.callstack t).index = 0 then
    let w := w.mcoCreate e.main true
    match w.co e.main with
    | none => (w, none)
    | some r =>
      match w.initMcoContext t e.main r e.mainBlk with
      | (false, w) => (w, none)
      | (true, w) =>
        match w.co e.main with
        | none => (w, none)
        | some r =>
          let w := w.setCallstack t ((w.callstack t).push e.main)
          let w := w.setCo e.main
            { madeContext e.main r with
              isMain := true, start := true, running := true, inCallstack := true }
          -- The code that made the call is the main coroutine's from here on.
          let w := w.setExec t (some e.main)
          (w, (w.callstack t).slot 0)
  else (w, (w.callstack t).slot 0)

/-- `sink->stack->stack_sp = &c`. -/
def saveSp (w : World) (c : McoRef) (sp : Nat) : Except Fault World :=
  match w.stack c with
  | none => .error .badPointer
  | some s => .ok (w.setStack c { s with stackSp := sp })

/-- The first half of `McoSwap`: `co` becomes the occupant of the calling
    thread's common block if it is to run there, and the old occupant, unless
    it has finished, is copied out. -/
def occupy (w : World) (t : Tid) (co : McoRef) : Except Fault World :=
  match w.stack co with
  | none => .error .badPointer
  | some s =>
    if s.isPrivate then .ok w
    else
      let w' := w.setCommonOccupy t (some co)
      match (w.mgr t).commonOccupy with
      | none => .ok w'
      | some o =>
        if o = co then .ok w'
        else
          match w.co o with
          | none => .error .badPointer
          | some r =>
            if r.finished then .ok w'
            else
              match w.stack o with
              | none => .error .badPointer
              | some so =>
                .ok ((w'.setCo o { r with stackStore := true }).setStack o
                  (storeUsedCommonStack w.mem so))

/-- `mcontext_swap(sink->coctx->ctx, co->coctx->ctx)`: the position of the
    calling code is saved in `sink`'s context, and `co`'s is loaded. The flag
    tells whether the loaded position is inside `McoSwap`. -/
def mcontextSwap (w : World) (t : Tid) (sink co : McoRef) : Except Fault (World × Bool) :=
  match w.co sink with
  | none => .error .badPointer
  | some rs =>
    match rs.coctx.ctx with
    | none => .error .badPointer
    | some ms =>
      let w := w.setCo sink
        { rs with coctx := { rs.coctx with ctx := some { ms with regs := .inSwap (w.exec t) } } }
      match w.co co with
      | none => .error .badPointer
      | some rc =>
        match rc.coctx.ctx with
        | none => .error .badPointer
        | some mc =>
          match mc.regs with
          | .zero => .error .badPointer
          | .entry c => .ok (w.setExec t (some c), false)
          | .inSwap x => .ok (w.setExec t x, true)

/-- The end of `McoSwap`, in the code that has just regained control. -/
def swapTail (w : World) (t : Tid) : Except Fault World :=
  match (w.callstack t).getCurMco with
  | none => .ok w
  | some c =>
    match w.stack c, w.co c with
    | some s, some r =>
      if !s.isPrivate && r.stackStore then
        match recoverUsedCommonStack w.mem s with
        | .error e => .error e
        | .ok mem => .ok { w.setCo c { r with stackStore := false } with mem := mem }
      else .ok w
    | _, _ => .error .badPointer

/-- The start of `CoroutineRun`: the callback of the coroutine now executing
    is called. -/
def enterCallback (w : World) (t : Tid) : Except Fault World :=
  match w.exec t with
  | none => .error .badPointer
  | some c =>
    match w.co c with
    | none => .error .badPointer
    | some r => .ok (w.setCo c { r with coctx := { r.coctx with coruns := r.coctx.coruns + 1 } })

/-- What the loaded position does first. -/
def land (w : World) (t : Tid) (back : Bool) : Except Fault World :=
  if back then w.swapTail t else w.enterCallback t

/-- `McoSwap(sink, co)` on thread `t`. -/
def mcoSwap (w : World) (t : Tid) (sink co : McoRef) (sp : Nat) : Except Fault World := do
  let w ← w.saveSp sink sp
  let w ← w.occupy t co
  let (w, back) ← w.mcontextSwap t sink co
  w.land t back

/-- `McoYield(co)` on thread `t`. -/
def mcoYield (w : World) (t : Tid) (co : Option McoRef) (sp : Nat) : Except Fault World :=
  match co with
  | none => .ok w
  | some c =>
    match w.co c with
    | none => .error .badPointer
    | some r =>
      if !r.running || r.finished then .ok w
      else
        let cs := w.callstack t
        if r.sink ≠ cs.fromTop 2 then .error .assertion
        else
          let w := w.setCallstack t { cs with index := cs.index - 1 }
          let w := w.setCo c r.giveUp
          match r.sink with
          | none => .error .badPointer
          | some s => do
            let w ← w.setRunning s true
            w.mcoSwap t c s sp

/-- The branch of `McoResume` that puts `c`, with record `r`, on the call
    stack and switches to it. -/
def pushCallstack (w : World) (t : Tid) (c : McoRef) (r : McoRoutine) (sp : Nat) :
    Except Fault World :=
  let cs := (w.callstack t).push c
  let w := w.setCallstack t cs
  let sink := cs.fromTop 2
  let w := w.setCo c (r.takeOver sink)
  match sink with
  | none => .error .badPointer
  | some s => do
    let w ← w.setRunning s false
    w.mcoSwap t s c sp

/-- `McoResume(co)` on thread `t`. -/
def mcoResume (w : World) (t : Tid) (co : Option McoRef) (e : CallSite) : Except Fault World :=
  match co with
  | none => .ok w
  | some c =>
    match w.co c with
    | none => .error .badPointer
    | some r =>
      if r.running || r.finished then .ok w
      else
        let w := if (w.callstack t).index = 0 then (w.mainMco t e).1 else w
        let cs := w.callstack t
        match cs.fromTop 1 with
        | none => .error .badPointer
        | some cur =>
          match w.co cur with
          | none => .error .badPointer
          | some rcur =>
            -- A coroutine that was switched to from `c` yields back to it.
            if rcur.sink = some c then w.mcoYield t (some cur) e.sp
            else if r.start then w.pushCallstack t c r e.sp
            else
              match w.initMcoContext t c r e.blk with
              | (false, w) => .ok w
              | (true, w) =>
                match w.co c with
                | none => .error .badPointer
                | some r => w.pushCallstack t c (madeContext c { r with start := true }) e.sp

/-- The end of `CoroutineRun`: the callback of the coroutine executing on `t`
    has returned or thrown. If `McoYield` returned, so would `CoroutineRun`,
    to an address nobody pushed. -/
def coroutineRun (w : World) (t : Tid) (sp : Nat) : Except Fault World :=
  match w.exec t with
  | none => .error .badPointer
  | some c =>
    match w.co c with
    | none => .error .badPointer
    | some r =>
      let r := { r with done := true }
      if !r.running || r.finished then .error .badPointer
      else (w.setCo c r).mcoYield t (some c) sp

/-- `McoFree(co)` on thread `t`. `RecycleMcoStack` does nothing, and the flags
    set just before the object is deleted are gone with it. -/
def mcoFree (w : World) (t : Tid) (co : Option McoRef) : Except Fault World :=
  match co with
  | none => .ok w
  | some c =>
    match w.co c with
    | none => .error .badPointer
    | some r =>
      if r.running then .ok (w.setCo c { r with shouldClose := true })
      else
        let w := if (w.mgr t).commonOccupy = some c then w.setCommonOccupy t none else w
        .ok { w with
          co := Function.update w.co c none
          stack := Function.update w.stack c none }

end World

end Fasco
