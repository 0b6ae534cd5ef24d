import Fasco.Core.Op
import Fasco.Core.Poll

/-!
# Coroutines with All Assertions

The functions of `Core.Routine` once more, with the assertions as they are
written: `McoCallStack` compares the size of its map with its index on every
access, and `McoYield` compares `sink` with the entry below the top. Which of
them are compiled in is an argument. `Core.Routine` has the second and not the
first. So is whether `InitMcoContext` reads `stackMgr` as it is written, a
pointer nobody has assigned, or as the manager of the thread that calls it.

Two things become visible that do not show there. `(*callstack)[index++] = co`
increments the index, a reference into the object, before `operator[]` runs
and compares. And `operator[]` inserts a null pointer at a key the map does
not hold, also when it is called inside an assertion.

Subscripts are of type `size_t`, so a subtraction below zero wraps. Nothing in
the program calls `McoCallStack::empty`.

## Main definitions

* `Asserts`: Which assertions there are.
* `Stop`: How a call ends when it does not return.
* `McoCallStack.subscript`, `McoCallStack.store`, `McoCallStack.getCurMcoA`:
  The accesses to the call stack.
* `World.initMcoContextA`: The start of a coroutine's context.
* `World.mainMcoA`, `World.mcoYieldA`, `World.mcoResumeA`,
  `World.coroutineRunA`: The operations.
* `World.stepA`: One operation, with what it returns.
-/

namespace Fasco

/-- The assertions that are compiled in: those of `McoCallStack` on its size,
    and that of `McoYield` on `sink`; and whether `stackMgr` is read as the
    manager of the calling thread. -/
structure Asserts where
  size : Bool
  sink : Bool
  ownMgr : Bool
  deriving DecidableEq, Repr

/-- What the two builds have, with `stackMgr` read as the thread's manager. -/
def Build.asserts : Build → Asserts
  | .debug => { size := true, sink := true, ownMgr := true }
  | .release => { size := false, sink := false, ownMgr := true }

/-- How a call ends when it does not return. -/
inductive Stop where
  /-- `assert(callStack_.size() == index_)`. -/
  | size
  | fault (f : Fault)
  deriving DecidableEq, Repr

/-- A part of a call that knows no size assertion. -/
def liftStop {α : Type} : Except Fault α → Except Stop α
  | .ok a => .ok a
  | .error f => .error (.fault f)

/-- `a - b` of type `size_t`. -/
def sizeSub (a b : Nat) : Nat := if b ≤ a then a - b else a + 2 ^ 64 - b

namespace McoCallStack

/-- `assert(callStack_.size() == index_)`. -/
def checkSize (A : Asserts) (s : McoCallStack) : Except Stop Unit :=
  if A.size && decide (s.size ≠ s.index) then .error .size else .ok ()

/-- `callStack_[i]` inserts a missing key. -/
def touch (s : McoCallStack) (i : Nat) : McoCallStack :=
  if (s.callStack i).isSome then s
  else { s with callStack := Function.update s.callStack i (some none), size := s.size + 1 }

/-- `operator[]`, read. -/
def subscript (A : Asserts) (s : McoCallStack) (i : Nat) :
    Except Stop (McoCallStack × Option McoRef) := do
  s.checkSize A
  .ok (s.touch i, s.slot i)

/-- `(*callstack)[index++] = c`. The increment comes first. -/
def store (A : Asserts) (s : McoCallStack) (c : McoRef) : Except Stop McoCallStack := do
  let s' := { s with index := s.index + 1 }
  s'.checkSize A
  .ok (s'.put s.index c)

def getCurMcoA (A : Asserts) (s : McoCallStack) : Except Stop (McoCallStack × Option McoRef) := do
  s.checkSize A
  -- What is tested is the size of the map, and what is read is found by the index.
  if 0 < s.size then .ok (s.touch (sizeSub s.index 1), s.slot (sizeSub s.index 1))
  else .ok (s, none)

end McoCallStack

namespace World

/-- `(*callstack)[i]` on thread `t`. -/
def subscriptA (A : Asserts) (w : World) (t : Tid) (i : Nat) :
    Except Stop (World × Option McoRef) := do
  let r ← (w.callstack t).subscript A i
  .ok (w.setCallstack t r.1, r.2)

/-- `InitMcoContext(co)` on thread `t`, with its return value. -/
def initMcoContextA (A : Asserts) (w : World) (t : Tid) (c : McoRef) (r : McoRoutine)
    (blk : Nat) : Except Stop (Bool × World) :=
  match if A.ownMgr then some t else r.stackMgr with
  | none => .error (.fault .badPointer)
  | some m => .ok (w.initMcoContext m c r blk)

/-- `MainMco`. -/
def mainMcoA (A : Asserts) (w : World) (t : Tid) (e : CallSite) :
    Except Stop (World × Option McoRef) :=
  if (w.callstack t).index = 0 then
    let w := w.mcoCreate e.main true
    match w.co e.main with
    | none => .ok (w, none)
    | some r => do
      let x ← w.initMcoContextA A t e.main r e.mainBlk
      match x with
      | (false, w) => .ok (w, none)
      | (true, w) =>
        match w.co e.main with
        | none => .ok (w, none)
        | some r => do
          -- The map is empty and the index already 1 when the two are compared.
          let cs ← (w.callstack t).store A e.main
          let w := w.setCallstack t cs
          let w := w.setCo e.main
            { madeContext e.main r with
              isMain := true, start := true, running := true, inCallstack := true }
          let w := w.setExec t (some e.main)
          w.subscriptA A t 0
  else w.subscriptA A t 0

/-- `if (index == 0) MainMco();` -/
def ensureMainA (A : Asserts) (w : World) (t : Tid) (e : CallSite) : Except Stop World :=
  if (w.callstack t).index = 0 then (w.mainMcoA A t e).map Prod.fst else .ok w

/-- The end of `McoSwap`. -/
def swapTailA (A : Asserts) (w : World) (t : Tid) : Except Stop World := do
  let r ← (w.callstack t).getCurMcoA A
  let w := w.setCallstack t r.1
  match r.2 with
  | none => .ok w
  | some c =>
    match w.stack c, w.co c with
    | some s, some r =>
      if !s.isPrivate && r.stackStore then
        match recoverUsedCommonStack w.mem s with
        | .error e => .error (.fault e)
        | .ok mem => .ok { w.setCo c { r with stackStore := false } with mem := mem }
      else .ok w
    | _, _ => .error (.fault .badPointer)

/-- What the loaded position does first. -/
def landA (A : Asserts) (w : World) (t : Tid) (back : Bool) : Except Stop World :=
  if back then w.swapTailA A t else liftStop (w.enterCallback t)

/-- `McoSwap(sink, co)`. -/
def mcoSwapA (A : Asserts) (w : World) (t : Tid) (sink co : McoRef) (sp : Nat) :
    Except Stop World := do
  let w ← liftStop (w.saveSp sink sp)
  let w ← liftStop (w.occupy t co)
  let r ← liftStop (w.mcontextSwap t sink co)
  r.1.landA A t r.2

/-- `assert(sink == (*callstack)[index-2])`. -/
def assertSink (A : Asserts) (w : World) (t : Tid) (sink : Option McoRef) : Except Stop World :=
  if A.sink then do
    -- Reading the entry can insert one, and compares the sizes once more.
    let r ← w.subscriptA A t (sizeSub (w.callstack t).index 2)
    if sink = r.2 then .ok r.1 else .error (.fault .assertion)
  else .ok w

/-- `McoYield(co)`. -/
def mcoYieldA (A : Asserts) (w : World) (t : Tid) (co : Option McoRef) (sp : Nat) :
    Except Stop World :=
  match co with
  | none => .ok w
  | some c =>
    match w.co c with
    | none => .error (.fault .badPointer)
    | some r =>
      if !r.running || r.finished then .ok w
      else do
        let w := w.setCo c r.endDone
        let w ← w.assertSink A t r.sink
        let cs := w.callstack t
        -- Only the index goes down; the entry stays in the map.
        let w := w.setCallstack t { cs with index := sizeSub cs.index 1 }
        let w := w.setCo c r.giveUp
        match r.sink with
        | none => .error (.fault .badPointer)
        | some s => do
          let w ← liftStop (w.setRunning s true)
          w.mcoSwapA A t c s sp

/-- The branch of `McoResume` that puts `c`, with record `r`, on the call
    stack and switches to it. -/
def pushCallstackA (A : Asserts) (w : World) (t : Tid) (c : McoRef) (r : McoRoutine) (sp : Nat) :
    Except Stop World := do
  let w := w.setCo c { r with running := true }
  let cs ← (w.callstack t).store A c
  let w := w.setCallstack t cs
  -- `co->sink` is what lies below the entry just stored.
  let x ← w.subscriptA A t (sizeSub cs.index 2)
  let w := x.1.setCo c (r.takeOver x.2)
  match x.2 with
  | none => .error (.fault .badPointer)
  | some s => do
    let w ← liftStop (w.setRunning s false)
    w.mcoSwapA A t s c sp

/-- `McoResume(co)`. -/
def mcoResumeA (A : Asserts) (w : World) (t : Tid) (co : Option McoRef) (e : CallSite) :
    Except Stop World :=
  match co with
  | none => .ok w
  | some c =>
    match w.co c with
    | none => .error (.fault .badPointer)
    | some r =>
      if r.running || r.finished then .ok w
      else do
        let w ← w.ensureMainA A t e
        let x ← w.subscriptA A t (sizeSub (w.callstack t).index 1)
        let w := x.1
        match x.2 with
        | none => .error (.fault .badPointer)
        | some cur =>
          match w.co cur with
          | none => .error (.fault .badPointer)
          | some rcur =>
            if rcur.sink = some c then w.mcoYieldA A t (some cur) e.sp
            else if r.start then w.pushCallstackA A t c r e.sp
            else do
              let x ← w.initMcoContextA A t c r e.blk
              match x with
              | (false, w) => .ok w
              | (true, w) =>
                match w.co c with
                | none => .error (.fault .badPointer)
                | some r => w.pushCallstackA A t c (madeContext c { r with start := true }) e.sp

/-- The end of `CoroutineRun`. -/
def coroutineRunA (A : Asserts) (w : World) (t : Tid) (sp : Nat) : Except Stop World :=
  match w.exec t with
  | none => .error (.fault .badPointer)
  | some c =>
    match w.co c with
    | none => .error (.fault .badPointer)
    | some r =>
      let r := { r with done := true }
      if !r.running || r.finished then .error (.fault .badPointer)
      else (w.setCo c r).mcoYieldA A t (some c) sp

/-- One operation; only `MainMco` returns something. -/
def stepA (A : Asserts) (w : World) : Op → Except Stop (World × Option McoRef)
  | .create _ c usePrivate => .ok (w.mcoCreate c usePrivate, none)
  | .mainMco t e => w.mainMcoA A t e
  | .resume t co e => do
    let w ← w.mcoResumeA A t co e
    .ok (w, none)
  | .yield t co sp => do
    let w ← w.mcoYieldA A t co sp
    .ok (w, none)
  | .finish t sp => do
    let w ← w.coroutineRunA A t sp
    .ok (w, none)
  | .free t co => do
    let w ← liftStop (w.mcoFree t co)
    .ok (w, none)
  | .write _ a b => .ok ({ w with mem := Function.update w.mem a b }, none)

end World

end Fasco
