import Fasco.Core.Op
import Fasco.Lib.Owned

/-!
# What the Coroutines Allocate

The calls of `new` and `delete` that the operations on coroutines make, with
the addresses, and the pointers that hold them.

A coroutine is five objects or more. `McoCreate` makes the `McoRoutine` and
its `McoContext`. `InitMcoContext`, called when the coroutine is first
resumed, makes the `Mcontext` and the `McoStack`, and `createPrivateMcoStack`
the block of a private one. `StoreUsedCommonStack` makes the copy that
`stack_tmp` points to, in place of the one before. All of them go in
`McoFree`, through the destructors. The common blocks belong to the managers
and are never deleted.

The constructor of `McoRoutine` sets its pointers to null, and that of
`McoStack` its own. `McoContext` has no constructor, so that `ctx` is not set
before `InitMcoContext`; to delete such a pointer is a fault.

## Main definitions

* `Place`: The pointers that own something.
* `News`: The addresses `new` returns.
* `World.calls`: The calls of `new` and `delete` in an operation.
* `Heap`: The program state with the owners and what is allocated.
* `Heap.releases`: What `McoFree` deletes.
* `Heap.step`: One operation.
-/

namespace Fasco

open Owned

/-- The pointers by which a coroutine's memory is owned. -/
inductive Pocket where
  /-- The pointer `McoCreate` returns. -/
  | self
  /-- `coctx`, and its `ctx`. -/
  | coctx
  | ctx
  /-- `stack`, and its `stack_tmp`, and its `stack` where that is private. -/
  | stack
  | stackTmp
  | block
  deriving DecidableEq, Repr

inductive Place where
  | of (c : McoRef) (k : Pocket)
  /-- `commonStack_` of the manager of a thread. -/
  | common (t : Tid)
  deriving DecidableEq, Repr

/-- The addresses `new` returns in an operation, those apart that the
    operation names itself. -/
structure News where
  coctx : Nat
  ctx : Nat
  stack : Nat
  stackTmp : Nat
  mainCoctx : Nat
  mainCtx : Nat
  mainStack : Nat
  deriving DecidableEq, Repr

/-- A call of `new` or `delete`. -/
abbrev HeapCall := Call Place Nat

/-- `McoCreate`. -/
def createCalls (c : McoRef) (coctx : Nat) : List HeapCall :=
  [.new (.of c .self) c, .new (.of c .coctx) coctx]

/-- `InitMcoContext`. -/
def initCalls (c : McoRef) (usePrivate : Bool) (ctx stack blk : Nat) : List HeapCall :=
  [.new (.of c .ctx) ctx, .new (.of c .stack) stack] ++
    if usePrivate then [.new (.of c .block) blk] else []

/-- The destructors, in the order in which they are called. -/
def freeCalls (c : McoRef) : List HeapCall :=
  [.delete (.of c .stackTmp), .delete (.of c .block), .delete (.of c .stack),
    .delete (.of c .ctx), .delete (.of c .coctx), .delete (.of c .self)]

namespace World

/-- `StoreUsedCommonStack` of the stack of `o`. -/
def storeCalls (w : World) (o : McoRef) (x : News) : List HeapCall :=
  match w.stack o with
  | none => []
  | some s =>
    if s.isPrivate then []
    else [.delete (.of o .stackTmp), .new (.of o .stackTmp) x.stackTmp]

/-- `McoSwap(sink, co)`. -/
def swapCalls (w : World) (t : Tid) (co : McoRef) (x : News) : List HeapCall :=
  match w.stack co with
  | none => []
  | some s =>
    if s.isPrivate then []
    else
      match (w.mgr t).commonOccupy with
      | none => []
      | some o =>
        -- The occupant stays: nothing is copied out.
        if o = co then []
        else
          match w.co o with
          | none => []
          -- An occupant that has ended needs its copy no more.
          | some r => if r.finished then [] else w.storeCalls o x

/-- `MainMco`. -/
def mainCalls (w : World) (t : Tid) (e : CallSite) (x : News) : List HeapCall :=
  if (w.callstack t).index = 0 then
    createCalls e.main x.mainCoctx ++ initCalls e.main true x.mainCtx x.mainStack e.mainBlk
  else []

/-- `McoYield(co)`. -/
def yieldCalls (w : World) (t : Tid) (co : Option McoRef) (x : News) : List HeapCall :=
  match co with
  | none => []
  | some c =>
    match w.co c with
    | none => []
    | some r =>
      if !r.running || r.finished then []
      else
        match r.sink with
        | none => []
        | some s => (w.setCo c r.giveUp).swapCalls t s x

/-- `McoResume(co)`. -/
def resumeCalls (w : World) (t : Tid) (co : Option McoRef) (e : CallSite) (x : News) :
    List HeapCall :=
  match co with
  | none => []
  | some c =>
    match w.co c with
    | none => []
    | some r =>
      if r.running || r.finished then []
      else
        let v := (w.mainMco t e).1
        w.mainCalls t e x ++
          match (v.callstack t).fromTop 1 with
          | none => []
          | some cur =>
            match v.co cur with
            | none => []
            | some rcur =>
              -- Resuming the parent is a yield, and a coroutine that has been resumed before
              -- has what it needs.
              if rcur.sink = some c then v.yieldCalls t (some cur) x
              else if r.start then v.swapCalls t c x
              else
                initCalls c r.usePrivate x.ctx x.stack e.blk ++
                  (v.initMcoContext t c r e.blk).2.swapCalls t c x

/-- The calls of `new` and `delete` in an operation. -/
def calls (w : World) (x : News) : Op → List HeapCall
  | .create _ c _ => createCalls c x.coctx
  | .mainMco t e => w.mainCalls t e x
  | .resume t co e => w.resumeCalls t co e x
  | .yield t co _ => w.yieldCalls t co x
  | .finish t _ =>
    match w.exec t with
    | none => []
    | some c =>
      match w.co c with
      | none => []
      | some r => (w.setCo c { r with done := true }).yieldCalls t (some c) x
  | .free _ co =>
    match co with
    | none => []
    | some c =>
      match w.co c with
      | none => []
      -- A running coroutine is only marked.
      | some r => if r.running then [] else freeCalls c
  | .write _ _ _ => []

end World

/-- The program state, with the owners of what is allocated. -/
structure Heap where
  world : World
  ledger : Ledger Place Nat

/-- An operation, with the addresses `new` returns in it. -/
structure HeapOp where
  op : Op
  news : News
  deriving DecidableEq, Repr

namespace Heap

/-- The pointers `McoFree(c)` deletes, in that order, null pointers left out;
    none is a pointer that has not been assigned. -/
def releases (h : Heap) (c : McoRef) : List (Option Nat) :=
  match h.world.co c with
  | none => []
  | some r =>
    if r.running then []
    else
      (match h.world.stack c with
        | none => []
        | some s =>
          (if (h.ledger.own (.of c .stackTmp)).isSome then [h.ledger.own (.of c .stackTmp)]
            else []) ++
          -- The block of a common stack belongs to the manager.
          (if s.isPrivate then [some s.stack] else []) ++ [h.ledger.own (.of c .stack)]) ++
      [h.ledger.own (.of c .ctx), h.ledger.own (.of c .coctx), some c]

/-- What is deleted is assigned and allocated, and nothing is deleted twice. -/
def Deletable (h : Heap) (ps : List (Option Nat)) : Prop :=
  (∀ p ∈ ps, p.any h.ledger.live = true) ∧ ps.Nodup

instance (h : Heap) (ps : List (Option Nat)) : Decidable (h.Deletable ps) :=
  inferInstanceAs (Decidable (_ ∧ _))

/-- What an operation deletes. -/
def deleted (h : Heap) : Op → List (Option Nat)
  | .free _ (some c) => h.releases c
  | _ => []

def step (h : Heap) (a : HeapOp) : Except Fault Heap :=
  if h.Deletable (h.deleted a.op) then do
    let w ← h.world.step a.op
    .ok { world := w, ledger := h.ledger.run (h.world.calls a.news a.op) }
  else .error .badPointer

/-- What every operation can rely on; `new` returns addresses that are not in
    use. -/
def Supplied (h : Heap) (a : HeapOp) : Prop :=
  Admissible h.world a.op ∧ h.ledger.Supplied (h.world.calls a.news a.op)

instance (h : Heap) (a : HeapOp) : Decidable (h.Supplied a) := inferInstanceAs (Decidable (_ ∧ _))

/-- Nothing is allocated but the common blocks. -/
structure Init (h : Heap) : Prop where
  world : Fasco.Init h.world
  common : ∀ t, h.ledger.own (.common t) = some (h.world.mgr t).commonStack
  empty : ∀ c k, h.ledger.own (.of c k) = none
  live : ∀ a, h.ledger.live a = true ↔ ∃ t, (h.world.mgr t).commonStack = a

/-- One such state. -/
def blank : Heap where
  world := World.blank
  ledger :=
    { own := fun p => match p with
        | .of _ _ => none
        | .common t => some (0x10000 * (t + 1))
      live := fun a => decide (0x10000 ≤ a ∧ a % 0x10000 = 0) }

theorem blank_init : Init blank where
  world := Fasco.blank_init
  common := fun _ => rfl
  empty := fun _ _ => rfl
  live := by
    intro a
    change decide (0x10000 ≤ a ∧ a % 0x10000 = 0) = true ↔ ∃ t, 0x10000 * (t + 1) = a
    rw [decide_eq_true_eq]
    constructor
    · rintro ⟨h1, h2⟩
      exact ⟨a / 0x10000 - 1, by omega⟩
    · rintro ⟨t, rfl⟩
      omega

end Heap

end Fasco
