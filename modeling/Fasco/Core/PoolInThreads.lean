import Mathlib.Logic.Function.Basic
import Fasco.Core.Asserts

/-!
# Objects of a Thread

`PoolInThreads<T>` is how the program keeps one object of a type for every
thread: a table from thread ids to objects, in which `Item` looks up an id and
makes the object if there is none. Nothing is ever taken out of a table, and
nothing in the program runs when a thread exits, so an object outlives its
thread. The kernel may give the id of an exited thread to a new one.

The three tables are those of `McoPool`, `McoCallStack` and
`McoStackManager`. An object is a position in the list of all objects made for
its table, in the order they were made; that no two ids have one object is
part of the structure. A thread uses an object through a pointer that `Item`
has given it. Of the calls on an object, those in `PoolKind.Call` are the
accessors of the three classes, and whatever the program does with an object
is a sequence of them. The size assertions of `McoCallStack` are read as
compiled out.

Each call of `Item` is one step, the lock of the table around it. That two
first calls race for `instance_` is left out.

## Main definitions

* `PoolInThreads`: The table of one type.
* `PoolInThreads.getT`: `Item`, for a thread id.
* `PoolInThreads.modify`: A call on an object.
* `PoolKind`: The three types, with their constructors and accessors.
* `PoolKind.Fresh`: The state a constructor leaves.
* `Threads`: The tables, and the threads with the pointers they have.
* `Threads.step`: A thread starts, exits, asks for an object or uses one.
* `Threads.Admits`: What the threads can do.
-/

namespace Fasco

/-- `class PoolInThreads<T>`: the table, and the objects made for it. -/
structure PoolInThreads (α : Type) where
  pools : Tid → Option Nat
  items : List α
  stored : ∀ t r, pools t = some r → r < items.length
  own : ∀ t u r, pools t = some r → pools u = some r → t = u

namespace PoolInThreads

variable {α : Type}

/-- No thread has asked for an object yet. -/
def empty : PoolInThreads α where
  pools := fun _ => none
  items := []
  stored := fun _ _ h => nomatch h
  own := fun _ _ _ h _ => nomatch h

/-- The object in the table for `tid`. -/
def find (p : PoolInThreads α) (tid : Tid) : Option α :=
  (p.pools tid).bind (fun r => p.items[r]?)

/-- A new object, `fresh`, is put into the table. -/
def insert (p : PoolInThreads α) (fresh : α) (tid : Tid) : PoolInThreads α where
  pools := Function.update p.pools tid (some p.items.length)
  items := p.items ++ [fresh]
  stored := by
    intro t r h
    rw [List.length_append, List.length_singleton]
    by_cases ht : t = tid
    · rw [ht, Function.update_self] at h
      injection h with h
      omega
    · rw [Function.update_of_ne ht] at h
      have hlt := p.stored t r h
      omega
  own := by
    -- The new reference is larger than those of all others.
    intro t u r ht hu
    by_cases h1 : t = tid <;> by_cases h2 : u = tid
    · exact h1.trans h2.symm
    · rw [h1, Function.update_self] at ht
      rw [Function.update_of_ne h2] at hu
      injection ht with ht
      have hlt := p.stored u r hu
      omega
    · rw [h2, Function.update_self] at hu
      rw [Function.update_of_ne h1] at ht
      injection hu with hu
      have hlt := p.stored t r ht
      omega
    · rw [Function.update_of_ne h1] at ht
      rw [Function.update_of_ne h2] at hu
      exact p.own t u r ht hu

/-- `getT(tid)`, with the reference it returns; `fresh` is what the
    constructor makes if it is called. -/
def getT (p : PoolInThreads α) (fresh : α) (tid : Tid) : PoolInThreads α × Nat :=
  match p.pools tid with
  | some r => (p, r)
  | none => (p.insert fresh tid, p.items.length)

/-- A call changes the object `r`. -/
def modify (p : PoolInThreads α) (r : Nat) (f : α → α) : PoolInThreads α where
  pools := p.pools
  items := p.items.modify r f
  stored := by
    intro t r' h
    rw [List.length_modify]
    exact p.stored t r' h
  own := p.own

end PoolInThreads

/-- The types there is an object of for every thread. -/
inductive PoolKind where
  | mcoPool
  | callStack
  | stackMgr
  deriving DecidableEq, Repr

/-- The accessors of `McoPool`. -/
inductive McoPoolCall where
  | getMcoRoutine (fd : Fd)
  | removeMcoRoutine (fd : Fd)
  | setMcoRoutine (fd : Fd) (co : McoRef)
  | getCurMco
  | setCurMco (mco : Option McoRef)
  deriving DecidableEq, Repr

/-- The accessors of `McoCallStack`; `getCurrIndex` and `operator[]` return
    references, which are read or assigned. -/
inductive CallStackCall where
  | getCurrIndex
  | setCurrIndex (i : Nat)
  | subscript (i : Nat)
  | put (i : Nat) (c : McoRef)
  | getCurMco
  deriving DecidableEq, Repr

/-- The accessors of `McoStackManager`. -/
inductive StackMgrCall where
  | createCommonMcoStack
  | createPrivateMcoStack
  | getCommonOccupy
  | setCommonOccupy (co : Option McoRef)
  deriving DecidableEq, Repr

def McoPoolCall.run (m : McoPoolCall) (p : McoPool) : McoPool :=
  match m with
  | .removeMcoRoutine fd => { p with fdMcos := Function.update p.fdMcos fd none }
  | .setMcoRoutine fd co => { p with fdMcos := Function.update p.fdMcos fd (some co) }
  | .setCurMco mco => { p with cur := mco }
  | .getMcoRoutine _ | .getCurMco => p

def CallStackCall.run (m : CallStackCall) (s : McoCallStack) : McoCallStack :=
  match m with
  | .getCurrIndex => s
  | .setCurrIndex i => { s with index := i }
  | .subscript i => s.touch i
  | .put i c => s.put i c
  | .getCurMco => if 0 < s.size then s.touch (sizeSub s.index 1) else s

def StackMgrCall.run (m : StackMgrCall) (g : McoStackManager) : McoStackManager :=
  match m with
  | .setCommonOccupy co => { g with commonOccupy := co }
  | .createCommonMcoStack | .createPrivateMcoStack | .getCommonOccupy => g

namespace PoolKind

/-- `T`. -/
abbrev Item : PoolKind → Type
  | .mcoPool => McoPool
  | .callStack => McoCallStack
  | .stackMgr => McoStackManager

abbrev Call : PoolKind → Type
  | .mcoPool => McoPoolCall
  | .callStack => CallStackCall
  | .stackMgr => StackMgrCall

/-- `new T`. The manager's constructor has default arguments and takes a
    block; the others take none. -/
def construct : (k : PoolKind) → Option Nat → k.Item
  | .mcoPool, _ => { cur := none, fdMcos := fun _ => none }
  | .callStack, _ => { callStack := fun _ => none, size := 0, index := 0 }
  | .stackMgr, blk => .construct (1024 * 1024 * 5) (1024 * 1024 * 5) blk

def run : (k : PoolKind) → k.Call → k.Item → k.Item
  | .mcoPool, m, x => McoPoolCall.run m x
  | .callStack, m, x => CallStackCall.run m x
  | .stackMgr, m, x => StackMgrCall.run m x

/-- The calls that change no object. -/
def reads : (k : PoolKind) → k.Call → Bool
  | .mcoPool, .getMcoRoutine _ => true
  | .mcoPool, .getCurMco => true
  | .callStack, .getCurrIndex => true
  | .stackMgr, .createCommonMcoStack => true
  | .stackMgr, .createPrivateMcoStack => true
  | .stackMgr, .getCommonOccupy => true
  | _, _ => false

/-- An object as its constructor leaves it: no current coroutine, no
    descriptor, index 0, no occupant. -/
def Fresh (k : PoolKind) (x : k.Item) : Prop := ∃ blk, x = k.construct blk

end PoolKind

/-- The three tables and the threads. `held` are the pointers a thread has.
    `asked` and `filled` record, for the current bearer of an id, whether it
    has called `Item()` and whether its object has been changed. -/
structure Threads where
  pool : (k : PoolKind) → PoolInThreads k.Item
  live : Tid → Bool
  held : Tid → PoolKind → Nat → Bool
  asked : Tid → PoolKind → Bool
  filled : Tid → PoolKind → Bool

/-- What a thread does. -/
inductive ThreadOp where
  | start (t : Tid)
  | exit (t : Tid)
  /-- `PoolInThreads<T>::Item()` on thread `u`. -/
  | item (u : Tid) (k : PoolKind) (blk : Option Nat)
  /-- `PoolInThreads<T>::Item(tid)` on thread `u`. -/
  | itemOf (u : Tid) (k : PoolKind) (tid : Tid) (blk : Option Nat)
  /-- Thread `u` uses the object `r`. -/
  | call (u : Tid) (k : PoolKind) (r : Nat) (m : k.Call)

namespace Threads

/-- Before anything is asked for. -/
def init (live : Tid → Bool) : Threads where
  pool := fun _ => .empty
  live := live
  held := fun _ _ _ => false
  asked := fun _ _ => false
  filled := fun _ _ => false

/-- A thread starts under the id `t`. -/
def start (s : Threads) (t : Tid) : Threads :=
  { s with
    live := Function.update s.live t true
    held := Function.update s.held t (fun _ _ => false)
    asked := Function.update s.asked t (fun _ => false)
    filled := Function.update s.filled t (fun _ => false) }

def exit (s : Threads) (t : Tid) : Threads := { s with live := Function.update s.live t false }

/-- Thread `u` asks the table `k` for the object of `tid`. -/
def getT (s : Threads) (u : Tid) (k : PoolKind) (tid : Tid) (blk : Option Nat) : Threads :=
  let q := (s.pool k).getT (k.construct blk) tid
  { s with
    pool := Function.update s.pool k q.1
    held := Function.update s.held u
      (Function.update (s.held u) k (Function.update (s.held u k) q.2 true)) }

def setAsked (s : Threads) (u : Tid) (k : PoolKind) : Threads :=
  { s with asked := Function.update s.asked u (Function.update (s.asked u) k true) }

/-- A call on the object `r`, which fills it for the id that has it. -/
def call (s : Threads) (k : PoolKind) (r : Nat) (m : k.Call) : Threads :=
  { s with
    pool := Function.update s.pool k ((s.pool k).modify r (k.run m))
    filled := fun t j =>
      s.filled t j || (decide (j = k) && !k.reads m && decide ((s.pool k).pools t = some r)) }

def step (s : Threads) : ThreadOp → Except Fault Threads
  | .start t => .ok (s.start t)
  | .exit t => .ok (s.exit t)
  | .item u k blk => .ok ((s.getT u k u blk).setAsked u k)
  | .itemOf u k tid blk => .ok (s.getT u k tid blk)
  | .call _ k r m => .ok (s.call k r m)

/-- A thread starts under an id that is free, and what it does it does while
    it lives and through pointers it has. -/
def Admits (s : Threads) : ThreadOp → Prop
  | .start t => s.live t = false
  | .exit t => s.live t = true
  | .item u _ _ => s.live u = true
  | .itemOf u _ _ _ => s.live u = true
  | .call u k r _ => s.live u = true ∧ s.held u k r = true

instance (s : Threads) : ∀ a, Decidable (s.Admits a)
  | .start _ | .exit _ | .item _ _ _ | .itemOf _ _ _ _ => inferInstanceAs (Decidable (_ = _))
  | .call _ _ _ _ => inferInstanceAs (Decidable (_ ∧ _))

end Threads

end Fasco
