import Fasco.Lib.Run
import Fasco.Core.Routine

/-!
# Runs of Coroutine Operations

The operations the code on some thread can perform, as actions of one machine
over the whole program state. Each `McoResume` or `McoYield`, up to and
including its switch, is one step; so is the end of a callback, which goes
through `CoroutineRun`.

`Admissible` is what the machine and the language provide rather than what
any caller promises: a pointer passed in points to a live object, `new`
returns an address that is not in use, the local whose address `McoSwap`
takes lies on the stack of the code that called it, and code that has run to
its end makes no further calls. Addresses of freed objects may be handed out
again.

## Main definitions

* `Op`: The operations, each with the thread that performs it.
* `World.step`: One operation.
* `Admissible`: What every operation can rely on.
* `Init`: The state before any thread has used a coroutine.
-/

namespace Fasco

/-- What the code running on a thread does next. -/
inductive Op where
  | create (t : Tid) (c : McoRef) (usePrivate : Bool)
  | mainMco (t : Tid) (e : CallSite)
  | resume (t : Tid) (co : Option McoRef) (e : CallSite)
  | yield (t : Tid) (co : Option McoRef) (sp : Nat)
  /-- The callback of the coroutine running on the thread ends. -/
  | finish (t : Tid) (sp : Nat)
  | free (t : Tid) (co : Option McoRef)
  /-- The running coroutine stores a byte on its stack. -/
  | write (t : Tid) (a : Nat) (b : UInt8)
  deriving DecidableEq, Repr

def Op.thread : Op → Tid
  | .create t _ _ => t
  | .mainMco t _ => t
  | .resume t _ _ => t
  | .yield t _ _ => t
  | .finish t _ => t
  | .free t _ => t
  | .write t _ _ => t

namespace World

def step (w : World) : Op → Except Fault World
  | .create _ c usePrivate => .ok (w.mcoCreate c usePrivate)
  | .mainMco t e => .ok (w.mainMco t e).1
  | .resume t co e => w.mcoResume t co e
  | .yield t co sp => w.mcoYield t co sp
  | .finish t sp => w.coroutineRun t sp
  | .free t co => w.mcoFree t co
  | .write _ a b => .ok { w with mem := Function.update w.mem a b }

/-- The pointer is null or points to a live coroutine. -/
def Live (w : World) (co : Option McoRef) : Prop :=
  ∀ c, co = some c → (w.co c).isSome

/-- The address lies on the stack of the code running on `t`, where that is
    a common block. -/
def OnStack (w : World) (t : Tid) (sp : Nat) : Prop :=
  ∀ c s, w.exec t = some c → w.stack c = some s → s.isPrivate = false →
    s.stack ≤ sp ∧ sp ≤ s.stackBp

/-- The object a thread's first call will make for the thread's own code gets
    an address that is not in use. -/
def FreshMain (w : World) (t : Tid) (e : CallSite) : Prop :=
  (w.callstack t).index = 0 → w.co e.main = none

/-- The code running on `t` has not run to its end. -/
def InCode (w : World) (t : Tid) : Prop :=
  ∀ c r, w.exec t = some c → w.co c = some r → r.finished = false

/-- What each operation can rely on. -/
def Supplied (w : World) : Op → Prop
  | .create _ c _ => w.co c = none
  | .mainMco t e => w.FreshMain t e
  | .resume t co e => w.Live co ∧ w.OnStack t e.sp ∧ w.FreshMain t e
  | .yield t co sp => w.Live co ∧ w.OnStack t sp
  | .finish t sp =>
      (∃ c r, w.exec t = some c ∧ w.co c = some r ∧ r.isMain = false) ∧ w.OnStack t sp
  | .free _ co => w.Live co
  | .write t a _ =>
      ∃ c s, w.exec t = some c ∧ w.stack c = some s ∧ s.isPrivate = false ∧
        s.stack ≤ a ∧ a < s.stack + s.size

/-! These conditions can be evaluated. -/

/-- A condition on the value of an option, if it has one. -/
instance decidableForallSome {α : Type*} (P : α → Prop) [DecidablePred P] :
    ∀ o : Option α, Decidable (∀ a, o = some a → P a)
  | none => isTrue (fun _ h => nomatch h)
  | some a => decidable_of_iff (P a)
      ⟨fun h _ hb => Option.some.inj hb ▸ h, fun h => h a rfl⟩

instance decidableExistsSome {α : Type*} (P : α → Prop) [DecidablePred P] :
    ∀ o : Option α, Decidable (∃ a, o = some a ∧ P a)
  | none => isFalse (fun ⟨_, h, _⟩ => nomatch h)
  | some a => decidable_of_iff (P a)
      ⟨fun h => ⟨a, rfl, h⟩, fun ⟨_, hb, h⟩ => Option.some.inj hb ▸ h⟩

instance (w : World) (co : Option McoRef) : Decidable (w.Live co) :=
  inferInstanceAs (Decidable (∀ c, co = some c → _))

instance (w : World) (t : Tid) (sp : Nat) : Decidable (w.OnStack t sp) :=
  decidable_of_iff
    (∀ c, w.exec t = some c → ∀ s, w.stack c = some s → s.isPrivate = false →
      s.stack ≤ sp ∧ sp ≤ s.stackBp)
    ⟨fun h c s hc hs => h c hc s hs, fun h c hc s hs => h c s hc hs⟩

instance (w : World) (t : Tid) (e : CallSite) : Decidable (w.FreshMain t e) :=
  inferInstanceAs (Decidable (_ → _))

instance (w : World) (t : Tid) : Decidable (w.InCode t) :=
  decidable_of_iff
    (∀ c, w.exec t = some c → ∀ r, w.co c = some r → r.finished = false)
    ⟨fun h c r hc hr => h c hc r hr, fun h c hc r hr => h c r hc hr⟩

instance (w : World) : ∀ a, Decidable (w.Supplied a)
  | .create _ c _ => inferInstanceAs (Decidable (w.co c = none))
  | .mainMco t e => inferInstanceAs (Decidable (w.FreshMain t e))
  | .resume _ _ _ => inferInstanceAs (Decidable (_ ∧ _ ∧ _))
  | .yield _ _ _ => inferInstanceAs (Decidable (_ ∧ _))
  | .finish t sp => decidable_of_iff
      ((∃ c, w.exec t = some c ∧ ∃ r, w.co c = some r ∧ r.isMain = false) ∧ w.OnStack t sp)
      ⟨fun ⟨⟨c, hc, r, hr, hm⟩, h⟩ => ⟨⟨c, r, hc, hr, hm⟩, h⟩,
        fun ⟨⟨c, r, hc, hr, hm⟩, h⟩ => ⟨⟨c, hc, r, hr, hm⟩, h⟩⟩
  | .free _ co => inferInstanceAs (Decidable (w.Live co))
  | .write t a _ => decidable_of_iff
      (∃ c, w.exec t = some c ∧ ∃ s, w.stack c = some s ∧ s.isPrivate = false ∧
        s.stack ≤ a ∧ a < s.stack + s.size)
      ⟨fun ⟨c, hc, s, h⟩ => ⟨c, s, hc, h⟩, fun ⟨c, s, hc, h⟩ => ⟨c, hc, s, h⟩⟩

end World

/-- What the machine and the language provide to every operation. -/
def Admissible (w : World) (a : Op) : Prop := w.InCode a.thread ∧ w.Supplied a

instance (w : World) (a : Op) : Decidable (Admissible w a) :=
  inferInstanceAs (Decidable (_ ∧ _))

/-- Nothing has been created, and the common blocks of two threads do not
    overlap. -/
structure Init (w : World) : Prop where
  co : ∀ c, w.co c = none
  stack : ∀ c, w.stack c = none
  callstack : ∀ t, w.callstack t = { callStack := fun _ => none, size := 0, index := 0 }
  exec : ∀ t, w.exec t = none
  occupy : ∀ t, (w.mgr t).commonOccupy = none
  blocks : ∀ t u, t ≠ u →
    (w.mgr t).commonStack + (w.mgr t).commonSize ≤ (w.mgr u).commonStack ∨
      (w.mgr u).commonStack + (w.mgr u).commonSize ≤ (w.mgr t).commonStack
  sized : ∀ t, 0 < (w.mgr t).commonSize

/-- One such state: the manager of thread `t` has asked for a page, and got it
    at `0x10000 * (t + 1)`. -/
def World.blank : World where
  co := fun _ => none
  stack := fun _ => none
  callstack := fun _ => { callStack := fun _ => none, size := 0, index := 0 }
  mgr := fun t => .construct 0x1000 0x1000 (some (0x10000 * (t + 1)))
  exec := fun _ => none
  mem := fun _ => 0

theorem blank_init : Init World.blank where
  co := fun _ => rfl
  stack := fun _ => rfl
  callstack := fun _ => rfl
  exec := fun _ => rfl
  occupy := fun _ => rfl
  blocks := by
    intro t u htu
    have hgap : ∀ a b : Nat, a < b → 0x10000 * (a + 1) + 0x1000 ≤ 0x10000 * (b + 1) :=
      fun a b h => by omega
    rcases Nat.lt_or_gt_of_ne htu with h | h
    · exact .inl (hgap t u h)
    · exact .inr (hgap u t h)
  sized := fun _ => Nat.zero_lt_succ 0xfff

/-- The call stack of thread `t` has `c` in slot `i`, below its index. -/
def World.InSlot (w : World) (t : Tid) (i : Nat) (c : McoRef) : Prop :=
  i < (w.callstack t).index ∧ (w.callstack t).slot i = some c

/-- The topmost coroutine of a thread's call stack. -/
def World.top (w : World) (t : Tid) : Option McoRef := (w.callstack t).fromTop 1

end Fasco
