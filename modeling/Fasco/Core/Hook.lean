import Fasco.Core.Loop
import Fasco.Core.Op

/-!
# The System Call Hooks

`SysapiHook.cpp` and `Mcosops.h`, and the machine made of coroutines, pools,
loops and the kernel.

A hooked `read` or `accept` on a blocking descriptor does not block when
called in a coroutine. It registers the descriptor with the thread's loop,
makes the coroutine the one to be resumed for it, and yields; when control
comes back it withdraws its interest and makes the system call. What the call
keeps across the yield, in locals on the coroutine's stack, is the pointer to
the `Events` object: a `HookFrame`. If the yield comes back at once, because
there was nothing to suspend, the call goes on at once.

Each operation is atomic up to the next switch. Whether the `epoll_ctl` calls
it makes succeed is an input. The system calls at the end of the hooks change
no state that is modelled. Calls of the hooks by a thread's own code are not
modelled, with the exception of the loop's `read` from its `eventfd`, which
does not block and goes straight to the system call. Nor is `McoFree`: what a
suspended or running coroutine's frames, its resumer and the pools point to
stays alive, so a `Continuation` that goes has ended or has never run, and
nobody can name it again.

## Main definitions

* `HookFrame`: What a hooked call keeps while it is suspended.
* `Sys`: The state of the whole.
* `Sys.hooked`: The body `read` and `accept` share.
* `Sys.read`, `Sys.accept`, `Sys.close`: The hooks.
* `Sys.mcosopsResume`, `Sys.mcosopsYield`: `class Mcosops`.
* `Sys.dispatch`: One reported event in `EventLoop::loop`.
* `SysOp`, `Sys.step`: The operations of the program, the loops and the
  kernel.
* `Sys.Supplied`: What every operation can rely on.
* `SysInit`: The state before anything has happened.
-/

namespace Fasco

/-- The locals of a hooked call that is suspended, with the opening of the
    descriptor the call was made on. -/
structure HookFrame where
  fd : Fd
  event : EvRef
  opening : Nat
  deriving DecidableEq, Repr

/-- Coroutines, tables, hooked calls in progress, and for each thread the
    reported events its loop has not come to yet. -/
structure Sys where
  w : World
  io : Io
  frame : McoRef → Option HookFrame
  batch : Tid → List PollerEvent

namespace Io

/-- `auto event = Eventsops::GetEvents(fd)`, and a new object if that is
    null. -/
def eventsFor (s : Io) (t : Tid) (fd : Fd) : Except Abort (Io × EvRef) := do
  let (s, found) ← s.getEvents t fd
  match found with
  | some e => .ok (s, e)
  | none => .ok (s.newEvents t fd kReadEvent)

/-- A hooked `read` or `accept` of thread `t` up to its yield. The result is
    none if the system call is made right away, and otherwise the `Events`
    object kept. -/
def hookEnter (s : Io) (t : Tid) (fd : Fd) (ok : Bool) : Except Abort (Io × Option EvRef) :=
  if s.kern.nonblocking fd || !s.hookable then .ok (s, none)
  else
    match s.getMcoRoutine t fd with
    | some mco =>
      -- A coroutine has used the number before and has not closed it.
      if s.getCurMco t ≠ some mco then .error .notCurMco
      else do
        let (s, e) ← s.eventsFor t fd
        let s ← s.modifyEvents e (fun o => o.updateEvents kReadEvent)
        let s ← s.updateLoopEvents e ok
        .ok (s, some e)
    | none =>
      match s.getCurMco t with
      -- The thread's own code calls, and there is nothing to suspend.
      | none => .ok (s, none)
      | some mco => do
        -- First use: the table is not asked, a new object is made.
        let s := s.setMcoRoutine t fd mco
        let (s, e) := s.newEvents t fd kReadEvent
        let s ← s.updateLoopEvents e ok
        .ok (s, some e)

/-- The rest of the call, after the yield. -/
def hookLeave (s : Io) (e : EvRef) (ok : Bool) : Except Abort Io := do
  let s ← s.modifyEvents e (fun o => o.deleteEvent kReadEvent)
  let s ← s.updateLoopEvents e ok
  -- The local `event` goes when the call returns.
  s.release e

/-- The hooked `close`, on thread `t`. -/
def close (s : Io) (t : Tid) (fd : Fd) (ok : Bool) : Except Abort Io :=
  let s := { s with kern := s.kern.request fd }
  if !s.hookable then .ok { s with kern := s.kern.uniClose fd }
  else do
    let cur := s.getCurMco t
    let fdmco := s.getMcoRoutine t fd
    -- Two null pointers are equal too.
    let s := if cur = fdmco then s.setCurMco t none else s
    let s := s.removeMcoRoutine t fd
    let (s, event) ← s.getEvents t fd
    match event with
    | none => .ok { s with kern := s.kern.uniClose fd }
    | some e => do
      let s ← s.removeEventFromLoop e ok
      s.release e

end Io

/-- A coroutine operation as part of a larger one. -/
def liftMco {α : Type} : Except Fault α → Except Abort α
  | .ok a => .ok a
  | .error f => .error (.mco f)

namespace Sys

/-- `Mcosops::Resume(mco)`. -/
def mcosopsResume (s : Sys) (t : Tid) (mco : McoRef) (e : CallSite) : Except Abort Sys := do
  let w ← liftMco (s.w.mcoResume t (some mco) e)
  .ok { s with w := w, io := s.io.setCurMco t (some mco) }

/-- `Mcosops::Yield()`. -/
def mcosopsYield (s : Sys) (t : Tid) (sp : Nat) : Except Abort Sys :=
  match s.io.getCurMco t with
  | none => .ok s
  | some mco => do
    let w ← liftMco (s.w.mcoYield t (some mco) sp)
    .ok { s with w := w }

/-- The code of `c` goes on after the yield of the hooked call it is in. -/
def leave (s : Sys) (c : McoRef) (ok : Bool) : Except Abort Sys :=
  match s.frame c with
  | none => .error .badPointer
  | some fr => do
    let io ← s.io.hookLeave fr.event ok
    .ok { s with io := io, frame := Function.update s.frame c none }

/-- A hooked `read` or `accept`, up to the switch, or to its end if there is
    none. The two `epoll_ctl`s it can make succeed if `ok` and `ok'`. -/
def hooked (s : Sys) (t : Tid) (fd : Fd) (sp : Nat) (ok ok' : Bool) : Except Abort Sys :=
  match s.w.exec t with
  | none => .error .badPointer
  | some c => do
    let (io, event) ← { s.io with kern := s.io.kern.use fd c }.hookEnter t fd ok
    match event with
    | none => .ok { s with io := io }
    | some e => do
      let fr : HookFrame := { fd := fd, event := e, opening := s.io.kern.opening fd }
      let s := { s with io := io, frame := Function.update s.frame c (some fr) }
      let s ← s.mcosopsYield t sp
      -- If `c` still executes the yield came back at once.
      if s.w.exec t = some c then s.leave c ok' else .ok s

def read (s : Sys) (t : Tid) (fd : Fd) (sp : Nat) (ok ok' : Bool) : Except Abort Sys :=
  s.hooked t fd sp ok ok'

/-- On its straight path `accept` also sets the flags of the descriptor to
    what they are. -/
def accept (s : Sys) (t : Tid) (fd : Fd) (sp : Nat) (ok ok' : Bool) : Except Abort Sys :=
  s.hooked t fd sp ok ok'

def close (s : Sys) (t : Tid) (fd : Fd) (ok : Bool) : Except Abort Sys := do
  let io ← s.io.close t fd ok
  .ok { s with io := io }

/-- The loop of thread `t` comes to the next reported event. -/
def dispatch (s : Sys) (t : Tid) (e : CallSite) : Except Abort Sys :=
  match s.batch t with
  | [] => .error .badPointer
  | p :: rest => do
    let (io, mco) ← s.io.loopEntry t p
    let s := { s with io := io, batch := Function.update s.batch t rest }
    match mco with
    | none => .ok s
    | some mco => s.mcosopsResume t mco e

end Sys

/-- What happens next. -/
inductive SysOp where
  /-- A thread makes its loop and registers it. -/
  | newLoop (t : Tid) (fd : Fd)
  /-- The kernel gives the program a descriptor. -/
  | openFd (fd : Fd) (nonblock : Bool)
  /-- The program makes a `Continuation`. -/
  | spawn (c : McoRef)
  | resume (t : Tid) (c : McoRef) (e : CallSite)
  | yield (t : Tid) (sp : Nat)
  | finish (t : Tid) (sp : Nat)
  | read (t : Tid) (fd : Fd) (sp : Nat) (ok ok' : Bool)
  | accept (t : Tid) (fd : Fd) (sp : Nat) (ok ok' : Bool)
  /-- The coroutine executing goes on with the hooked call it is in. -/
  | wake (t : Tid) (ok : Bool)
  | close (t : Tid) (fd : Fd) (ok : Bool)
  /-- `epoll_wait` returns. -/
  | poll (t : Tid) (events : List (Fd × UInt32))
  | dispatch (t : Tid) (e : CallSite)
  deriving DecidableEq, Repr

namespace Sys

def step (s : Sys) : SysOp → Except Abort Sys
  | .newLoop t fd => do
    let io ← s.io.newLoop t fd
    .ok { s with io := io }
  | .openFd fd nonblock => .ok { s with io := { s.io with kern := s.io.kern.openFd fd nonblock } }
  | .spawn c => .ok { s with w := s.w.mcoCreate c false }
  | .resume t c e => s.mcosopsResume t c e
  | .yield t sp => s.mcosopsYield t sp
  -- The pools are not told that a callback has ended.
  | .finish t sp => do
    let w ← liftMco (s.w.coroutineRun t sp)
    .ok { s with w := w }
  | .read t fd sp ok ok' => s.read t fd sp ok ok'
  | .accept t fd sp ok ok' => s.accept t fd sp ok ok'
  | .wake t ok =>
    match s.w.exec t with
    | none => .error .badPointer
    | some c => s.leave c ok
  | .close t fd ok => s.close t fd ok
  | .poll t events =>
    let batch := events.map (fun p =>
      { fd := p.1, event := p.2, opening := s.io.kern.opening p.1 })
    .ok { s with batch := Function.update s.batch t batch }
  | .dispatch t e => s.dispatch t e

/-- The code of a coroutine that has been resumed on `t` executes, and is not
    inside a hooked call. -/
def InCoroutine (s : Sys) (t : Tid) : Prop :=
  1 < (s.w.callstack t).index ∧ ∀ c, s.w.exec t = some c → s.frame c = none

/-- The thread's own code executes. -/
def InMain (s : Sys) (t : Tid) : Prop := (s.w.callstack t).index ≤ 1

/-- Each descriptor is reported once, with events it is watched for, an error
    or a hang-up. -/
def Reported (s : Sys) (t : Tid) (events : List (Fd × UInt32)) : Prop :=
  (events.map Prod.fst).Nodup ∧
    ∀ p, p ∈ events → ∃ i, s.io.kern.interest t p.1 = some i ∧
      p.2 &&& ~~~(i ||| pollErr ||| pollHup) = 0

/-- What each operation can rely on. -/
def Supplied (s : Sys) : SysOp → Prop
  | .newLoop t fd => s.io.loop t = none ∧ s.io.kern.isOpen fd = false
  | .openFd fd _ => s.io.kern.isOpen fd = false
  | .spawn c => s.w.co c = none
  | .resume t c e => s.w.Supplied (.resume t (some c) e) ∧ s.w.InCode t ∧
      ∀ x, s.w.exec t = some x → s.frame x = none
  | .yield t sp => s.InCoroutine t ∧ s.w.InCode t ∧ s.w.OnStack t sp
  | .finish t sp => s.InCoroutine t ∧ s.w.InCode t ∧ s.w.Supplied (.finish t sp)
  | .read t _ sp _ _ => s.InCoroutine t ∧ s.w.InCode t ∧ s.w.OnStack t sp
  | .accept t _ sp _ _ => s.InCoroutine t ∧ s.w.InCode t ∧ s.w.OnStack t sp
  | .wake t _ => 1 < (s.w.callstack t).index ∧ ∃ c, s.w.exec t = some c ∧ (s.frame c).isSome
  | .close t _ _ => s.InCoroutine t ∧ s.w.InCode t
  | .poll t events => s.InMain t ∧ (s.io.loop t).isSome ∧ s.batch t = [] ∧ s.Reported t events
  | .dispatch t e => s.InMain t ∧ s.batch t ≠ [] ∧ s.w.InCode t ∧
      s.w.OnStack t e.sp ∧ s.w.FreshMain t e

/-! These conditions can be evaluated. -/

instance (s : Sys) (t : Tid) : Decidable (s.InCoroutine t) :=
  inferInstanceAs (Decidable (_ ∧ ∀ c, s.w.exec t = some c → s.frame c = none))

instance (s : Sys) (t : Tid) : Decidable (s.InMain t) :=
  inferInstanceAs (Decidable ((s.w.callstack t).index ≤ 1))

instance (s : Sys) (t : Tid) (events : List (Fd × UInt32)) : Decidable (s.Reported t events) :=
  inferInstanceAs (Decidable (_ ∧ ∀ p, p ∈ events → _))

instance (s : Sys) : ∀ a, Decidable (s.Supplied a)
  | .newLoop t fd =>
    decidable_of_iff ((s.io.loop t).isNone = true ∧ s.io.kern.isOpen fd = false)
      (and_congr_left' Option.isNone_iff_eq_none)
  | .openFd fd _ => inferInstanceAs (Decidable (s.io.kern.isOpen fd = false))
  | .spawn c => inferInstanceAs (Decidable (s.w.co c = none))
  | .resume _ _ _ => inferInstanceAs (Decidable (_ ∧ _ ∧ ∀ x, _ = some x → _))
  | .yield _ _ => inferInstanceAs (Decidable (_ ∧ _ ∧ _))
  | .finish _ _ => inferInstanceAs (Decidable (_ ∧ _ ∧ _))
  | .read _ _ _ _ _ => inferInstanceAs (Decidable (_ ∧ _ ∧ _))
  | .accept _ _ _ _ _ => inferInstanceAs (Decidable (_ ∧ _ ∧ _))
  | .wake _ _ => inferInstanceAs (Decidable (_ ∧ ∃ c, _ = some c ∧ _))
  | .close _ _ _ => inferInstanceAs (Decidable (_ ∧ _))
  | .poll _ _ => inferInstanceAs (Decidable (_ ∧ _ ∧ _ ∧ _))
  | .dispatch _ _ => inferInstanceAs (Decidable (_ ∧ _ ∧ _ ∧ _ ∧ _))

end Sys

/-- Nothing has been opened, made or registered. -/
structure SysInit (s : Sys) : Prop where
  world : Init s.w
  pool : ∀ t, s.io.pool t = { cur := none, fdMcos := fun _ => none }
  loop : ∀ t, s.io.loop t = none
  ev : ∀ e, s.io.ev e = none
  frame : ∀ c, s.frame c = none
  batch : ∀ t, s.batch t = []
  isOpen : ∀ fd, s.io.kern.isOpen fd = false
  interest : ∀ t fd, s.io.kern.interest t fd = none
  opening : ∀ fd, s.io.kern.opening fd = 0
  requested : ∀ fd n, s.io.kern.requested fd n = false
  closedCount : ∀ fd n, s.io.kern.closedCount fd n = 0
  user : ∀ fd, s.io.kern.user fd = none

/-- One such state, with the hooks on. -/
def Sys.blank : Sys where
  w := .blank
  io :=
    { hookable := true
      pool := fun _ => { cur := none, fdMcos := fun _ => none }
      loop := fun _ => none
      ev := fun _ => none
      nextEv := 0
      kern :=
        { isOpen := fun _ => false
          nonblock := fun _ => false
          interest := fun _ _ => none
          opening := fun _ => 0
          requested := fun _ _ => false
          closedCount := fun _ _ => 0
          user := fun _ => none } }
  frame := fun _ => none
  batch := fun _ => []

theorem sysBlank_init : SysInit .blank where
  world := blank_init
  pool := fun _ => rfl
  loop := fun _ => rfl
  ev := fun _ => rfl
  frame := fun _ => rfl
  batch := fun _ => rfl
  isOpen := fun _ => rfl
  interest := fun _ _ => rfl
  opening := fun _ => rfl
  requested := fun _ _ => rfl
  closedCount := fun _ _ => rfl
  user := fun _ => rfl

end Fasco
