import Fasco.Core.Hook
import Fasco.Core.LoopPool

/-!
# The Server

`TcpServer.cpp`: the coroutine that accepts connections on the main loop and
hands each to a loop, and the coroutines that read from them. The threads take
turns between any two calls of `McoPool`, `EventLoop` and `EventLoopPool`.

The hooks and the body of `EventLoop::loop` are those of `Core.Hook`, cut into
single calls. A coroutine's code is at a position, `Pos`, which names the next
such call and keeps the locals that are still needed; a loop is at a `Turn`.
What the code does between two calls goes with the one before or after it. A
loop is named by the tid of its thread, which does not change: `loop->getTid()`
is the loop itself.

`client_call` holds its `Events` object twice, in the callback and in its
parameter, which is made when the callback begins and goes when it ends. A
`Continuation` goes when nothing points to it any more, which can be on any
thread and takes the callback's pointer along. That is a step of its own here,
so that it can come late. The pointers that a coroutine in a hooked call has
to itself are not counted.

What the system calls return is an input, and so is whether an `epoll_ctl`
succeeds. `Kernel.requested`, `Kernel.closedCount` and `Kernel.user` are not
kept.

## Main definitions

* `Corun`: What a callback is bound to.
* `Pos`: Where the code of a coroutine is.
* `Turn`: Where the loop of a thread is.
* `TcpSys`: Threads, loops, connections and the kernel.
* `TcpSys.code`, `TcpSys.closeCode`: The next call of a coroutine.
* `TcpSys.loopCode`: The next call of a loop.
* `TcpOp`, `TcpSys.step`: What happens next.
* `TcpSys.Supplied`: What every step can rely on.
* `TcpInit`: The state before anything has happened.
-/

namespace Fasco

namespace Io

/-- `EventLoop::updateEvents` of the loop of thread `l`. -/
def updateEvents (s : Io) (l : Tid) (e : EvRef) (ok : Bool) : Except Abort Io :=
  match s.loop l with
  | none => .error .badPointer
  | some loop => s.pollUpdate l loop e ok

/-- The body of the `for` in `EventLoop::loop` up to the look into the pool:
    the descriptor whose coroutine is to be resumed, if any. -/
def loopFind (s : Io) (t : Tid) (p : PollerEvent) : Except Abort (Io × Option Fd) :=
  match s.loop t with
  | none => .error .badPointer
  | some l =>
    match l.events p.fd with
    | none => .ok (s, none)
    | some e =>
      match s.ev e with
      | none => .error .badPointer
      | some c =>
        let h := (c.obj.setMutable p.event).eventHandleAble
        let s := s.setEv e (some { c with obj := h.2 })
        if !h.1 then .ok (s, none)
        else if l.wakeFd = h.2.fd then .ok (s, none)
        else .ok (s, some h.2.fd)

/-- With the look into the pool it is the body up to the resume. -/
theorem loopEntry_eq (s : Io) (t : Tid) (p : PollerEvent) :
    s.loopEntry t p
      = (s.loopFind t p).map (fun r => (r.1, r.2.bind (fun fd => r.1.getMcoRoutine t fd))) := by
  unfold loopEntry loopFind
  cases s.loop t with
  | none => rfl
  | some l =>
      simp only []
      cases l.events p.fd with
      | none => rfl
      | some e =>
          simp only []
          cases s.ev e with
          | none => rfl
          | some c =>
              simp only []
              by_cases h : (!(c.obj.setMutable p.event).eventHandleAble.1) = true
              · rw [if_pos h, if_pos h]
                rfl
              · rw [if_neg h, if_neg h]
                by_cases hw : l.wakeFd = (c.obj.setMutable p.event).eventHandleAble.2.fd
                · rw [if_pos hw, if_pos hw]
                  rfl
                · rw [if_neg hw, if_neg hw]
                  rfl

end Io

/-- What the callback of a coroutine is bound to: `TcpServer::accept` to a
    server, with its `events_`, its socket and its `loop_`; `client_call` to
    an `Events` object, with the descriptor that `accept` returned and the
    loop that `GetNextLoop` did for the record. -/
structure Corun where
  accepts : Bool
  event : EvRef
  fd : Fd
  loop : Tid
  deriving DecidableEq, Repr

/-- How far a new coroutine has been handed over. -/
inductive HandOver where
  | made
  /-- The pool of its thread has it for its descriptor. -/
  | mapped
  /-- The loop of its thread watches the descriptor. -/
  | registered
  deriving DecidableEq, Repr

/-- The three times a hooked call reports to the loop. -/
inductive Report where
  | ask
  /-- With a new object, for a descriptor that had no coroutine. -/
  | enrol
  /-- After the yield. -/
  | withdraw
  deriving DecidableEq, Repr

def Report.change : Report → Events → Events
  | .ask, o => o.updateEvents kReadEvent
  | .enrol, o => o
  | .withdraw, o => o.deleteEvent kReadEvent

/-- In the hooked `close`. -/
inductive ClosePos where
  /-- Before `getCurMco`. -/
  | cur
  /-- Before `getMcoRoutine`. -/
  | fdmco (cur : Option McoRef)
  /-- Before `setCurMco(nullptr)`. -/
  | clear
  /-- Before `removeMcoRoutine`. -/
  | remove
  /-- Before `GetLoop` in `GetEvents`. -/
  | look
  /-- Before `getEvents`. -/
  | find (l : Tid)
  /-- Before `GetLoop` in `RemoveEventFromLoop`. -/
  | ask (e : EvRef)
  /-- Before `updateEvents`. -/
  | tell (e : EvRef) (l : Tid)
  /-- Before the return. -/
  | out (e : EvRef)
  deriving DecidableEq, Repr

/-- Where the code of a coroutine is. -/
inductive Pos where
  /-- The callback has not begun. -/
  | fresh (h : HandOver)
  /-- At the beginning of the callback. -/
  | start
  /-- At the head of its `while`, before `GetMcoRoutine` in the hook. -/
  | top
  /-- Before `GetCurMco` in the assertion. -/
  | check (fd : Fd) (mco : McoRef)
  /-- Before `GetLoop` in `GetEvents`. -/
  | look (fd : Fd)
  /-- Before `getEvents`. -/
  | find (fd : Fd) (l : Tid)
  /-- Before `GetCurMco`, for a descriptor that has no coroutine. -/
  | alone (fd : Fd)
  /-- Before `SetMcoRoutine`. -/
  | enrol (fd : Fd) (mco : McoRef)
  /-- Before `GetLoop` in `UpdateLoopEvents`. -/
  | report (fd : Fd) (e : EvRef) (r : Report)
  /-- Before `updateEvents`. -/
  | tell (fd : Fd) (e : EvRef) (l : Tid) (r : Report)
  /-- Before `GetCurMco` in `Yield`. -/
  | yield (fd : Fd) (e : EvRef)
  /-- Before the switch. -/
  | switch (fd : Fd) (e : EvRef) (mco : McoRef)
  /-- Suspended in a hooked call. -/
  | asleep (fd : Fd) (e : EvRef)
  /-- Before `uni_read` or `uni_accept`. -/
  | sys (fd : Fd)
  /-- Before `GetNextLoop`. -/
  | accepted (fd : Fd)
  /-- Before `getTid`. -/
  | made (fd : Fd) (e : EvRef) (l : Tid)
  /-- Before `SetMcoRoutine` on the pool of another thread. -/
  | give (fd : Fd) (e : EvRef) (l : Tid) (co : McoRef)
  /-- Before `updateEvents` on the loop of another thread. -/
  | enter (e : EvRef) (l : Tid) (co : McoRef)
  /-- At the end of the body, where `event` and `co` go. -/
  | leave (e : EvRef) (co : McoRef)
  | close (fd : Fd) (p : ClosePos)
  /-- At the end of the callback. -/
  | finish
  | ended
  deriving DecidableEq, Repr

/-- A coroutine that is resumed begins its callback, or comes back from the
    yield of a hooked call. -/
def Pos.wake : Pos → Pos
  | .fresh _ => .start
  | .asleep fd e => .report fd e .withdraw
  | p => p

/-- Where the loop of a thread is. -/
inductive Turn where
  /-- At the head of the `for`, or in `epoll_wait`. -/
  | idle
  /-- Before `GetMcoRoutine`. -/
  | found (fd : Fd)
  /-- Before `SetCurMco` in `Resume`. -/
  | resume (mco : McoRef)
  /-- Before the switch. -/
  | enter (mco : McoRef)
  /-- The resumed coroutine executes. -/
  | inside (mco : McoRef)
  /-- At the end of the body, where `mco` goes. -/
  | after (mco : McoRef)
  deriving DecidableEq, Repr

/-- Control is back with the loop. -/
def Turn.back : Turn → Turn
  | .inside c => .after c
  | r => r

/-- Coroutines, tables and the registry; the callback and the position of
    every coroutine; the turn of every loop, and the reported events it has
    not come to yet. `server` is the coroutine of the server that has been
    started. -/
structure TcpSys where
  w : World
  io : Io
  loops : EventLoopPool
  corun : McoRef → Option Corun
  pos : McoRef → Option Pos
  turn : Tid → Turn
  batch : Tid → List PollerEvent
  server : Option McoRef

/-- What the machine supplies at a step. -/
structure Supply where
  site : CallSite
  /-- Whether an `epoll_ctl` succeeds. -/
  ok : Bool
  /-- What `uni_accept` returns, none for an error, and whether that
      descriptor is nonblocking. -/
  accepted : Option (Fd × Bool)
  /-- Whether `uni_read` returns a positive number. -/
  more : Bool
  /-- The address of the next coroutine. -/
  co : McoRef
  deriving DecidableEq, Repr

namespace TcpSys

/-- The code of `c` is at `p`, and the tables are `io`. -/
def go (s : TcpSys) (c : McoRef) (io : Io) (p : Pos) : TcpSys :=
  { s with io := io, pos := Function.update s.pos c (some p) }

/-- The hand-over of `co`, which has not begun, has come to `h`. -/
def handed (s : TcpSys) (co : McoRef) (h : HandOver) : TcpSys :=
  match s.pos co with
  | some (.fresh _) => s.go co s.io (.fresh h)
  | _ => s

def setTurn (s : TcpSys) (t : Tid) (r : Turn) : TcpSys :=
  { s with turn := Function.update s.turn t r }

/-- `server_.getSocket()`, or `event->getFd()`. -/
def getFd (s : TcpSys) (k : Corun) : Except Abort Fd :=
  if k.accepts then .ok k.fd
  else
    match s.io.ev k.event with
    | none => .error .badPointer
    | some x => .ok x.obj.fd

/-- After `UpdateLoopEvents` a hooked call yields, or its object goes and it
    makes the system call. -/
def reported (s : TcpSys) (c : McoRef) (io : Io) (fd : Fd) (e : EvRef) :
    Report → Except Abort TcpSys
  | .withdraw => do
    let io ← io.release e
    .ok (s.go c io (.sys fd))
  | _ => .ok (s.go c io (.yield fd e))

/-- The next call in the hooked `close`, made on thread `t` by `c`. -/
def closeCode (s : TcpSys) (t : Tid) (c : McoRef) (i : Supply) (fd : Fd) :
    ClosePos → Except Abort TcpSys
  | .cur =>
    if !s.io.hookable then .ok (s.go c { s.io with kern := s.io.kern.uniClose fd } .finish)
    else .ok (s.go c s.io (.close fd (.fdmco (s.io.getCurMco t))))
  | .fdmco cur =>
    if cur = s.io.getMcoRoutine t fd then .ok (s.go c s.io (.close fd .clear))
    else .ok (s.go c s.io (.close fd .remove))
  | .clear => .ok (s.go c (s.io.setCurMco t none) (.close fd .remove))
  | .remove => .ok (s.go c (s.io.removeMcoRoutine t fd) (.close fd .look))
  | .look =>
    match s.loops.getLoop t with
    | none => .ok (s.go c { s.io with kern := s.io.kern.uniClose fd } .finish)
    | some l => .ok (s.go c s.io (.close fd (.find l)))
  | .find l => do
    let r ← s.io.getEvents l fd
    match r.2 with
    | none => .ok (s.go c { r.1 with kern := r.1.kern.uniClose fd } .finish)
    | some e => .ok (s.go c r.1 (.close fd (.ask e)))
  | .ask e =>
    match s.io.ev e with
    | none => .error .badPointer
    | some x =>
      match s.loops.getLoop x.obj.tid with
      | none => .error .noLoop
      | some l => do
        let io ← s.io.modifyEvents e (fun o => o.setState .DEL)
        .ok (s.go c io (.close fd (.tell e l)))
  | .tell e l => do
    let io ← s.io.updateEvents l e i.ok
    .ok (s.go c io (.close fd (.out e)))
  | .out e => do
    let io ← s.io.release e
    .ok (s.go c io .finish)

/-- The next call of the coroutine `c`, whose callback is bound to `k`, on
    thread `t`. -/
def code (s : TcpSys) (t : Tid) (c : McoRef) (k : Corun) (i : Supply) : Pos → Except Abort TcpSys
  | .fresh _ => .error .badPointer
  | .asleep _ _ => .error .badPointer
  | .ended => .error .badPointer
  | .start =>
    if k.accepts then
      -- `loop_->assertInOwnerThread()`.
      if k.loop = t then .ok (s.go c s.io .top) else .error .noLoop
    else do
      let io ← s.io.share k.event
      .ok (s.go c io .top)
  | .top => do
    let fd ← s.getFd k
    if s.io.kern.nonblocking fd || !s.io.hookable then .ok (s.go c s.io (.sys fd))
    else
      match s.io.getMcoRoutine t fd with
      | some mco => .ok (s.go c s.io (.check fd mco))
      | none => .ok (s.go c s.io (.alone fd))
  | .check fd mco =>
    if s.io.getCurMco t ≠ some mco then .error .notCurMco
    else .ok (s.go c s.io (.look fd))
  | .look fd =>
    match s.loops.getLoop t with
    | some l => .ok (s.go c s.io (.find fd l))
    | none =>
      let r := s.io.newEvents t fd kReadEvent
      .ok (s.go c r.1 (.report fd r.2 .ask))
  | .find fd l => do
    let r ← s.io.getEvents l fd
    match r.2 with
    | some e => .ok (s.go c r.1 (.report fd e .ask))
    | none =>
      let r := r.1.newEvents t fd kReadEvent
      .ok (s.go c r.1 (.report fd r.2 .ask))
  | .alone fd =>
    match s.io.getCurMco t with
    | none => .ok (s.go c s.io (.sys fd))
    | some mco => .ok (s.go c s.io (.enrol fd mco))
  | .enrol fd mco =>
    let r := (s.io.setMcoRoutine t fd mco).newEvents t fd kReadEvent
    .ok (s.go c r.1 (.report fd r.2 .enrol))
  | .report fd e r => do
    let io ← s.io.modifyEvents e r.change
    match io.ev e with
    | none => .error .badPointer
    | some x =>
      match s.loops.getLoop x.obj.tid with
      | none => s.reported c io fd e r
      | some l => .ok (s.go c io (.tell fd e l r))
  | .tell fd e l r => do
    let io ← s.io.updateEvents l e i.ok
    s.reported c io fd e r
  | .yield fd e =>
    match s.io.getCurMco t with
    | none => .ok (s.go c s.io (.report fd e .withdraw))
    | some mco => .ok (s.go c s.io (.switch fd e mco))
  | .switch fd e mco => do
    let w ← liftMco (s.w.mcoYield t (some mco) i.site.sp)
    if w.exec t = some c then .ok { s.go c s.io (.report fd e .withdraw) with w := w }
    else .ok { (s.go c s.io (.asleep fd e)).setTurn t (s.turn t).back with w := w }
  | .sys _ =>
    if k.accepts then
      match i.accepted with
      | none => .ok (s.go c s.io .top)
      | some (g, nonblock) =>
        let io := { s.io with kern := s.io.kern.openFd g nonblock }
        .ok (s.go c io (if 0 < g then .accepted g else .top))
    else if i.more then .ok (s.go c s.io .top)
    else do
      let fd ← s.getFd k
      .ok (s.go c s.io (.close fd .cur))
  | .accepted g =>
    let r := s.loops.getNextLoop
    match r.2 with
    | none => .error .badPointer
    | some l =>
      let n := s.io.newEvents t g kReadEvent
      .ok { s.go c n.1 (.made g n.2 l) with loops := r.1 }
  | .made g e l =>
    match s.io.loop l with
    | none => .error .badPointer
    | some _ => do
      -- The new callback has a pointer of its own.
      let io ← s.io.share e
      let s := (s.go i.co io (.fresh .made)).go c io (.give g e l i.co)
      .ok { s with
        w := s.w.mcoCreate i.co false
        corun := Function.update s.corun i.co
          (some { accepts := false, event := e, fd := g, loop := l }) }
  | .give g e l co => do
    let io ← (s.io.setMcoRoutine l g co).modifyEvents e (fun o => o.setTid l)
    .ok ((s.handed co .mapped).go c io (.enter e l co))
  | .enter e l co => do
    let io ← s.io.updateEvents l e i.ok
    .ok ((s.handed co .registered).go c io (.leave e co))
  | .leave e _ => do
    let io ← s.io.release e
    .ok (s.go c io .top)
  | .close fd p => s.closeCode t c i fd p
  | .finish => do
    -- The parameter of the callback goes.
    let io ← s.io.release k.event
    let w ← liftMco (s.w.coroutineRun t i.site.sp)
    .ok { (s.go c io .ended).setTurn t (s.turn t).back with w := w }

/-- The next call of the loop of thread `t`. -/
def loopCode (s : TcpSys) (t : Tid) (i : Supply) : Turn → Except Abort TcpSys
  | .idle =>
    match s.batch t with
    | [] => .error .badPointer
    | p :: rest => do
      let r ← s.io.loopFind t p
      let s := { s with io := r.1, batch := Function.update s.batch t rest }
      match r.2 with
      | none => .ok s
      | some fd => .ok (s.setTurn t (.found fd))
  | .found fd =>
    match s.io.getMcoRoutine t fd with
    | none => .ok (s.setTurn t .idle)
    | some mco => .ok (s.setTurn t (.resume mco))
  | .resume mco => .ok { s.setTurn t (.enter mco) with io := s.io.setCurMco t (some mco) }
  | .enter mco => do
    let w ← liftMco (s.w.mcoResume t (some mco) i.site)
    if w.exec t = some mco then
      .ok { s.setTurn t (.inside mco) with
        w := w
        pos := Function.update s.pos mco ((s.pos mco).map Pos.wake) }
    else .ok { s.setTurn t (.after mco) with w := w }
  | .inside _ =>
    match s.w.exec t with
    | none => .error .badPointer
    | some c =>
      match s.corun c, s.pos c with
      | some k, some p => s.code t c k i p
      | _, _ => .error .badPointer
  | .after _ => .ok (s.setTurn t .idle)

end TcpSys

/-- What happens next. -/
inductive TcpOp where
  /-- A thread makes its loop, with the `eventfd` `fd`, and adds it. -/
  | addLoop (t : Tid) (fd : Fd) (ismain : Bool)
  /-- `TcpServer::start`, for a server that listens on `fd`. -/
  | start (t : Tid) (fd : Fd) (c : McoRef) (ok : Bool)
  /-- `epoll_wait` returns. -/
  | poll (t : Tid) (events : List (Fd × UInt32))
  /-- The code on thread `t` makes its next call. -/
  | run (t : Tid) (i : Supply)
  /-- The last pointer to a `Continuation` goes, on thread `t`. -/
  | drop (t : Tid) (c : McoRef)
  deriving DecidableEq, Repr

/-- It is the end of a `Continuation`. -/
def TcpOp.drops : TcpOp → Bool
  | .drop _ _ => true
  | _ => false

namespace TcpSys

/-- `TcpServer` and its `start`, on thread `t`. -/
def start (s : TcpSys) (t : Tid) (fd : Fd) (c : McoRef) (ok : Bool) : Except Abort TcpSys :=
  let r := ({ s.io with kern := s.io.kern.openFd fd false } : Io).newEvents t fd kReadEvent
  match s.loops.mainLoop with
  | none => .ok { s with io := r.1 }
  | some l => do
    let io ← (r.1.setMcoRoutine t fd c).updateEvents l r.2 ok
    .ok { s.go c io (.fresh .registered) with
      w := s.w.mcoCreate c false
      corun := Function.update s.corun c
        (some { accepts := true, event := r.2, fd := fd, loop := l })
      server := some c }

def step (s : TcpSys) : TcpOp → Except Abort TcpSys
  | .addLoop t fd ismain => do
    let io ← s.io.newLoop t fd
    .ok { s with io := io, loops := (s.loops.addEventLoop t (some t) ismain).1 }
  | .start t fd c ok => s.start t fd c ok
  | .poll t events =>
    let batch := events.map (fun p =>
      { fd := p.1, event := p.2, opening := s.io.kern.opening p.1 })
    .ok { s with batch := Function.update s.batch t batch }
  | .run t i => s.loopCode t i (s.turn t)
  | .drop t c =>
    match s.corun c with
    | none => .error .badPointer
    | some k => do
      let w ← liftMco (s.w.mcoFree t (some c))
      let io ← s.io.release k.event
      .ok { s with
        w := w
        io := io
        corun := Function.update s.corun c none
        pos := Function.update s.pos c none }

end TcpSys

/-- The coroutine the loop has a pointer to. -/
def Turn.mco : Turn → Option McoRef
  | .resume c => some c
  | .enter c => some c
  | .inside c => some c
  | .after c => some c
  | _ => none

/-- The coroutine that code at this position has a pointer to. -/
def Pos.mco : Pos → Option McoRef
  | .check _ c => some c
  | .enrol _ c => some c
  | .switch _ _ c => some c
  | .give _ _ _ c => some c
  | .enter _ _ c => some c
  | .leave _ c => some c
  | .close _ (.fdmco c) => c
  | _ => none

namespace TcpSys

/-- Nothing points to the coroutine. -/
def Unheld (s : TcpSys) (c : McoRef) : Prop :=
  (∀ t, (s.io.pool t).cur ≠ some c ∧ (∀ fd, (s.io.pool t).fdMcos fd ≠ some c) ∧
    (s.turn t).mco ≠ some c) ∧
  ∀ d p, s.pos d = some p → p.mco ≠ some c

/-- What each step can rely on: `new` returns an address that is not in use,
    the kernel a descriptor that is not open, and there is one server, started
    on the thread of the main loop. What `epoll_wait` reports can be anything. -/
def Supplied (s : TcpSys) : TcpOp → Prop
  | .addLoop t fd _ => s.io.loop t = none ∧ s.io.kern.isOpen fd = false ∧ s.turn t = .idle
  | .start t fd c _ => s.loops.mainLoop = some t ∧ s.server = none ∧
      s.io.kern.isOpen fd = false ∧ s.w.co c = none ∧ s.turn t = .idle
  | .poll t _ => s.turn t = .idle ∧ s.batch t = [] ∧ (s.io.loop t).isSome
  | .run t i => (s.io.loop t).isSome ∧ (s.turn t = .idle → s.batch t ≠ []) ∧
      s.w.FreshMain t i.site ∧ s.w.co i.co = none ∧
      ∀ r, i.accepted = some r → s.io.kern.isOpen r.1 = false
  | .drop _ c => (s.corun c).isSome ∧ s.Unheld c

/-! Without the end of a `Continuation` these conditions can be evaluated. -/

instance (s : TcpSys) : ∀ a, Decidable (a.drops = false ∧ s.Supplied a)
  | .addLoop t fd _ =>
    decidable_of_iff ((s.io.loop t).isNone = true ∧ s.io.kern.isOpen fd = false ∧ s.turn t = .idle)
      ⟨fun h => ⟨rfl, Option.isNone_iff_eq_none.mp h.1, h.2⟩,
        fun h => ⟨Option.isNone_iff_eq_none.mpr h.2.1, h.2.2⟩⟩
  | .start _ _ _ _ => inferInstanceAs (Decidable (_ ∧ _ ∧ _ ∧ _ ∧ _ ∧ _))
  | .poll _ _ => inferInstanceAs (Decidable (_ ∧ _ ∧ _ ∧ _))
  | .run _ _ => inferInstanceAs (Decidable (_ ∧ _ ∧ _ ∧ _ ∧ _ ∧ ∀ r, _ = some r → _))
  | .drop _ _ => isFalse (fun h => Bool.noConfusion h.1)

end TcpSys

/-- Nothing has been opened, made or registered, and the hooks are on. -/
structure TcpInit (s : TcpSys) : Prop where
  world : Init s.w
  hookable : s.io.hookable = true
  loop : ∀ t, s.io.loop t = none
  ev : ∀ e, s.io.ev e = none
  loops : s.loops = .construct
  corun : ∀ c, s.corun c = none
  pos : ∀ c, s.pos c = none
  turn : ∀ t, s.turn t = .idle
  server : s.server = none

/-- One such state. -/
def TcpSys.blank : TcpSys where
  w := .blank
  io := Sys.blank.io
  loops := .construct
  corun := fun _ => none
  pos := fun _ => none
  turn := fun _ => .idle
  batch := fun _ => []
  server := none

theorem tcpBlank_init : TcpInit .blank where
  world := blank_init
  hookable := rfl
  loop := fun _ => rfl
  ev := fun _ => rfl
  loops := rfl
  corun := fun _ => rfl
  pos := fun _ => rfl
  turn := fun _ => rfl
  server := rfl

end Fasco
