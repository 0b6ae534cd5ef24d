import Fasco.Lib.Run
import Fasco.Core.TcpServer

/-!
# The Outcomes of a Call

The code of the server has a branch for every test that the source makes. The
two relations here have a constructor for every branch that returns, with what
the calls in it have returned, and `code_outcome` and `loopCode_outcome` go
through the branches once and for all. Whatever is said about every call of a
coroutine or a loop is read off the constructors.

Nearly every call of a coroutine changes the tables and where the coroutine is,
and nothing else: these are `Moves`. The exceptions are the switch, the choice
of a loop, the hand-over of a connection and the end of the callback. The only
calls that fail in coroutine code are the switch, the end and the resume.

## Main definitions

* `NoMco`: A computation in which no coroutine operation can fail.
* `TcpSys.CloseMoves`, `TcpSys.Moves`: What a call does to the tables, and
  where the coroutine comes to.
* `TcpSys.CodeOutcome`: How a call of a coroutine ends.
* `TcpSys.LoopOutcome`: How a call of a loop does.

## Theorems

* `closeCode_outcome`, `code_outcome`: The calls of a coroutine.
* `loopCode_outcome`: Those of a loop.
* `code_returns`, `run_outcome`: How they return.
-/

namespace Fasco

open Fallible

/-- If the computation stops, no coroutine operation is to blame. -/
def NoMco {α : Type} (x : Except Abort α) : Prop := ∀ g, x ≠ .error (.mco g)

section

variable {α β : Type}

theorem noMco_ok (a : α) : NoMco (.ok a : Except Abort α) := by
  intro g h
  cases h

/-- Nor of two parts of which neither fails in that way. -/
theorem NoMco.bind {x : Except Abort α} {f : α → Except Abort β} (hx : NoMco x)
    (hf : ∀ a, NoMco (f a)) : NoMco (x >>= f) :=
  fun g => bind_ne_error (hx g) (fun a _ => hf a g)

end

namespace Io

variable (s : Io)

/-- The calls on objects and tables are of this kind. -/
theorem share_noMco (e : EvRef) : NoMco (s.share e) := by
  intro g
  unfold share
  cases s.ev e with
  | none => exact fun h => by cases h
  | some x => exact noMco_ok _ g

theorem modifyEvents_noMco (e : EvRef) (f : Events → Events) : NoMco (s.modifyEvents e f) := by
  intro g
  unfold modifyEvents
  cases s.ev e with
  | none => exact fun h => by cases h
  | some x => exact noMco_ok _ g

theorem release_noMco (e : EvRef) : NoMco (s.release e) := by
  intro g
  unfold release
  cases s.ev e with
  | none => exact fun h => by cases h
  | some x =>
      simp only []
      by_cases hx : x.useCount ≤ 1
      · rw [if_pos hx]
        exact noMco_ok _ g
      · rw [if_neg hx]
        exact noMco_ok _ g

theorem getEvents_noMco (t : Tid) (fd : Fd) : NoMco (s.getEvents t fd) := by
  unfold getEvents
  cases s.loop t with
  | none => exact noMco_ok _
  | some l =>
      simp only []
      cases l.events fd with
      | none => exact noMco_ok _
      | some e => exact (share_noMco s e).bind (fun _ => noMco_ok _)

theorem tableAdd_noMco (t : Tid) (l : EventLoop) (e : EvRef) (o : Events) (ok : Bool) :
    NoMco (s.tableAdd t l e o ok) :=
  (share_noMco s e).bind (fun _ => noMco_ok _)

/-- So are those that change what a loop watches. -/
theorem pollUpdate_noMco (t : Tid) (l : EventLoop) (e : EvRef) (ok : Bool) :
    NoMco (s.pollUpdate t l e ok) := by
  unfold pollUpdate
  cases s.ev e with
  | none => exact fun g h => by cases h
  | some x =>
      simp only []
      by_cases hinv : x.obj.invaild = true
      · rw [if_pos hinv]
        exact noMco_ok _
      rw [if_neg hinv]
      by_cases hnew : x.obj.isnew = true
      · rw [if_pos hnew]
        cases l.events x.obj.fd with
        | some _ => exact fun g h => by cases h
        | none => exact tableAdd_noMco s t l e x.obj ok
      rw [if_neg hnew]
      by_cases hmod : x.obj.ismod = true
      · rw [if_pos hmod]
        cases l.events x.obj.fd with
        | some _ => exact noMco_ok _
        | none => exact tableAdd_noMco s t l e x.obj ok
      rw [if_neg hmod]
      by_cases hdel : x.obj.isdel = true
      · rw [if_pos hdel]
        cases l.events x.obj.fd with
        | some old => exact release_noMco _ old
        | none => exact fun g h => by cases h
      rw [if_neg hdel]
      exact noMco_ok _

theorem updateEvents_noMco (l : Tid) (e : EvRef) (ok : Bool) : NoMco (s.updateEvents l e ok) := by
  unfold updateEvents
  cases s.loop l with
  | none => exact fun g h => by cases h
  | some loop => exact pollUpdate_noMco s l loop e ok

theorem newLoop_noMco (t : Tid) (fd : Fd) : NoMco (s.newLoop t fd) := by
  unfold newLoop
  exact pollUpdate_noMco _ t _ _ true

/-- So is what the loop does with a report before the switch. -/
theorem loopFind_noMco (t : Tid) (p : PollerEvent) : NoMco (s.loopFind t p) := by
  unfold loopFind
  cases s.loop t with
  | none => exact fun g h => by cases h
  | some l =>
      simp only []
      cases l.events p.fd with
      | none => exact noMco_ok _
      | some e =>
          simp only []
          cases s.ev e with
          | none => exact fun g h => by cases h
          | some x =>
              simp only []
              by_cases h : (!(x.obj.setMutable p.event).eventHandleAble.1) = true
              · rw [if_pos h]
                exact noMco_ok _
              · rw [if_neg h]
                by_cases hw : l.wakeFd = (x.obj.setMutable p.event).eventHandleAble.2.fd
                · rw [if_pos hw]
                  exact noMco_ok _
                · rw [if_neg hw]
                  exact noMco_ok _

end Io

namespace TcpSys

theorem getFd_noMco (s : TcpSys) (k : Corun) : NoMco (s.getFd k) := by
  unfold getFd
  by_cases ha : k.accepts = true
  · rw [if_pos ha]
    exact noMco_ok _
  · rw [if_neg ha]
    cases s.io.ev k.event with
    | none => exact fun g h => by cases h
    | some x => exact noMco_ok _

/-! ### A call of a coroutine -/

/-- After `UpdateLoopEvents` with the tables `io`. -/
inductive AfterReport (io : Io) (fd : Fd) (e : EvRef) : Report → Io → Pos → Prop where
  | waits {r : Report} (h : r ≠ .withdraw) : AfterReport io fd e r io (.yield fd e)
  | released {io' : Io} (h : io.release e = .ok io') : AfterReport io fd e .withdraw io' (.sys fd)

/-- The next call in the hooked `close`, on thread `t`. -/
inductive CloseMoves (s : TcpSys) (t : Tid) (i : Supply) (fd : Fd) :
    ClosePos → Io → Pos → Prop where
  | unhooked (h : s.io.hookable = false) :
      CloseMoves s t i fd .cur { s.io with kern := s.io.kern.uniClose fd } .finish
  | asked (h : s.io.hookable = true) :
      CloseMoves s t i fd .cur s.io (.close fd (.fdmco (s.io.getCurMco t)))
  | same {m : Option McoRef} (h : m = s.io.getMcoRoutine t fd) :
      CloseMoves s t i fd (.fdmco m) s.io (.close fd .clear)
  | other {m : Option McoRef} (h : m ≠ s.io.getMcoRoutine t fd) :
      CloseMoves s t i fd (.fdmco m) s.io (.close fd .remove)
  | cleared : CloseMoves s t i fd .clear (s.io.setCurMco t none) (.close fd .remove)
  | removed : CloseMoves s t i fd .remove (s.io.removeMcoRoutine t fd) (.close fd .look)
  | loopless (h : s.loops.getLoop t = none) :
      CloseMoves s t i fd .look { s.io with kern := s.io.kern.uniClose fd } .finish
  | looked {l : Tid} (h : s.loops.getLoop t = some l) :
      CloseMoves s t i fd .look s.io (.close fd (.find l))
  | missing {l : Tid} {io : Io} (h : s.io.getEvents l fd = .ok (io, none)) :
      CloseMoves s t i fd (.find l) { io with kern := io.kern.uniClose fd } .finish
  | found {l : Tid} {io : Io} {e : EvRef} (h : s.io.getEvents l fd = .ok (io, some e)) :
      CloseMoves s t i fd (.find l) io (.close fd (.ask e))
  | marked {e : EvRef} {x : EventsCell} {l : Tid} {io : Io} (hx : s.io.ev e = some x)
      (hl : s.loops.getLoop x.obj.tid = some l)
      (h : s.io.modifyEvents e (fun o => o.setState .DEL) = .ok io) :
      CloseMoves s t i fd (.ask e) io (.close fd (.tell e l))
  | told {e : EvRef} {l : Tid} {io : Io} (h : s.io.updateEvents l e i.ok = .ok io) :
      CloseMoves s t i fd (.tell e l) io (.close fd (.out e))
  | released {e : EvRef} {io : Io} (h : s.io.release e = .ok io) :
      CloseMoves s t i fd (.out e) io .finish

/-- The next call of a coroutine, whose callback is bound to `k`, on thread `t`,
    if it does nothing else. -/
inductive Moves (s : TcpSys) (t : Tid) (k : Corun) (i : Supply) : Pos → Io → Pos → Prop where
  | begins (ha : k.accepts = true) (hl : k.loop = t) : Moves s t k i .start s.io .top
  | binds {io : Io} (ha : k.accepts = false) (h : s.io.share k.event = .ok io) :
      Moves s t k i .start io .top
  | plain {fd : Fd} (h : s.getFd k = .ok fd)
      (hb : (s.io.kern.nonblocking fd || !s.io.hookable) = true) :
      Moves s t k i .top s.io (.sys fd)
  | hooked {fd : Fd} {m : McoRef} (h : s.getFd k = .ok fd)
      (hb : (s.io.kern.nonblocking fd || !s.io.hookable) = false)
      (hm : s.io.getMcoRoutine t fd = some m) : Moves s t k i .top s.io (.check fd m)
  | unmapped {fd : Fd} (h : s.getFd k = .ok fd)
      (hb : (s.io.kern.nonblocking fd || !s.io.hookable) = false)
      (hm : s.io.getMcoRoutine t fd = none) : Moves s t k i .top s.io (.alone fd)
  | checked {fd : Fd} {m : McoRef} (h : s.io.getCurMco t = some m) :
      Moves s t k i (.check fd m) s.io (.look fd)
  | looked {fd : Fd} {l : Tid} (h : s.loops.getLoop t = some l) :
      Moves s t k i (.look fd) s.io (.find fd l)
  | loopless {fd : Fd} (h : s.loops.getLoop t = none) :
      Moves s t k i (.look fd) (s.io.newEvents t fd kReadEvent).1
        (.report fd (s.io.newEvents t fd kReadEvent).2 .ask)
  | found {fd : Fd} {l : Tid} {io : Io} {e : EvRef}
      (h : s.io.getEvents l fd = .ok (io, some e)) :
      Moves s t k i (.find fd l) io (.report fd e .ask)
  | missing {fd : Fd} {l : Tid} {io : Io} (h : s.io.getEvents l fd = .ok (io, none)) :
      Moves s t k i (.find fd l) (io.newEvents t fd kReadEvent).1
        (.report fd (io.newEvents t fd kReadEvent).2 .ask)
  | outside {fd : Fd} (h : s.io.getCurMco t = none) : Moves s t k i (.alone fd) s.io (.sys fd)
  | current {fd : Fd} {m : McoRef} (h : s.io.getCurMco t = some m) :
      Moves s t k i (.alone fd) s.io (.enrol fd m)
  | enrolled {fd : Fd} {m : McoRef} :
      Moves s t k i (.enrol fd m) ((s.io.setMcoRoutine t fd m).newEvents t fd kReadEvent).1
        (.report fd ((s.io.setMcoRoutine t fd m).newEvents t fd kReadEvent).2 .enrol)
  | changed {fd : Fd} {e : EvRef} {r : Report} {io : Io} {x : EventsCell} {l : Tid}
      (h : s.io.modifyEvents e r.change = .ok io) (hx : io.ev e = some x)
      (hl : s.loops.getLoop x.obj.tid = some l) :
      Moves s t k i (.report fd e r) io (.tell fd e l r)
  | unheard {fd : Fd} {e : EvRef} {r : Report} {io io' : Io} {x : EventsCell} {p' : Pos}
      (h : s.io.modifyEvents e r.change = .ok io) (hx : io.ev e = some x)
      (hl : s.loops.getLoop x.obj.tid = none) (hr : AfterReport io fd e r io' p') :
      Moves s t k i (.report fd e r) io' p'
  | told {fd : Fd} {e : EvRef} {l : Tid} {r : Report} {io io' : Io} {p' : Pos}
      (h : s.io.updateEvents l e i.ok = .ok io) (hr : AfterReport io fd e r io' p') :
      Moves s t k i (.tell fd e l r) io' p'
  | unyielding {fd : Fd} {e : EvRef} (h : s.io.getCurMco t = none) :
      Moves s t k i (.yield fd e) s.io (.report fd e .withdraw)
  | yields {fd : Fd} {e : EvRef} {m : McoRef} (h : s.io.getCurMco t = some m) :
      Moves s t k i (.yield fd e) s.io (.switch fd e m)
  | refused {fd : Fd} (ha : k.accepts = true) (h : i.accepted = none) :
      Moves s t k i (.sys fd) s.io .top
  | accepted {fd g : Fd} {nonblock : Bool} (ha : k.accepts = true)
      (h : i.accepted = some (g, nonblock)) :
      Moves s t k i (.sys fd) { s.io with kern := s.io.kern.openFd g nonblock }
        (if 0 < g then .accepted g else .top)
  | again {fd : Fd} (ha : k.accepts = false) (h : i.more = true) :
      Moves s t k i (.sys fd) s.io .top
  | stops {fd g : Fd} (ha : k.accepts = false) (h : i.more = false) (hg : s.getFd k = .ok g) :
      Moves s t k i (.sys fd) s.io (.close g .cur)
  | left {e : EvRef} {co : McoRef} {io : Io} (h : s.io.release e = .ok io) :
      Moves s t k i (.leave e co) io .top
  | closes {fd : Fd} {q : ClosePos} {io : Io} {p' : Pos} (h : CloseMoves s t i fd q io p') :
      Moves s t k i (.close fd q) io p'

/-- How the next call of `c` ends, on thread `t`. -/
inductive CodeOutcome (s : TcpSys) (t : Tid) (c : McoRef) (k : Corun) (i : Supply) :
    Pos → Except Abort TcpSys → Prop where
  | fails {p : Pos} {f : Abort} (h : ∀ g, f ≠ .mco g) : CodeOutcome s t c k i p (.error f)
  | moves {p p' : Pos} {io : Io} (h : Moves s t k i p io p') :
      CodeOutcome s t c k i p (.ok (s.go c io p'))
  /-- The yield does not return. -/
  | unyielded {fd : Fd} {e : EvRef} {m : McoRef} {g : Fault}
      (h : s.w.mcoYield t (some m) i.site.sp = .error g) :
      CodeOutcome s t c k i (.switch fd e m) (.error (.mco g))
  /-- It has done nothing. -/
  | stays {fd : Fd} {e : EvRef} {m : McoRef} {w : World}
      (h : s.w.mcoYield t (some m) i.site.sp = .ok w) (hx : w.exec t = some c) :
      CodeOutcome s t c k i (.switch fd e m)
        (.ok { s.go c s.io (.report fd e .withdraw) with w := w })
  | sleeps {fd : Fd} {e : EvRef} {m : McoRef} {w : World}
      (h : s.w.mcoYield t (some m) i.site.sp = .ok w) (hx : w.exec t ≠ some c) :
      CodeOutcome s t c k i (.switch fd e m)
        (.ok { (s.go c s.io (.asleep fd e)).setTurn t (s.turn t).back with w := w })
  | chosen {g : Fd} {l : Tid} (h : s.loops.getNextLoop.2 = some l) :
      CodeOutcome s t c k i (.accepted g)
        (.ok { s.go c (s.io.newEvents t g kReadEvent).1
            (.made g (s.io.newEvents t g kReadEvent).2 l) with loops := s.loops.getNextLoop.1 })
  | made {g : Fd} {e : EvRef} {l : Tid} {loop : EventLoop} {io : Io}
      (hl : s.io.loop l = some loop) (h : s.io.share e = .ok io) :
      CodeOutcome s t c k i (.made g e l)
        (.ok { (s.go i.co io (.fresh .made)).go c io (.give g e l i.co) with
          w := s.w.mcoCreate i.co false
          corun := Function.update s.corun i.co
            (some { accepts := false, event := e, fd := g, loop := l }) })
  | given {g : Fd} {e : EvRef} {l : Tid} {co : McoRef} {io : Io}
      (h : (s.io.setMcoRoutine l g co).modifyEvents e (fun o => o.setTid l) = .ok io) :
      CodeOutcome s t c k i (.give g e l co)
        (.ok ((s.handed co .mapped).go c io (.enter e l co)))
  | entered {e : EvRef} {l : Tid} {co : McoRef} {io : Io}
      (h : s.io.updateEvents l e i.ok = .ok io) :
      CodeOutcome s t c k i (.enter e l co)
        (.ok ((s.handed co .registered).go c io (.leave e co)))
  | unended {io : Io} {g : Fault} (hio : s.io.release k.event = .ok io)
      (h : s.w.coroutineRun t i.site.sp = .error g) :
      CodeOutcome s t c k i .finish (.error (.mco g))
  | ended {io : Io} {w : World} (hio : s.io.release k.event = .ok io)
      (h : s.w.coroutineRun t i.site.sp = .ok w) :
      CodeOutcome s t c k i .finish
        (.ok { (s.go c io .ended).setTurn t (s.turn t).back with w := w })

section Code

variable (s : TcpSys) (t : Tid) (c : McoRef) (k : Corun) (i : Supply) {p : Pos}

variable {s t c k i} in
/-- The call begins with one that fails, or goes on from what that returns. -/
theorem CodeOutcome.after {α : Type} {x : Except Abort α} {f : α → Except Abort TcpSys}
    (hx : NoMco x) (hf : ∀ a, x = .ok a → CodeOutcome s t c k i p (f a)) :
    CodeOutcome s t c k i p (x >>= f) := by
  cases x with
  | ok a => exact hf a rfl
  | error f => exact .fails (fun g h => hx g (by rw [h]))

variable {s t c k i} in
/-- What follows `UpdateLoopEvents` is a move. -/
theorem reported_outcome {io : Io} {fd : Fd} {e : EvRef} {r : Report}
    (h : ∀ io' p', AfterReport io fd e r io' p' → Moves s t k i p io' p') :
    CodeOutcome s t c k i p (s.reported c io fd e r) := by
  cases r with
  | withdraw =>
      exact .after (Io.release_noMco io e) (fun io' hio' => .moves (h io' _ (.released hio')))
  | ask => exact .moves (h io _ (.waits (fun h => by cases h)))
  | enrol => exact .moves (h io _ (.waits (fun h => by cases h)))

/-- Every call in the hooked `close` ends in one of these ways. -/
theorem closeCode_outcome (fd : Fd) (q : ClosePos) :
    CodeOutcome s t c k i (.close fd q) (s.closeCode t c i fd q) := by
  cases q with
  | cur =>
      rw [closeCode]
      by_cases h : (!s.io.hookable) = true
      · rw [if_pos h]
        exact .moves (.closes (.unhooked ((Bool.not_eq_true' _).mp h)))
      · rw [if_neg h]
        exact .moves (.closes (.asked (by simpa using h)))
  | fdmco m =>
      rw [closeCode]
      by_cases h : m = s.io.getMcoRoutine t fd
      · rw [if_pos h]
        exact .moves (.closes (.same h))
      · rw [if_neg h]
        exact .moves (.closes (.other h))
  | clear => exact .moves (.closes .cleared)
  | remove => exact .moves (.closes .removed)
  | look =>
      rw [closeCode]
      cases hl : s.loops.getLoop t with
      | none => exact .moves (.closes (.loopless hl))
      | some l => exact .moves (.closes (.looked hl))
  | find l =>
      refine .after (Io.getEvents_noMco s.io l fd) (fun ⟨io, r⟩ h => ?_)
      cases r with
      | none => exact .moves (.closes (.missing h))
      | some e => exact .moves (.closes (.found h))
  | ask e =>
      rw [closeCode]
      cases hx : s.io.ev e with
      | none => exact .fails (fun g h => by cases h)
      | some x =>
          simp only []
          cases hl : s.loops.getLoop x.obj.tid with
          | none => exact .fails (fun g h => by cases h)
          | some l =>
              exact .after (Io.modifyEvents_noMco s.io e _)
                (fun io h => .moves (.closes (.marked hx hl h)))
  | tell e l =>
      exact .after (Io.updateEvents_noMco s.io l e i.ok)
        (fun io h => .moves (.closes (.told h)))
  | out e => exact .after (Io.release_noMco s.io e) (fun io h => .moves (.closes (.released h)))

/-- Every call of a coroutine ends in one of these ways. -/
theorem code_outcome (p : Pos) : CodeOutcome s t c k i p (s.code t c k i p) := by
  cases p with
  | fresh h => exact .fails (fun g h => by cases h)
  | asleep fd e => exact .fails (fun g h => by cases h)
  | ended => exact .fails (fun g h => by cases h)
  | start =>
      rw [code]
      by_cases ha : k.accepts = true
      · rw [if_pos ha]
        by_cases ht : k.loop = t
        · rw [if_pos ht]
          exact .moves (.begins ha ht)
        · rw [if_neg ht]
          exact .fails (fun g h => by cases h)
      · rw [if_neg ha]
        exact .after (Io.share_noMco s.io k.event)
          (fun io h => .moves (.binds (Bool.eq_false_iff.mpr ha) h))
  | top =>
      refine .after (getFd_noMco s k) (fun fd h => ?_)
      by_cases hb : (s.io.kern.nonblocking fd || !s.io.hookable) = true
      · rw [if_pos hb]
        exact .moves (.plain h hb)
      · rw [if_neg hb]
        have hb := Bool.eq_false_iff.mpr hb
        cases hm : s.io.getMcoRoutine t fd with
        | some m => exact .moves (.hooked h hb hm)
        | none => exact .moves (.unmapped h hb hm)
  | check fd m =>
      rw [code]
      by_cases h : s.io.getCurMco t ≠ some m
      · rw [if_pos h]
        exact .fails (fun g h => by cases h)
      · rw [if_neg h]
        exact .moves (.checked (not_not.mp h))
  | look fd =>
      rw [code]
      cases hl : s.loops.getLoop t with
      | some l => exact .moves (.looked hl)
      | none => exact .moves (.loopless hl)
  | find fd l =>
      refine .after (Io.getEvents_noMco s.io l fd) (fun ⟨io, r⟩ h => ?_)
      cases r with
      | some e => exact .moves (.found h)
      | none => exact .moves (.missing h)
  | alone fd =>
      rw [code]
      cases hm : s.io.getCurMco t with
      | none => exact .moves (.outside hm)
      | some m => exact .moves (.current hm)
  | enrol fd m => exact .moves .enrolled
  | report fd e r =>
      refine .after (Io.modifyEvents_noMco s.io e r.change) (fun io h => ?_)
      cases hx : io.ev e with
      | none => exact .fails (fun g h => by cases h)
      | some x =>
          simp only []
          cases hl : s.loops.getLoop x.obj.tid with
          | none => exact reported_outcome (fun io' p' hr => .unheard h hx hl hr)
          | some l => exact .moves (.changed h hx hl)
  | tell fd e l r =>
      exact .after (Io.updateEvents_noMco s.io l e i.ok)
        (fun io h => reported_outcome (fun io' p' hr => .told h hr))
  | yield fd e =>
      rw [code]
      cases hm : s.io.getCurMco t with
      | none => exact .moves (.unyielding hm)
      | some m => exact .moves (.yields hm)
  | switch fd e m =>
      rw [code]
      cases hw : s.w.mcoYield t (some m) i.site.sp with
      | error g => exact .unyielded hw
      | ok w =>
          change CodeOutcome s t c k i (.switch fd e m) (if w.exec t = some c then _ else _)
          by_cases hx : w.exec t = some c
          · rw [if_pos hx]
            exact .stays hw hx
          · rw [if_neg hx]
            exact .sleeps hw hx
  | sys fd =>
      rw [code]
      by_cases ha : k.accepts = true
      · rw [if_pos ha]
        cases hacc : i.accepted with
        | none => exact .moves (.refused ha hacc)
        | some r => exact .moves (.accepted ha hacc)
      · rw [if_neg ha]
        have ha := Bool.eq_false_iff.mpr ha
        by_cases hm : i.more = true
        · rw [if_pos hm]
          exact .moves (.again ha hm)
        · rw [if_neg hm]
          exact .after (getFd_noMco s k)
            (fun g h => .moves (.stops ha (Bool.eq_false_iff.mpr hm) h))
  | accepted g =>
      rw [code]
      cases hl : s.loops.getNextLoop.2 with
      | none =>
          simp only []
          exact .fails (fun g h => by cases h)
      | some l =>
          simp only []
          exact .chosen hl
  | made g e l =>
      rw [code]
      cases hl : s.io.loop l with
      | none => exact .fails (fun g h => by cases h)
      | some loop => exact .after (Io.share_noMco s.io e) (fun io h => .made hl h)
  | give g e l co => exact .after (Io.modifyEvents_noMco _ e _) (fun io h => .given h)
  | enter e l co => exact .after (Io.updateEvents_noMco s.io l e i.ok) (fun io h => .entered h)
  | leave e co => exact .after (Io.release_noMco s.io e) (fun io h => .moves (.left h))
  | close fd q => exact closeCode_outcome s t c k i fd q
  | finish =>
      refine .after (Io.release_noMco s.io k.event) (fun io hio => ?_)
      cases hw : s.w.coroutineRun t i.site.sp with
      | error g => exact .unended hio hw
      | ok w => exact .ended hio hw

variable {s t c k i} in
/-- A call that returns has one of the outcomes that do. -/
theorem code_returns {s' : TcpSys} (h : s.code t c k i p = .ok s') :
    CodeOutcome s t c k i p (.ok s') := by
  have ho := code_outcome s t c k i p
  rw [h] at ho
  exact ho

/-- A hand-over moves the new coroutine and changes no callback. -/
theorem handed_same (co : McoRef) (h : HandOver) :
    (s.handed co h).w = s.w ∧ (s.handed co h).corun = s.corun := by
  unfold handed
  cases s.pos co with
  | none => exact ⟨rfl, rfl⟩
  | some q => cases q <;> exact ⟨rfl, rfl⟩

end Code

/-! ### A call of a loop -/

/-- How the next call on thread `t` ends, whose loop is at the given turn. -/
inductive LoopOutcome (s : TcpSys) (t : Tid) (i : Supply) : Turn → Except Abort TcpSys → Prop where
  | fails {r : Turn} {f : Abort} (h : ∀ g, f ≠ .mco g) : LoopOutcome s t i r (.error f)
  | passes {x : PollerEvent} {rest : List PollerEvent} {io : Io} (hb : s.batch t = x :: rest)
      (h : s.io.loopFind t x = .ok (io, none)) :
      LoopOutcome s t i .idle
        (.ok { s with io := io, batch := Function.update s.batch t rest })
  | finds {x : PollerEvent} {rest : List PollerEvent} {io : Io} {fd : Fd}
      (hb : s.batch t = x :: rest) (h : s.io.loopFind t x = .ok (io, some fd)) :
      LoopOutcome s t i .idle
        (.ok (setTurn { s with io := io, batch := Function.update s.batch t rest } t (.found fd)))
  | unmapped {fd : Fd} (h : s.io.getMcoRoutine t fd = none) :
      LoopOutcome s t i (.found fd) (.ok (s.setTurn t .idle))
  | mapped {fd : Fd} {m : McoRef} (h : s.io.getMcoRoutine t fd = some m) :
      LoopOutcome s t i (.found fd) (.ok (s.setTurn t (.resume m)))
  | resumes {m : McoRef} :
      LoopOutcome s t i (.resume m)
        (.ok { s.setTurn t (.enter m) with io := s.io.setCurMco t (some m) })
  /-- The resume does not return. -/
  | unresumed {m : McoRef} {g : Fault} (h : s.w.mcoResume t (some m) i.site = .error g) :
      LoopOutcome s t i (.enter m) (.error (.mco g))
  | enters {m : McoRef} {w : World} (h : s.w.mcoResume t (some m) i.site = .ok w)
      (hx : w.exec t = some m) :
      LoopOutcome s t i (.enter m)
        (.ok { s.setTurn t (.inside m) with
          w := w
          pos := Function.update s.pos m ((s.pos m).map Pos.wake) })
  /-- It has done nothing. -/
  | misses {m : McoRef} {w : World} (h : s.w.mcoResume t (some m) i.site = .ok w)
      (hx : w.exec t ≠ some m) :
      LoopOutcome s t i (.enter m) (.ok { s.setTurn t (.after m) with w := w })
  /-- The code of the coroutine that executes makes the call. -/
  | calls {m c : McoRef} {k : Corun} {p : Pos} (hx : s.w.exec t = some c)
      (hk : s.corun c = some k) (hp : s.pos c = some p) {r : Except Abort TcpSys}
      (h : s.code t c k i p = r) : LoopOutcome s t i (.inside m) r
  | ends {m : McoRef} : LoopOutcome s t i (.after m) (.ok (s.setTurn t .idle))

/-- Every call of a loop ends in one of these ways. -/
theorem loopCode_outcome (s : TcpSys) (t : Tid) (i : Supply) (r : Turn) :
    LoopOutcome s t i r (s.loopCode t i r) := by
  cases r with
  | idle =>
      rw [loopCode]
      cases hb : s.batch t with
      | nil => exact .fails (fun g h => by cases h)
      | cons x rest =>
          simp only []
          cases hf : s.io.loopFind t x with
          | error f =>
              exact .fails (f := f) (fun g h => Io.loopFind_noMco s.io t x g (by rw [hf, h]))
          | ok r =>
              rcases r with ⟨io, fd⟩
              cases fd with
              | none => exact .passes hb hf
              | some fd => exact .finds hb hf
  | found fd =>
      rw [loopCode]
      cases hm : s.io.getMcoRoutine t fd with
      | none => exact .unmapped hm
      | some m => exact .mapped hm
  | resume m => exact .resumes
  | enter m =>
      rw [loopCode]
      cases hw : s.w.mcoResume t (some m) i.site with
      | error g => exact .unresumed hw
      | ok w =>
          change LoopOutcome s t i (.enter m) (if w.exec t = some m then _ else _)
          by_cases hx : w.exec t = some m
          · rw [if_pos hx]
            exact .enters hw hx
          · rw [if_neg hx]
            exact .misses hw hx
  | inside m =>
      rw [loopCode]
      cases hx : s.w.exec t with
      | none => exact .fails (fun g h => by cases h)
      | some c =>
          simp only []
          cases hk : s.corun c with
          | none => exact .fails (fun g h => by cases h)
          | some k =>
              cases hp : s.pos c with
              | none => exact .fails (fun g h => by cases h)
              | some p => exact .calls hx hk hp rfl
  | after m => exact .ends

/-- A step on a thread that returns is one of these. -/
theorem run_outcome {s s' : TcpSys} {t : Tid} {i : Supply} (h : s.step (.run t i) = .ok s') :
    LoopOutcome s t i (s.turn t) (.ok s') := by
  have ho := s.loopCode_outcome t i (s.turn t)
  rw [show s.loopCode t i (s.turn t) = .ok s' from h] at ho
  exact ho

end TcpSys

end Fasco
