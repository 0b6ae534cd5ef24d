import Fasco.Theory.KernelCalls
import Fasco.Theory.Hooked

/-!
# Whole Calls and Single Steps

`Core.Hook` takes a hooked call, up to its switch, as one step. `Core.TcpServer`
cuts the same functions into the calls of `McoPool`, `EventLoop` and
`EventLoopPool` that they make, so that other threads can come in between. If
none does, the two are the same: on a thread that is left alone the calls one
after another come to what the whole call returns, or to the same fault.

`Proceeds` is such an undisturbed sequence of calls. The two models name the
loop of a thread in different ways, one in the table of the thread and one in
the registry; `KnownLoops` says that these agree, which they do wherever a run
of the server leads. A hooked call is made from `top`, the head of the
callback's loop, and ends asleep or before the system call; `close` is made
last, and a report is dispatched from an idle loop. Which coroutine uses a
descriptor, and which descriptors the program has asked to be closed, is
recorded in `Core.Hook` only, so here it is written down before the first call.

## Main definitions

* `TcpSys.Proceeds`: The code on a thread, left alone, comes to a result.
* `TcpSys.KnownLoops`: The registry has the loops there are.
* `TcpSys.Inside`: The code of a coroutine is at a position and executes.
* `TcpSys.usedBy`, `TcpSys.requested`: The records.

## Theorems

* `hookEnter_proceeds`, `hookLeave_proceeds`: The two halves of a hooked call.
* `hooked_proceeds`: The hooked call.
* `close_proceeds`: The hooked `close`.
* `dispatch_proceeds`: One reported event in the loop.
* `known_step`, `known_run`: The registry agrees along every run.
* `hooked_of_run`, `hooked_returns`: The hooked call in every state a run leads
  to.
-/

namespace Fasco

open Fallible

-- What is done with the result of a sequence is done with that of its last part.
theorem map_bind {ε α β γ : Type} (x : Except ε α) (f : α → Except ε β) (g : β → γ) :
    (x >>= f).map g = x >>= fun a => (f a).map g := by
  cases x with
  | error e => rfl
  | ok a => rfl

theorem map_eq_bind {ε α β : Type} (x : Except ε α) (g : α → β) :
    x.map g = x >>= fun a => .ok (g a) := by
  cases x with
  | error e => rfl
  | ok a => rfl

namespace Io

variable {s s' s'' : Io} {t : Tid} {e : EvRef} {fd : Fd} {ok : Bool}

/-- No loop has come or gone. -/
def SameLoops (s s' : Io) : Prop := ∀ u, (s'.loop u).isSome = (s.loop u).isSome

/-- The loops themselves have not changed. -/
theorem SameLoops.of_eq (h : s'.loop = s.loop) : SameLoops s s' := fun u => by rw [h]

theorem SameLoops.trans (h1 : SameLoops s s') (h2 : SameLoops s' s'') : SameLoops s s'' :=
  fun u => (h2 u).trans (h1 u)

/-- A table changes, and its loop stays. -/
theorem setTable_loops {l : EventLoop} (hl : s.loop t = some l) (x : Option EvRef) :
    SameLoops s (s.setTable t l fd x) := by
  intro u
  rw [← Option.isSome_map, setTable_wake s t l fd x hl u, Option.isSome_map]

/-- A pointer that goes takes no loop along. -/
theorem dropped_loops (s : Io) (e : EvRef) (o : Events) (n : Nat) (k : Kernel) :
    SameLoops s (s.dropped e o n k) := by
  unfold dropped
  by_cases hn : n ≤ 1
  · rw [if_pos hn]
    exact .of_eq rfl
  · rw [if_neg hn]
    exact .of_eq rfl

theorem share_loops (h : s.share e = .ok s') : SameLoops s s' := by
  rcases share_ok h with ⟨x, _, rfl⟩
  exact .of_eq rfl

theorem modifyEvents_loops {g : Events → Events} (h : s.modifyEvents e g = .ok s') :
    SameLoops s s' := by
  rcases modifyEvents_ok h with ⟨x, _, rfl⟩
  exact .of_eq rfl

theorem release_loops (h : s.release e = .ok s') : SameLoops s s' := by
  rcases release_ok h with ⟨x, _, rfl⟩
  exact dropped_loops s e _ _ _

theorem getEvents_loops {r : Option EvRef} (h : s.getEvents t fd = .ok (s', r)) :
    SameLoops s s' := by
  rcases getEvents_ok h with ⟨_, _, rfl⟩ | ⟨e, _, _, hs⟩
  · exact .of_eq rfl
  · exact share_loops hs

/-- Telling a loop of an object adds and removes no loop. -/
theorem updateEvents_loops {l : Tid} (h : s.updateEvents l e ok = .ok s') : SameLoops s s' := by
  rcases updateEvents_cases h with
    ⟨lp, x, hl, _, rfl | ⟨_, rfl⟩ | ⟨_, rfl⟩ | ⟨old, y, _, _, rfl⟩⟩
  · exact .of_eq rfl
  · exact setTable_loops hl _
  · exact .of_eq rfl
  · exact (setTable_loops hl none).trans (dropped_loops _ _ _ _ _)

/-- Nor does anything else that a step of the server does. -/
theorem did_loops {R T : Option EvRef} (h : Did R T ok s s') : SameLoops s s' := by
  induction h with
  | quiet h => exact .of_eq h.loop
  | told h _ _ hs => exact (SameLoops.of_eq h.loop).trans (updateEvents_loops hs)
  | freed _ _ hs ih => exact ih.trans (release_loops hs)

/-- With a loop for the object's thread, `UpdateLoopEvents` is `updateEvents`. -/
theorem updateLoopEvents_of_loop {x : EventsCell} (hx : s.ev e = some x)
    (hl : (s.loop x.obj.tid).isSome) :
    s.updateLoopEvents e ok = s.updateEvents x.obj.tid e ok := by
  rcases Option.isSome_iff_exists.mp hl with ⟨l, hl⟩
  rw [updateLoopEvents, hx, updateEvents]
  simp only [hl]

theorem updateLoopEvents_loops (h : s.updateLoopEvents e ok = .ok s') : SameLoops s s' := by
  cases hx : s.ev e with
  | none =>
      rw [updateLoopEvents, hx] at h
      cases h
  | some x =>
      by_cases hl : (s.loop x.obj.tid).isSome
      · rw [updateLoopEvents_of_loop hx hl] at h
        exact updateEvents_loops h
      · rw [Option.not_isSome_iff_eq_none] at hl
        rw [updateLoopEvents, hx] at h
        simp only [hl] at h
        injection h with h
        rw [h]
        exact .of_eq rfl

theorem eventsFor_loops (h : s.eventsFor t fd = .ok (s', e)) : SameLoops s s' := by
  rcases (bind_eq_ok_iff _ _ _).mp h with ⟨⟨s1, found⟩, hg, h⟩
  cases found with
  | none =>
      injection h with h
      injection h with h _
      rw [← h]
      exact (getEvents_loops hg).trans (.of_eq rfl)
  | some d =>
      injection h with h
      injection h with h _
      rw [← h]
      exact getEvents_loops hg

/-- Nor does a hooked call. -/
theorem hookEnter_loops {r : Option EvRef} (h : s.hookEnter t fd ok = .ok (s', r)) :
    SameLoops s s' := by
  unfold hookEnter at h
  by_cases hp : (s.kern.nonblocking fd || !s.hookable) = true
  · rw [if_pos hp] at h
    injection h with h
    injection h with h _
    exact .of_eq (by rw [h])
  · rw [if_neg hp] at h
    cases hm : s.getMcoRoutine t fd with
    | some mco =>
        rw [hm] at h
        simp only [] at h
        by_cases hcur : s.getCurMco t ≠ some mco
        · rw [if_pos hcur] at h
          cases h
        · rw [if_neg hcur] at h
          rcases (bind_eq_ok_iff _ _ _).mp h with ⟨⟨s1, e⟩, h1, h⟩
          rcases (bind_eq_ok_iff _ _ _).mp h with ⟨s2, h2, h⟩
          rcases (bind_eq_ok_iff _ _ _).mp h with ⟨s3, h3, h⟩
          injection h with h
          injection h with h _
          rw [← h]
          exact ((eventsFor_loops h1).trans (modifyEvents_loops h2)).trans
            (updateLoopEvents_loops h3)
    | none =>
        rw [hm] at h
        simp only [] at h
        cases hcur : s.getCurMco t with
        | none =>
            rw [hcur] at h
            injection h with h
            injection h with h _
            exact .of_eq (by rw [h])
        | some mco =>
            rw [hcur] at h
            rcases (bind_eq_ok_iff _ _ _).mp h with ⟨s1, h1, h⟩
            injection h with h
            injection h with h _
            rw [← h]
            exact fun u => updateLoopEvents_loops h1 u

end Io

namespace TcpSys

open Io

/-- The code on thread `t`, making one call after another with nothing in
    between, comes to the given state, or to a fault. -/
abbrev Proceeds (t : Tid) : TcpSys → Except Abort TcpSys → Prop :=
  Fallible.Proceeds TcpSys.step (fun a => ∃ i, a = .run t i)

/-- The loop of a thread is registered under its tid, and nothing else is. -/
def KnownLoops (s : TcpSys) : Prop :=
  ∀ u, s.loops.getLoop u = if (s.io.loop u).isSome then some u else none

/-- The loop of `t` has resumed `m`, and `c`, whose callback is bound to `k`,
    executes at `p`. -/
structure Inside (s : TcpSys) (t : Tid) (m c : McoRef) (k : Corun) (p : Pos) : Prop where
  turn : s.turn t = .inside m
  exec : s.w.exec t = some c
  corun : s.corun c = some k
  pos : s.pos c = some p

/-- What the machine answers to a call that can only ask for a place on the
    stack and an `epoll_ctl`. -/
def answer (sp : Nat) (ok : Bool) : Supply :=
  { site := { sp := sp, main := 0, mainBlk := 0, blk := 0 }
    ok := ok
    accepted := none
    more := false
    co := 0 }

section Calls

variable {s s' : TcpSys} {t : Tid} {m c : McoRef} {k : Corun} {p : Pos} {fd : Fd} {e : EvRef}
  {io : Io} {ok : Bool}

/-- The last call. -/
theorem Proceeds.last {i : Supply} {x : Except Abort TcpSys} (h : s.step (.run t i) = x) :
    Proceeds t s x := Fallible.Proceeds.last ⟨i, rfl⟩ h

/-- A call and the rest. -/
theorem Proceeds.call {i : Supply} {x : Except Abort TcpSys} (h : s.step (.run t i) = .ok s')
    (hrest : Proceeds t s' x) : Proceeds t s x := .cons ⟨i, rfl⟩ h hrest

/-- A call that keeps the loops keeps the registry in step with them. -/
theorem KnownLoops.go (hkn : s.KnownLoops) (h : SameLoops s.io io) :
    (s.go c io p).KnownLoops := by
  intro u
  change s.loops.getLoop u = if (io.loop u).isSome then some u else none
  rw [h u]
  exact hkn u

/-- The next call is one of `c`. -/
theorem Inside.call (hin : s.Inside t m c k p) (i : Supply) :
    s.step (.run t i) = s.code t c k i p := by
  change s.loopCode t i (s.turn t) = _
  rw [hin.turn, loopCode, hin.exec]
  simp only [hin.corun, hin.pos]

/-- The code goes on at another position. -/
theorem Inside.go (hin : s.Inside t m c k p) (io : Io) (p' : Pos) :
    (s.go c io p').Inside t m c k p' :=
  ⟨hin.turn, hin.exec, hin.corun, Function.update_self _ _ _⟩

theorem go_again (s : TcpSys) (c : McoRef) (io io' : Io) (p p' : Pos) :
    (s.go c io p).go c io' p' = s.go c io' p' := by
  simp only [TcpSys.go, Function.update_idem]

/-! ### A hooked call -/

/-- Reporting a new object changes nothing in it. -/
theorem modifyEvents_enrol {s : Io} {x : EventsCell} (hx : s.ev e = some x) :
    s.modifyEvents e Report.enrol.change = .ok s := by
  have hsame : s.setEv e (some x) = s := by
    rw [setEv, ← hx, Function.update_eq_self]
  rw [modifyEvents, hx]
  exact congrArg Except.ok hsame

/-- From `UpdateLoopEvents` to what follows it. -/
theorem report_proceeds {r : Report} (hin : s.Inside t m c k (.report fd e r))
    (hkn : s.KnownLoops) (ok : Bool) :
    Proceeds t s (s.io.modifyEvents e r.change >>= fun io => io.updateLoopEvents e ok >>= fun io =>
      s.reported c io fd e r) := by
  have hcall := hin.call (answer 0 ok)
  rw [code] at hcall
  cases hm : s.io.modifyEvents e r.change with
  | error f =>
      rw [hm] at hcall
      exact .last hcall
  | ok io =>
      rw [hm] at hcall
      rcases modifyEvents_ok hm with ⟨x, _, hio⟩
      have hev : io.ev e = some { x with obj := r.change x.obj } := by
        rw [hio]
        exact Function.update_self _ _ _
      have hloop : s.loops.getLoop (r.change x.obj).tid
          = if (io.loop (r.change x.obj).tid).isSome then some (r.change x.obj).tid else none := by
        rw [hio]
        exact hkn _
      simp only [ok_bind, hev, hloop] at hcall ⊢
      by_cases hl : (io.loop (r.change x.obj).tid).isSome
      · rw [updateLoopEvents_of_loop hev hl]
        rw [if_pos hl] at hcall
        refine .call hcall (.last (i := answer 0 ok) ?_)
        rw [(hin.go io _).call, code]
        refine bind_congr (fun io' => ?_)
        cases r <;> simp only [reported, go_again]
      · rw [if_neg hl] at hcall
        have hnone : io.updateLoopEvents e ok = .ok io := by
          rw [updateLoopEvents, hev]
          simp only [Option.not_isSome_iff_eq_none.mp hl]
        rw [hnone]
        exact .last hcall

/-- From `GetEvents` to where the object it gives is changed. -/
theorem look_proceeds (hin : s.Inside t m c k (.look fd)) (hkn : s.KnownLoops) :
    Proceeds t s ((s.io.eventsFor t fd).map (fun r => s.go c r.1 (.report fd r.2 .ask))) := by
  have hcall := hin.call (answer 0 true)
  rw [code, hkn t] at hcall
  rw [eventsFor, map_bind]
  cases hl : s.io.loop t with
  | none =>
      have hget : s.io.getEvents t fd = .ok (s.io, none) := by rw [getEvents, hl]
      simp only [hl] at hcall
      rw [hget]
      exact .last hcall
  | some l =>
      simp only [hl] at hcall
      refine .call hcall (.last (i := answer 0 true) ?_)
      rw [(hin.go s.io _).call, code]
      refine bind_congr (fun r => ?_)
      rcases r with ⟨io', found⟩
      cases found with
      | none => simp only [go_again]; rfl
      | some d => simp only [go_again]; rfl

/-- Where a hooked call goes on with the object it has kept, if any. -/
def entered (fd : Fd) : Option EvRef → Pos
  | none => .sys fd
  | some e => .yield fd e

/-- A hooked call up to its yield. -/
theorem hookEnter_proceeds (hin : s.Inside t m c k .top) (hkn : s.KnownLoops)
    (hfd : s.getFd k = .ok fd) (ok : Bool) :
    Proceeds t s ((s.io.hookEnter t fd ok).map (fun r => s.go c r.1 (entered fd r.2))) := by
  have hcall := hin.call (answer 0 true)
  rw [code, hfd, ok_bind] at hcall
  unfold hookEnter
  by_cases hp : (s.io.kern.nonblocking fd || !s.io.hookable) = true
  · rw [if_pos hp] at hcall ⊢
    exact .last hcall
  · rw [if_neg hp] at hcall ⊢
    cases hm : s.io.getMcoRoutine t fd with
    | some mco =>
        simp only [hm] at hcall ⊢
        refine .call hcall ?_
        have hcheck := (hin.go s.io (.check fd mco)).call (answer 0 true)
        rw [code] at hcheck
        by_cases hcur : s.io.getCurMco t ≠ some mco
        · rw [if_pos hcur]
          exact .last (hcheck.trans (if_pos hcur))
        · rw [if_neg hcur, map_bind]
          refine .call (hcheck.trans (if_neg hcur)) ?_
          rw [go_again]
          refine (look_proceeds (hin.go s.io (.look fd)) (hkn.go (.of_eq rfl))).after ?_
          rintro ⟨io, e⟩ hio
          rw [go_again, map_bind]
          -- The rest is the report that asks for reading.
          have hrep := report_proceeds (hin.go io (.report fd e .ask))
            (hkn.go (eventsFor_loops hio)) ok
          simp only [map_bind]
          simp only [reported, go_again] at hrep
          exact hrep
    | none =>
        simp only [hm] at hcall ⊢
        refine .call hcall ?_
        have halone := (hin.go s.io (.alone fd)).call (answer 0 true)
        rw [code] at halone
        cases hcur : s.io.getCurMco t with
        | none =>
            have hcur' : (s.go c s.io (.alone fd)).io.getCurMco t = none := hcur
            simp only [hcur', go_again] at halone
            exact .last halone
        | some mco =>
            have hcur' : (s.go c s.io (.alone fd)).io.getCurMco t = some mco := hcur
            simp only [hcur', go_again] at halone
            refine .call halone ?_
            have henrol := (hin.go s.io (.enrol fd mco)).call (answer 0 true)
            rw [code] at henrol
            simp only [go_again] at henrol
            refine .call henrol ?_
            -- The report of a new object changes nothing in it.
            have hrep := report_proceeds
              (hin.go ((s.io.setMcoRoutine t fd mco).newEvents t fd kReadEvent).1
                (.report fd s.io.nextEv .enrol)) (hkn.go (.of_eq rfl)) ok
            have hnew := modifyEvents_enrol (s := ((s.io.setMcoRoutine t fd mco).newEvents t fd
              kReadEvent).1) (e := s.io.nextEv) (Function.update_self _ _ _)
            have hnew' : (s.go c ((s.io.setMcoRoutine t fd mco).newEvents t fd kReadEvent).1
                (.report fd s.io.nextEv .enrol)).io.modifyEvents s.io.nextEv Report.enrol.change
                = _ := hnew
            rw [hnew', ok_bind] at hrep
            simp only [reported, go_again] at hrep
            rw [map_bind]
            exact hrep

/-- The rest of the call, after the yield. -/
theorem hookLeave_proceeds (hin : s.Inside t m c k (.report fd e .withdraw))
    (hkn : s.KnownLoops) (ok : Bool) :
    Proceeds t s ((s.io.hookLeave e ok).map (fun io => s.go c io (.sys fd))) := by
  unfold hookLeave
  simp only [map_bind, map_eq_bind (Io.release _ e)]
  exact report_proceeds hin hkn ok

/-- The state of the server in which `c` has come from its hooked call on `fd`
    on thread `t`, or sleeps in it. -/
def hookedTo (s : TcpSys) (t : Tid) (c : McoRef) (fd : Fd) (S : Sys) : TcpSys :=
  match S.frame c with
  | none => { s.go c S.io (.sys fd) with w := S.w }
  | some fr => { (s.go c S.io (.asleep fd fr.event)).setTurn t (s.turn t).back with w := S.w }

-- From the withdrawal of its interest.
theorem leave_proceeds {S : Sys} {fr : HookFrame}
    (hin : ({ s.go c S.io (.report fd fr.event .withdraw) with w := S.w } : TcpSys).Inside t m c k
      (.report fd fr.event .withdraw))
    (hkn : s.KnownLoops) (hsame : SameLoops s.io S.io) (hfr : S.frame c = some fr) (ok : Bool) :
    Proceeds t { s.go c S.io (.report fd fr.event .withdraw) with w := S.w }
      ((S.leave c ok).map (s.hookedTo t c fd)) := by
  have hkn' : (s.go c S.io (.report fd fr.event .withdraw)).KnownLoops := hkn.go hsame
  have hleave := hookLeave_proceeds hin hkn' ok
  have hgo : ∀ io, ({ s.go c S.io (.report fd fr.event .withdraw) with
      w := S.w } : TcpSys).go c io (.sys fd)
      = s.hookedTo t c fd { S with io := io, frame := Function.update S.frame c none } := by
    intro io
    simp only [hookedTo, Function.update_self, go, Function.update_idem]
  simp only [hgo] at hleave
  rw [Sys.leave, hfr]
  simp only [map_bind]
  rw [map_eq_bind] at hleave
  exact hleave

-- From the yield on.
theorem yield_proceeds {S : Sys} {fr : HookFrame} {sp : Nat}
    (hin : (s.go c S.io (.yield fd fr.event)).Inside t m c k (.yield fd fr.event))
    (hkn : s.KnownLoops) (hsame : SameLoops s.io S.io) (hw : S.w = s.w)
    (hfr : S.frame c = some fr) (ok : Bool) :
    Proceeds t (s.go c S.io (.yield fd fr.event)) ((S.mcosopsYield t sp >>= fun S' =>
      if S'.w.exec t = some c then S'.leave c ok else .ok S').map (s.hookedTo t c fd)) := by
  have hx : S.w.exec t = some c := by rw [hw]; exact hin.exec
  have hyield := hin.call (answer sp true)
  rw [code] at hyield
  rw [Sys.mcosopsYield]
  cases hcur : S.io.getCurMco t with
  -- Nobody is current, and the call goes on at once.
  | none =>
      have hcur' : (s.go c S.io (.yield fd fr.event)).io.getCurMco t = none := hcur
      simp only [hcur', go_again] at hyield
      simp only [ok_bind, if_pos hx]
      have hstate : s.go c S.io (.report fd fr.event .withdraw)
          = { s.go c S.io (.report fd fr.event .withdraw) with w := S.w } := by rw [hw]; rfl
      refine .call hyield ?_
      change Proceeds t (s.go c S.io (.report fd fr.event .withdraw)) _
      rw [hstate]
      exact leave_proceeds ⟨hin.turn, hx, hin.corun, Function.update_self _ _ _⟩ hkn hsame hfr ok
  | some mco =>
      have hcur' : (s.go c S.io (.yield fd fr.event)).io.getCurMco t = some mco := hcur
      simp only [hcur', go_again] at hyield
      refine .call hyield ?_
      have hswitch := (hin.go S.io (.switch fd fr.event mco)).call (answer sp true)
      rw [go_again, code] at hswitch
      have hmco : liftMco (S.w.mcoYield t (some mco) sp)
          = liftMco ((s.go c S.io (.switch fd fr.event mco)).w.mcoYield t (some mco)
            (answer sp true).site.sp) := by rw [hw]; rfl
      simp only [hmco]
      cases hres : liftMco ((s.go c S.io (.switch fd fr.event mco)).w.mcoYield t (some mco)
          (answer sp true).site.sp) with
      | error f =>
          rw [hres] at hswitch
          exact .last hswitch
      | ok w =>
          rw [hres, ok_bind] at hswitch
          simp only [ok_bind]
          by_cases hwx : w.exec t = some c
          · rw [if_pos hwx] at hswitch ⊢
            simp only [go_again] at hswitch
            refine .call hswitch ?_
            exact leave_proceeds (S := { S with w := w })
              ⟨hin.turn, hwx, hin.corun, Function.update_self _ _ _⟩ hkn hsame hfr ok
          · rw [if_neg hwx] at hswitch ⊢
            simp only [go_again] at hswitch
            have hto : s.hookedTo t c fd { S with w := w }
                = { (s.go c S.io (.asleep fd fr.event)).setTurn t (s.turn t).back with
                  w := w } := by
              simp only [hookedTo, hfr]
            refine .last (hswitch.trans ?_)
            exact congrArg Except.ok hto.symm

/-- It is recorded that `c` reads from or accepts on `fd`. -/
def usedBy (s : TcpSys) (fd : Fd) (c : McoRef) : TcpSys :=
  { s with io := { s.io with kern := s.io.kern.use fd c } }

/-- A hooked `read` or `accept`, taken as one step, is what the code of the
    server does call by call, if no other thread comes in between. -/
theorem hooked_proceeds {S : Sys} (hin : s.Inside t m c k .top) (hkn : s.KnownLoops)
    (hfd : s.getFd k = .ok fd) (hio : S.io = s.io) (hw : S.w = s.w) (hfr : S.frame c = none)
    (sp : Nat) (ok ok' : Bool) :
    Proceeds t (s.usedBy fd c) ((S.hooked t fd sp ok ok').map (s.hookedTo t c fd)) := by
  have hx : S.w.exec t = some c := by rw [hw]; exact hin.exec
  have hused : (s.usedBy fd c).Inside t m c k .top := ⟨hin.turn, hin.exec, hin.corun, hin.pos⟩
  unfold Sys.hooked
  simp only [hx, hio, map_bind]
  refine (hookEnter_proceeds hused hkn hfd ok).after ?_
  rintro ⟨io, event⟩ henter
  cases event with
  | none =>
      have hto : s.hookedTo t c fd { S with io := io } = (s.usedBy fd c).go c io (.sys fd) := by
        simp only [hookedTo, hfr, hw]
        rfl
      change Proceeds t _ (.ok (s.hookedTo t c fd { S with io := io }))
      rw [hto]
      exact .done _
  | some e =>
      exact yield_proceeds (s := s.usedBy fd c) (S := { S with
          io := io
          frame := Function.update S.frame c (some
            { fd := fd, event := e, opening := s.io.kern.opening fd }) })
        (hused.go io (.yield fd e)) hkn (hookEnter_loops henter) hw (Function.update_self _ _ _) ok'

/-! ### The hooked `close` -/

-- From `RemoveEventFromLoop` to the end.
theorem remove_proceeds (hin : s.Inside t m c k (.close fd (.ask e))) (hkn : s.KnownLoops)
    (ok : Bool) :
    Proceeds t s ((s.io.removeEventFromLoop e ok >>= fun io => io.release e).map
      (fun io => s.go c io .finish)) := by
  have hask := hin.call (answer 0 ok)
  rw [code, closeCode] at hask
  rw [map_bind, removeEventFromLoop]
  cases hx : s.io.ev e with
  | none =>
      rw [hx] at hask
      exact .last hask
  | some x =>
      simp only [hx, hkn x.obj.tid] at hask
      simp only []
      cases hl : s.io.loop x.obj.tid with
      | none =>
          simp only [hl] at hask
          exact .last hask
      | some l =>
          simp only [hl, Option.isSome_some, if_true] at hask
          cases hm : s.io.modifyEvents e (fun o => o.setState .DEL) with
          | error f =>
              rw [hm] at hask
              exact .last hask
          | ok io =>
              rw [hm] at hask
              refine .call hask ?_
              have htell := (hin.go io (.close fd (.tell e x.obj.tid))).call (answer 0 ok)
              rw [code, closeCode] at htell
              have hpoll : io.updateEvents x.obj.tid e ok = io.pollUpdate x.obj.tid l e ok := by
                have hloop : io.loop x.obj.tid = some l := by
                  rcases modifyEvents_ok hm with ⟨_, _, rfl⟩
                  exact hl
                rw [updateEvents, hloop]
              simp only [ok_bind]
              change (_ = io.updateEvents x.obj.tid e ok >>= _) at htell
              rw [hpoll] at htell
              cases hp : io.pollUpdate x.obj.tid l e ok with
              | error f =>
                  rw [hp] at htell
                  exact .last htell
              | ok io' =>
                  rw [hp] at htell
                  simp only [ok_bind, go_again] at htell
                  refine .call htell ?_
                  have hout := (hin.go io' (.close fd (.out e))).call (answer 0 ok)
                  rw [code, closeCode] at hout
                  simp only [go_again] at hout
                  simp only [ok_bind]
                  rw [map_eq_bind]
                  exact .last hout

-- What `close` does once the pool has let go of the descriptor.
theorem look_closed_proceeds (hin : s.Inside t m c k (.close fd .look)) (hkn : s.KnownLoops)
    (ok : Bool) :
    Proceeds t s ((s.io.getEvents t fd >>= fun r =>
      match r.2 with
      | none => .ok { r.1 with kern := r.1.kern.uniClose fd }
      | some e => r.1.removeEventFromLoop e ok >>= fun io => io.release e).map
        (fun io => s.go c io .finish)) := by
  have hlook := hin.call (answer 0 ok)
  rw [code, closeCode, hkn t] at hlook
  rw [map_bind]
  cases hl : s.io.loop t with
  | none =>
      simp only [hl] at hlook
      have hget : s.io.getEvents t fd = .ok (s.io, none) := by rw [getEvents, hl]
      rw [hget]
      exact .last hlook
  | some l =>
      simp only [hl, Option.isSome_some, if_true] at hlook
      refine .call hlook ?_
      have hfind := (hin.go s.io (.close fd (.find t))).call (answer 0 ok)
      rw [code, closeCode] at hfind
      change (_ = s.io.getEvents t fd >>= _) at hfind
      cases hg : s.io.getEvents t fd with
      | error f =>
          rw [hg] at hfind
          exact .last hfind
      | ok r =>
          rcases r with ⟨io, found⟩
          rw [hg] at hfind
          cases found with
          | none =>
              simp only [ok_bind, go_again] at hfind
              exact .last hfind
          | some e =>
              simp only [ok_bind, go_again] at hfind
              refine .call hfind ?_
              have hrest := remove_proceeds (hin.go io (.close fd (.ask e)))
                (hkn.go (getEvents_loops hg)) ok
              simp only [go_again] at hrest
              exact hrest

-- The pool lets go of the current coroutine if it is the one that waits here.
theorem current_proceeds (hin : s.Inside t m c k (.close fd (.fdmco (s.io.getCurMco t))))
    (ok : Bool) :
    Proceeds t s (.ok (s.go c (if s.io.getCurMco t = s.io.getMcoRoutine t fd
      then s.io.setCurMco t none else s.io) (.close fd .remove))) := by
  have hfdmco := hin.call (answer 0 ok)
  rw [code, closeCode] at hfdmco
  by_cases hsame : s.io.getCurMco t = s.io.getMcoRoutine t fd
  · rw [if_pos hsame] at hfdmco ⊢
    have hclear := (hin.go s.io (.close fd .clear)).call (answer 0 ok)
    rw [code, closeCode, go_again] at hclear
    exact .call hfdmco (.last hclear)
  · rw [if_neg hsame] at hfdmco ⊢
    exact .last hfdmco

-- From the first call to the end.
theorem closeBody_proceeds {io₀ : Io} (hin : s.Inside t m c k (.close fd .cur))
    (hkn : s.KnownLoops) (hio : ({ io₀ with kern := io₀.kern.request fd } : Io) = s.io)
    (ok : Bool) : Proceeds t s ((io₀.close t fd ok).map (fun io => s.go c io .finish)) := by
  have hcur := hin.call (answer 0 ok)
  rw [code, closeCode] at hcur
  unfold Io.close
  rw [hio]
  by_cases hh : (!s.io.hookable) = true
  · simp only [if_pos hh] at hcur ⊢
    exact .last hcur
  · simp only [if_neg hh] at hcur ⊢
    refine .call hcur ?_
    have hclear := current_proceeds (hin.go s.io (.close fd (.fdmco (s.io.getCurMco t)))) ok
    rw [go_again] at hclear
    refine hclear.trans ?_
    change Proceeds t (s.go c (if s.io.getCurMco t = s.io.getMcoRoutine t fd
      then s.io.setCurMco t none else s.io) (.close fd .remove)) _
    generalize hio1 : (if s.io.getCurMco t = s.io.getMcoRoutine t fd then s.io.setCurMco t none
      else s.io) = io1
    have hsame1 : SameLoops s.io io1 := by
      rw [← hio1]
      by_cases hsame : s.io.getCurMco t = s.io.getMcoRoutine t fd
      · rw [if_pos hsame]
        exact .of_eq rfl
      · rw [if_neg hsame]
        exact .of_eq rfl
    have hremove := (hin.go io1 (.close fd .remove)).call (answer 0 ok)
    rw [code, closeCode, go_again] at hremove
    refine .call hremove ?_
    have hrest := look_closed_proceeds (hin.go (io1.removeMcoRoutine t fd) (.close fd .look))
      (hkn.go (hsame1.trans (.of_eq rfl))) ok
    simp only [go_again] at hrest
    exact hrest

/-- It is recorded that the program asks for `fd` to be closed. -/
def requested (s : TcpSys) (fd : Fd) : TcpSys :=
  { s with io := { s.io with kern := s.io.kern.request fd } }

/-- The hooked `close`, taken as one step, is what the code of the server does
    call by call. -/
theorem close_proceeds (hin : s.Inside t m c k (.close fd .cur)) (hkn : s.KnownLoops)
    (ok : Bool) :
    Proceeds t (s.requested fd) ((s.io.close t fd ok).map (fun io => s.go c io .finish)) :=
  closeBody_proceeds (s := s.requested fd) ⟨hin.turn, hin.exec, hin.corun, hin.pos⟩ hkn rfl ok

/-! ### The loop -/

/-- The next call is one of the loop, or of the coroutine it has resumed. -/
theorem turn_call {r : Turn} (h : s.turn t = r) (i : Supply) :
    s.step (.run t i) = s.loopCode t i r := by
  rw [← h]
  rfl

/-- The tables, the coroutines and the reports. -/
def rest (s : TcpSys) : Io × World × (Tid → List PollerEvent) := (s.io, s.w, s.batch)

-- From the look into the pool to the switch.
theorem found_proceeds (hturn : s.turn t = .found fd) (site : CallSite) :
    ∃ y, Proceeds t s y ∧ y.map rest = match s.io.getMcoRoutine t fd with
      | none => .ok s.rest
      | some mco => (liftMco (s.w.mcoResume t (some mco) site)).map
          (fun w => (s.io.setCurMco t (some mco), w, s.batch)) := by
  have hfound := turn_call hturn (answer 0 true)
  rw [loopCode] at hfound
  cases hm : s.io.getMcoRoutine t fd with
  | none =>
      simp only [hm] at hfound
      exact ⟨_, .last hfound, rfl⟩
  | some mco =>
      simp only [hm] at hfound
      have hresume := turn_call (s := s.setTurn t (.resume mco)) (Function.update_self _ _ _)
        (answer 0 true)
      rw [loopCode] at hresume
      -- The switch, with the pool set before and not after it.
      generalize hs2 : ({ (s.setTurn t (.resume mco)).setTurn t (.enter mco) with
        io := (s.setTurn t (.resume mco)).io.setCurMco t (some mco) } : TcpSys) = s2 at hresume
      have hrest : s2.rest = (s.io.setCurMco t (some mco), s.w, s.batch) := by
        rw [← hs2]
        rfl
      have hturn2 : s2.turn t = .enter mco := by
        rw [← hs2]
        exact Function.update_self _ _ _
      have henter := turn_call hturn2 { answer 0 true with site := site }
      rw [loopCode] at henter
      injection hrest with hio2 hrest
      injection hrest with hw2 hb2
      rw [hw2] at henter
      simp only []
      cases hw : liftMco (s.w.mcoResume t (some mco) site) with
      | error f =>
          rw [hw] at henter
          exact ⟨_, .call hfound (.call hresume (.last henter)), rfl⟩
      | ok w =>
          rw [hw, ok_bind] at henter
          refine ⟨_, .call hfound (.call hresume (.last henter)), ?_⟩
          by_cases hx : w.exec t = some mco
          · rw [if_pos hx, ← hio2, ← hb2]
            rfl
          · rw [if_neg hx, ← hio2, ← hb2]
            rfl

/-- A reported event, dispatched in one step, is what the loop does call by
    call. -/
theorem dispatch_proceeds {S : Sys} (hturn : s.turn t = .idle) (hio : S.io = s.io)
    (hw : S.w = s.w) (hb : S.batch = s.batch) (site : CallSite) :
    ∃ y, Proceeds t s y ∧ y.map rest
      = (S.dispatch t site).map (fun S' => (S'.io, S'.w, S'.batch)) := by
  have hidle := turn_call hturn (answer 0 true)
  rw [loopCode] at hidle
  rw [Sys.dispatch, hb, hio]
  cases hbt : s.batch t with
  | nil =>
      rw [hbt] at hidle
      exact ⟨_, .last hidle, rfl⟩
  | cons x xs =>
      simp only [hbt] at hidle
      simp only [loopEntry_eq]
      cases hf : s.io.loopFind t x with
      | error f =>
          rw [hf] at hidle
          exact ⟨_, .last hidle, rfl⟩
      | ok r =>
          rcases r with ⟨io, found⟩
          rw [hf] at hidle
          cases found with
          | none => exact ⟨_, .last hidle, by rw [← hw]; rfl⟩
          | some fd =>
              rcases found_proceeds (s := setTurn
                { s with io := io, batch := Function.update s.batch t xs } t (.found fd))
                (Function.update_self _ _ _) site with ⟨y, hy, hrest⟩
              refine ⟨y, .call hidle hy, hrest.trans ?_⟩
              change (match io.getMcoRoutine t fd with
                | none => _
                | some mco => _) = Except.map _ (match io.getMcoRoutine t fd with
                  | none => _
                  | some mco => _)
              cases io.getMcoRoutine t fd with
              | none =>
                  rw [← hw]
                  rfl
              | some mco =>
                  change Except.map _ (liftMco (s.w.mcoResume t (some mco) site))
                    = Except.map _ (liftMco (S.w.mcoResume t (some mco) site) >>= _)
                  rw [hw]
                  cases liftMco (s.w.mcoResume t (some mco) site) with
                  | error f => rfl
                  | ok w => rfl

end Calls

/-! ### The registry along a run -/

section Known

variable {s s' : TcpSys} {a : TcpOp}

/-- The registry and the loops are what they were. -/
theorem KnownLoops.kept (hkn : s.KnownLoops) (hl : s'.loops.loops = s.loops.loops)
    (h : SameLoops s.io s'.io) : s'.KnownLoops := by
  intro u
  rw [h u]
  exact (congrFun hl u).trans (hkn u)

-- A call on a thread adds no loop to the registry.
theorem run_registry {t : Tid} {i : Supply} (h : s.step (.run t i) = .ok s') :
    s'.loops.loops = s.loops.loops := by
  have ho := run_outcome h
  generalize s.turn t = r at ho
  cases ho with
  | @calls m c k p _ _ _ _ hcode =>
      rw [(code_local hcode).loops]
      cases p with
      | accepted g => exact (Loops.getNextLoop_tables s.loops).1
      | _ => rfl
  | _ => rfl

/-- Every step keeps the registry in step with the loops there are. -/
theorem known_step (hi : s.Inv) (hkn : s.KnownLoops) (ha : s.Supplied a) (h : s.step a = .ok s') :
    s'.KnownLoops := by
  cases a with
  | addLoop t fd ismain =>
      rcases (bind_eq_ok_iff _ _ _).mp h with ⟨io, hio, h⟩
      injection h with h
      have hnone : s.loops.loops t = none := by
        have ht := hkn t
        rw [ha.1] at ht
        exact ht
      have hreg := (addEventLoop_new (l := t) ismain hnone).1
      rcases newLoop_cases hio with ⟨l, _, _, _, rfl⟩
      rw [← h]
      intro u
      refine (congrFun hreg u).trans ?_
      change Function.update s.loops.loops t (some t) u
        = if (Function.update s.io.loop t (some l) u).isSome then some u else none
      by_cases hu : u = t
      · rw [hu, Function.update_self, Function.update_self]
        rfl
      · rw [Function.update_of_ne hu, Function.update_of_ne hu]
        exact hkn u
  | start t fd c ok =>
      have hs : s.start t fd c ok = .ok s' := h
      unfold TcpSys.start at hs
      simp only [ha.1] at hs
      rcases (bind_eq_ok_iff _ _ _).mp hs with ⟨io, hio, hs⟩
      injection hs with hs
      rw [← hs]
      exact hkn.kept rfl (fun u => updateEvents_loops hio u)
  | poll t events =>
      injection h with h
      rw [← h]
      exact hkn
  | run t i =>
      refine hkn.kept (run_registry h) ?_
      rcases hi.run_did ha h with ⟨R, T, hd⟩ | ⟨r, _, _, hio⟩
      · exact did_loops hd
      · rw [hio]
        exact .of_eq rfl
  | drop t c =>
      rcases Option.isSome_iff_exists.mp ha.1 with ⟨k, hk⟩
      refine hkn.kept ?_ (did_loops (hi.drop_freed hk h).2)
      rw [step, hk] at h
      rcases (bind_eq_ok_iff _ _ _).mp h with ⟨w, _, h⟩
      rcases (bind_eq_ok_iff _ _ _).mp h with ⟨io, _, h⟩
      injection h with h
      rw [← h]

/-- At the start there are no loops and nothing is registered. -/
theorem known_init (h : TcpInit s) : s.KnownLoops := by
  intro u
  rw [h.loops, h.loop u]
  rfl

/-- In every state of every run the registry has the loops there are. -/
theorem known_run {s₀ : TcpSys} {as : List TcpOp} (h₀ : TcpInit s₀)
    (h : Runs TcpSys.step TcpSys.Supplied s₀ as s) : s.KnownLoops := by
  have hboth : s.Inv ∧ s.KnownLoops := by
    refine h.invariant (I := fun s => s.Inv ∧ s.KnownLoops) (fun s a s' hi ha hs => ?_)
      ⟨inv_init h₀, known_init h₀⟩
    have hkeep := step_keeps hi.1 ha
    rw [hs] at hkeep
    exact ⟨hkeep, known_step hi.1 hi.2 ha hs⟩
  exact hboth.2

/-- In every state that a run of the server leads to, a hooked call taken as
    one step is what the code does call by call. -/
theorem hooked_of_run {s₀ : TcpSys} {as : List TcpOp} {t : Tid} {m c : McoRef} {k : Corun}
    {fd : Fd} {S : Sys} (h₀ : TcpInit s₀) (h : Runs TcpSys.step TcpSys.Supplied s₀ as s)
    (hin : s.Inside t m c k .top) (hfd : s.getFd k = .ok fd) (hio : S.io = s.io) (hw : S.w = s.w)
    (hfr : S.frame c = none) (sp : Nat) (ok ok' : Bool) :
    Proceeds t (s.usedBy fd c) ((S.hooked t fd sp ok ok').map (s.hookedTo t c fd)) :=
  hooked_proceeds hin (known_run h₀ h) hfd hio hw hfr sp ok ok'

/-- So a hooked call that returns is a run of that thread alone. -/
theorem hooked_returns {s₀ : TcpSys} {as : List TcpOp} {t : Tid} {m c : McoRef} {k : Corun}
    {fd : Fd} {S S' : Sys} {sp : Nat} {ok ok' : Bool} (h₀ : TcpInit s₀)
    (h : Runs TcpSys.step TcpSys.Supplied s₀ as s) (hin : s.Inside t m c k .top)
    (hfd : s.getFd k = .ok fd) (hio : S.io = s.io) (hw : S.w = s.w) (hfr : S.frame c = none)
    (hret : S.hooked t fd sp ok ok' = .ok S') :
    ∃ bs, Runs TcpSys.step (fun _ a => ∃ i, a = .run t i) (s.usedBy fd c) bs
      (s.hookedTo t c fd S') := by
  have hall := hooked_of_run h₀ h hin hfd hio hw hfr sp ok ok'
  rw [hret] at hall
  exact Fallible.Proceeds.runs hall

end Known

end TcpSys

end Fasco
