import Fasco.Core.TcpServer
import Fasco.Theory.Mirror
import Fasco.Theory.Tables

/-!
# The Poller, Twice

`Core.Poll` has the table and the epoll set of one loop, under both builds and
with what the calls return. `Core.Loop` has the tables of all threads, with
assertions and without the return values, and beside them what the objects in
the tables are worth: the pointers to them are counted, and the last one closes
the descriptor. The two describe the same functions.

`Io.watch` forgets what `Core.Poll` does not have. Under it `pollUpdate` and
the calls around it are those of `Core.Poll`, fault for fault, with one
proviso: a pointer taken out of the table must not be the last one, since
`Core.Poll` does not know that descriptors are closed. Whether an `epoll_ctl`
succeeds is an input of both, and `Io.grants` says which one of `Core.Poll`
goes with the one given: only there can adding a closed descriptor succeed.

## Main definitions

* `Io.watch`: The loop of a thread as `Core.Poll` has it.
* `Io.grants`: What the kernel answers there.
* `Io.Outlives`: The pointer that goes is not the last.

## Theorems

* `pollUpdate_seen`, `updateEvents_seen`: `pollUpdate` is that of `Core.Poll`.
* `pollUpdate_elsewhere`: On the loops of other threads it changes nothing.
* `newEvents_watch`, `modifyEvents_seen`, `getEvents_watch`, `release_watch`:
  The calls around it.
* `hookEnter_polled`: A hooked call is calls of `Core.Poll` on every loop.
-/

namespace Fasco

open Fallible

/-- What `Core.Poll` calls a fault. -/
def Abort.fault : Abort → Fault
  | .badPointer => .badPointer
  | .mco f => f
  | .notCurMco => .assertion
  | .newInTable => .assertion
  | .notInTable => .assertion
  | .noLoop => .assertion

namespace Io

/-- The loop of thread `t` as `Core.Poll` has it. -/
def watch (s : Io) (t : Tid) : Watch where
  events := s.entry t
  interest := s.kern.interest t
  created := true
  obj := Option.map EventsCell.obj ∘ s.ev

/-- A computation on the tables, as seen from the loop of thread `t`. -/
def seen (t : Tid) : Except Abort Io → Except Fault Watch
  | .ok s => .ok (s.watch t)
  | .error f => .error f.fault

/-- Whether an `epoll_ctl` for the object succeeds if the set allows it.
    Adding a descriptor needs it to be open. -/
def grants (s : Io) (t : Tid) (e : EvRef) (ok : Bool) : Bool :=
  match s.ev e with
  | none => ok
  | some c => ok && (s.kern.isOpen c.obj.fd || (s.kern.interest t c.obj.fd).isSome)

/-- If the object is to be deleted, the pointer that the table of `t` has for
    its descriptor is not the last one. -/
def Outlives (s : Io) (t : Tid) (e : EvRef) : Prop :=
  ∀ c old, s.ev e = some c → c.obj.state = .DEL → s.entry t c.obj.fd = some old →
    ∃ d, s.ev old = some d ∧ 1 < d.useCount

variable {s s' : Io} {t u : Tid} {l : EventLoop} {e : EvRef} {c : EventsCell} {fd : Fd}
  {events : UInt32} {ok : Bool}

/-! ### The kernel -/

/-- Adding a descriptor that is not open fails in both, there by what is
    granted. -/
theorem eventAdd_ctl (k : Kernel) (t : Tid) (fd : Fd) (events : UInt32) (ok : Bool) :
    (k.eventAdd t fd events ok).1.interest t
      = (Interest.ctl (k.interest t) .add fd events
          (ok && (k.isOpen fd || (k.interest t fd).isSome))).1 := by
  unfold Kernel.eventAdd Interest.ctl
  cases ok <;> cases k.isOpen fd <;> cases k.interest t fd <;>
    simp [Kernel.setInterest]

theorem eventMod_ctl (k : Kernel) (t : Tid) (fd : Fd) (events : UInt32) (ok : Bool) :
    (k.eventMod t fd events ok).1.interest t
      = (Interest.ctl (k.interest t) .mod fd events
          (ok && (k.isOpen fd || (k.interest t fd).isSome))).1 := by
  unfold Kernel.eventMod Interest.ctl
  cases ok <;> cases k.isOpen fd <;> cases k.interest t fd <;>
    simp [Kernel.setInterest]

theorem eventDel_ctl (k : Kernel) (t : Tid) (fd : Fd) (events : UInt32) (ok : Bool) :
    (k.eventDel t fd ok).1.interest t
      = (Interest.ctl (k.interest t) .del fd events
          (ok && (k.isOpen fd || (k.interest t fd).isSome))).1 := by
  unfold Kernel.eventDel Interest.ctl
  cases ok <;> cases k.isOpen fd <;> cases k.interest t fd <;>
    simp [Kernel.setInterest]

/-! ### Objects and pointers -/

/-- A record of an object, seen from a loop, is the object. -/
theorem setEv_watch (s : Io) (t : Tid) (e : EvRef) (y : Option EventsCell) :
    (s.setEv e y).watch t = { s.watch t with
      obj := Function.update (s.watch t).obj e (y.map EventsCell.obj) } :=
  congrArg (Watch.mk (s.entry t) (s.kern.interest t) true)
    (Function.comp_update (Option.map EventsCell.obj) s.ev e y)

/-- Pointers are not counted in `Core.Poll`. -/
theorem setEv_watch_self {y : EventsCell} (hc : s.ev e = some c) (hy : y.obj = c.obj) :
    (s.setEv e (some y)).watch t = s.watch t := by
  have hobj : (s.watch t).obj e = some y.obj := by
    rw [hy]
    exact congrArg (Option.map EventsCell.obj) hc
  rw [setEv_watch, Option.map_some, ← hobj, Function.update_eq_self]

/-- A pointer that is copied does not show. -/
theorem share_watch (h : s.share e = .ok s') : s'.watch t = s.watch t := by
  rcases share_ok h with ⟨c, hc, rfl⟩
  exact setEv_watch_self hc rfl

/-- A pointer that is not the last one goes. -/
theorem release_watch (hc : s.ev e = some c) (hn : 1 < c.useCount) :
    seen t (s.release e) = .ok (s.watch t) := by
  unfold release
  rw [hc]
  simp only [if_neg (Nat.not_le_of_lt hn)]
  exact congrArg Except.ok (setEv_watch_self hc rfl)

/-- A new object. -/
theorem newEvents_watch (s : Io) (t u : Tid) (fd : Fd) (events : UInt32) :
    mute (Watch.step .debug) (s.watch t) (.make s.nextEv fd events u)
      = .ok ((s.newEvents u fd events).1.watch t) :=
  congrArg Except.ok (setEv_watch s t s.nextEv
    (some { obj := Events.make fd events u, useCount := 1 })).symm

/-- A method call that changes the object. -/
theorem modifyEvents_seen (s : Io) (t : Tid) (e : EvRef) (m : EventsCall) :
    seen t (s.modifyEvents e m.run) = mute (Watch.step .debug) (s.watch t) (.call e m) := by
  cases hc : s.ev e with
  | none =>
      have ho : (s.watch t).obj e = none := congrArg (Option.map EventsCell.obj) hc
      simp only [modifyEvents, hc, mute, Watch.step, ho]
      rfl
  | some c =>
      have ho : (s.watch t).obj e = some c.obj := congrArg (Option.map EventsCell.obj) hc
      simp only [modifyEvents, hc, mute, Watch.step, ho]
      exact congrArg Except.ok (setEv_watch s t e _)

/-- A look into the table. -/
theorem getEvents_watch {r : Option EvRef} (h : s.getEvents t fd = .ok (s', r)) :
    s'.watch u = s.watch u ∧ r = (s.watch t).getEvents fd := by
  rcases getEvents_ok h with ⟨hent, rfl, rfl⟩ | ⟨e, hent, rfl, hs⟩
  · exact ⟨rfl, hent.symm⟩
  · exact ⟨share_watch hs, hent.symm⟩

/-! ### `pollUpdate` -/

section Equations

theorem pollUpdate_invaild (hc : s.ev e = some c) (hst : c.obj.state = .INVAILD) :
    s.pollUpdate t l e ok = .ok s := by
  simp [pollUpdate, hc, Events.invaild, hst]

theorem pollUpdate_used (hc : s.ev e = some c) (hst : c.obj.state = .USED) :
    s.pollUpdate t l e ok = .ok s := by
  simp [pollUpdate, hc, Events.invaild, Events.isnew, Events.ismod, Events.isdel, hst]

/-- What the table has no entry for is added. -/
theorem pollUpdate_add (hc : s.ev e = some c) (hst : c.obj.state = .NEW ∨ c.obj.state = .MOD)
    (hent : l.events c.obj.fd = none) :
    s.pollUpdate t l e ok = s.tableAdd t l e c.obj ok := by
  rcases hst with hst | hst <;>
    simp [pollUpdate, hc, Events.invaild, Events.isnew, Events.ismod, hst, hent]

theorem pollUpdate_new_in {d : EvRef} (hc : s.ev e = some c) (hst : c.obj.state = .NEW)
    (hent : l.events c.obj.fd = some d) : s.pollUpdate t l e ok = .error .newInTable := by
  simp [pollUpdate, hc, Events.invaild, Events.isnew, hst, hent]

/-- What it has an entry for is changed. -/
theorem pollUpdate_mod_in {d : EvRef} (hc : s.ev e = some c) (hst : c.obj.state = .MOD)
    (hent : l.events c.obj.fd = some d) :
    s.pollUpdate t l e ok
      = .ok { s with kern := (s.kern.eventMod t c.obj.fd c.obj.eorigin ok).1 } := by
  simp [pollUpdate, hc, Events.invaild, Events.isnew, Events.ismod, hst, hent]

theorem pollUpdate_del_out (hc : s.ev e = some c) (hst : c.obj.state = .DEL)
    (hent : l.events c.obj.fd = none) : s.pollUpdate t l e ok = .error .notInTable := by
  simp [pollUpdate, hc, Events.invaild, Events.isnew, Events.ismod, Events.isdel, hst, hent]

/-- What is removed takes the pointer in the table along, whichever that is. -/
theorem pollUpdate_del_in {d : EvRef} (hc : s.ev e = some c) (hst : c.obj.state = .DEL)
    (hent : l.events c.obj.fd = some d) :
    s.pollUpdate t l e ok
      = (setTable { s with kern := (s.kern.eventDel t c.obj.fd ok).1 } t l c.obj.fd none).release
        d := by
  simp [pollUpdate, hc, Events.invaild, Events.isnew, Events.ismod, Events.isdel, hst, hent]

end Equations

-- Without what it returns.
theorem update_muted (W : Watch) (e : EvRef) (ok : Bool) :
    mute (Watch.step .debug) W (.update e ok) = (W.updateEvents .debug e ok).map Prod.fst := by
  have hstep : W.step .debug (.update e ok)
      = W.updateEvents .debug e ok >>= fun r => .ok (r.1, Answer.bool r.2) := rfl
  rw [mute, hstep]
  cases W.updateEvents .debug e ok with
  | error f => rfl
  | ok r => rfl

/-- `epoll_ctl`, through `Epoll`. With a descriptor for the epoll instance the
    assertion there holds. -/
theorem eventCtl_created {W : Watch} (h : W.created = true) (op : CtlOp) (fd : Fd)
    (events : UInt32) (ok : Bool) :
    W.eventCtl .debug op fd events ok
      = .ok ({ W with interest := (W.interest.ctl op fd events ok).1 },
        (W.interest.ctl op fd events ok).2) := by
  refine Watch.eventCtl_ok_iff.mpr ⟨fun _ => h, ?_⟩
  rw [h, Bool.and_true]

/-- An entry of the table. -/
theorem setTable_watch (hl : s.loop t = some l) (fd : Fd) (x : Option EvRef) :
    (s.setTable t l fd x).watch t = (s.watch t).setEntry fd x := by
  have hentry : (s.setTable t l fd x).entry t = Function.update (s.entry t) fd x := by
    funext g
    rw [setTable_entry s t l fd x hl, Function.update_apply]
    by_cases hg : g = fd
    · rw [if_pos ⟨rfl, hg⟩, if_pos hg]
    · rw [if_neg (fun h => hg h.2), if_neg hg]
  rw [watch, hentry]
  rfl

/-- Of the kernel's state only the interest shows. -/
theorem setKern_watch {k : Kernel} {i : Interest} (h : k.interest t = i) :
    ({ s with kern := k } : Io).watch t = { s.watch t with interest := i } := by
  rw [← h]
  rfl

/-- The two steps of adding, the entry and the `epoll_ctl`. -/
theorem tableAdd_seen (hl : s.loop t = some l) (hc : s.ev e = some c) :
    seen t (s.tableAdd t l e c.obj ok)
      = (((s.watch t).setEntry c.obj.fd (some e)).eventsAdd .debug c.obj
        (s.grants t e ok)).map Prod.fst := by
  have hshare : s.share e = .ok (s.setEv e (some { c with useCount := c.useCount + 1 })) := by
    rw [share, hc]
  have hgrants : s.grants t e ok
      = (ok && (s.kern.isOpen c.obj.fd || (s.kern.interest t c.obj.fd).isSome)) := by
    rw [grants, hc]
  have hadd := eventAdd_ctl s.kern t c.obj.fd c.obj.eorigin ok
  rw [← hgrants] at hadd
  rw [tableAdd, hshare, ok_bind, Watch.eventsAdd, eventCtl_created rfl]
  refine congrArg Except.ok ((setKern_watch hadd).trans ?_)
  rw [setTable_watch (s := s.setEv e _) hl, share_watch hshare]
  rfl

/-- `pollUpdate` is that of `Core.Poll`. -/
theorem pollUpdate_seen (hl : s.loop t = some l) (hout : s.Outlives t e) :
    seen t (s.pollUpdate t l e ok)
      = mute (Watch.step .debug) (s.watch t) (.update e (s.grants t e ok)) := by
  rw [update_muted]
  cases hc : s.ev e with
  | none =>
      have ho : (s.watch t).obj e = none := congrArg (Option.map EventsCell.obj) hc
      rw [pollUpdate, hc, Watch.updateEvents, ho]
      rfl
  | some c =>
      have ho : (s.watch t).obj e = some c.obj := congrArg (Option.map EventsCell.obj) hc
      have hent : (s.watch t).events c.obj.fd = l.events c.obj.fd := entry_of_loop hl _
      have hgrants : s.grants t e ok
          = (ok && (s.kern.isOpen c.obj.fd || (s.kern.interest t c.obj.fd).isSome)) := by
        rw [grants, hc]
      cases hst : c.obj.state with
      | INVAILD =>
          rw [pollUpdate_invaild hc hst, Watch.updateEvents_invaild ho hst]
          rfl
      | USED =>
          rw [pollUpdate_used hc hst, Watch.updateEvents_used ho hst]
          rfl
      | NEW =>
          rw [Watch.updateEvents_new ho hst, hent]
          cases hle : l.events c.obj.fd with
          | none =>
              rw [pollUpdate_add hc (.inl hst) hle, tableAdd_seen hl hc]
              rfl
          | some d =>
              rw [pollUpdate_new_in hc hst hle]
              rfl
      | MOD =>
          cases hle : l.events c.obj.fd with
          | none =>
              rw [pollUpdate_add hc (.inr hst) hle, tableAdd_seen hl hc,
                Watch.updateEvents_mod_out ho hst (hent.trans hle)]
          | some d =>
              have hmod := eventMod_ctl s.kern t c.obj.fd c.obj.eorigin ok
              rw [← hgrants] at hmod
              rw [pollUpdate_mod_in hc hst hle, Watch.updateEvents_mod_in ho hst (hent.trans hle),
                Watch.eventsMod, eventCtl_created rfl]
              exact congrArg Except.ok (setKern_watch hmod)
      | DEL =>
          rw [Watch.updateEvents_del ho hst, Watch.eventsDel, eventCtl_created rfl, ok_bind,
            Watch.assertErase]
          simp only [hent]
          cases hle : l.events c.obj.fd with
          -- The argument of the assertion: there is nothing to erase.
          | none =>
              rw [pollUpdate_del_out hc hst hle]
              rfl
          | some d =>
              have hdel := eventDel_ctl s.kern t c.obj.fd c.obj.eorigin ok
              rw [← hgrants] at hdel
              rcases hout c d hc hst ((entry_of_loop hl _).trans hle) with ⟨x, hx, hn⟩
              rw [pollUpdate_del_in hc hst hle]
              have hset := setTable_watch (s := { s with
                kern := (s.kern.eventDel t c.obj.fd ok).1 }) hl c.obj.fd none
              have hgone := release_watch (t := t) (s := setTable { s with
                kern := (s.kern.eventDel t c.obj.fd ok).1 } t l c.obj.fd none) hx hn
              rw [hgone, hset, setKern_watch hdel]
              rfl

/-- Telling a loop of an object. -/
theorem updateEvents_seen (hl : (s.loop t).isSome) (hout : s.Outlives t e) :
    seen t (s.updateEvents t e ok)
      = mute (Watch.step .debug) (s.watch t) (.update e (s.grants t e ok)) := by
  rcases Option.isSome_iff_exists.mp hl with ⟨l, hl⟩
  rw [updateEvents, hl]
  exact pollUpdate_seen hl hout

/-! ### The other loops -/

/-- The tables of other threads do not show. -/
theorem setTable_elsewhere (hu : u ≠ t) (l : EventLoop) (fd : Fd) (x : Option EvRef) :
    (s.setTable t l fd x).watch u = s.watch u := by
  have hentry : (s.setTable t l fd x).entry u = s.entry u := by
    funext g
    simp only [entry, setTable, Function.update_of_ne hu]
  rw [watch, hentry]
  rfl

/-- An `epoll_ctl` on the set of one loop, in the form that all three have. -/
theorem ctl_elsewhere (hu : u ≠ t) (k : Kernel) (granted : Bool) (fd : Fd) (i : Option UInt32) :
    (if granted then (k.setInterest t fd i, true) else (k, false)).1.interest u = k.interest u := by
  by_cases hg : granted = true
  · rw [if_pos hg]
    simp only [Kernel.setInterest, Function.update_of_ne hu]
  · rw [if_neg hg]

theorem tableAdd_elsewhere (hu : u ≠ t) (h : s.tableAdd t l e c.obj ok = .ok s') :
    s'.watch u = s.watch u := by
  rcases (bind_eq_ok_iff _ _ _).mp h with ⟨s1, hs, h⟩
  injection h with h
  rw [← h]
  refine (setKern_watch (ctl_elsewhere hu (s1.setTable t l c.obj.fd (some e)).kern _ _ _)).trans ?_
  exact (setTable_elsewhere hu l _ _).trans (share_watch hs)

/-- On the loops of other threads it changes nothing. -/
theorem pollUpdate_elsewhere (hu : u ≠ t) (hl : s.loop t = some l) (hout : s.Outlives t e)
    (h : s.pollUpdate t l e ok = .ok s') : s'.watch u = s.watch u := by
  cases hc : s.ev e with
  | none =>
      rw [pollUpdate, hc] at h
      cases h
  | some c =>
      cases hst : c.obj.state with
      | INVAILD =>
          rw [pollUpdate_invaild hc hst] at h
          injection h with h
          rw [h]
      | USED =>
          rw [pollUpdate_used hc hst] at h
          injection h with h
          rw [h]
      | NEW =>
          cases hle : l.events c.obj.fd with
          | none =>
              rw [pollUpdate_add hc (.inl hst) hle] at h
              exact tableAdd_elsewhere hu h
          | some d =>
              rw [pollUpdate_new_in hc hst hle] at h
              cases h
      | MOD =>
          cases hle : l.events c.obj.fd with
          | none =>
              rw [pollUpdate_add hc (.inr hst) hle] at h
              exact tableAdd_elsewhere hu h
          | some d =>
              rw [pollUpdate_mod_in hc hst hle] at h
              injection h with h
              rw [← h]
              exact setKern_watch (ctl_elsewhere hu s.kern _ _ _)
      | DEL =>
          cases hle : l.events c.obj.fd with
          | none =>
              rw [pollUpdate_del_out hc hst hle] at h
              cases h
          | some d =>
              rcases hout c d hc hst ((entry_of_loop hl _).trans hle) with ⟨x, hx, hn⟩
              rw [pollUpdate_del_in hc hst hle] at h
              have hgone := release_watch (t := u) (s := setTable { s with
                kern := (s.kern.eventDel t c.obj.fd ok).1 } t l c.obj.fd none) hx hn
              rw [h] at hgone
              injection hgone with hgone
              rw [hgone, setTable_elsewhere hu]
              exact setKern_watch (ctl_elsewhere hu s.kern _ _ _)

/-! ### A hooked call -/

/-- What happens on every loop is calls of `Core.Poll`. -/
def Polled (s s' : Io) : Prop :=
  ∀ u, ∃ as, Runs (mute (Watch.step .debug)) (fun _ _ => True) (s.watch u) as (s'.watch u)

theorem Polled.of_eq (h : ∀ u, s'.watch u = s.watch u) : Polled s s' := by
  intro u
  rw [h u]
  exact ⟨[], .nil _⟩

/-- Calls follow calls. -/
theorem Polled.trans {s'' : Io} (h1 : Polled s s') (h2 : Polled s' s'') : Polled s s'' := by
  intro u
  rcases h1 u with ⟨as, has⟩
  rcases h2 u with ⟨bs, hbs⟩
  exact ⟨as ++ bs, has.append hbs⟩

-- One call, seen from the loop of thread `u`.
theorem runs_call {W W' : Watch} {a : WatchOp} (h : mute (Watch.step .debug) W a = .ok W') :
    Runs (mute (Watch.step .debug)) (fun _ _ => True) W [a] W' :=
  .cons _ _ _ _ _ trivial h (.nil _)

theorem modifyEvents_polled {m : EventsCall} (h : s.modifyEvents e m.run = .ok s') :
    Polled s s' := by
  intro u
  have hm := modifyEvents_seen s u e m
  rw [h] at hm
  exact ⟨_, runs_call hm.symm⟩

theorem newEvents_polled (s : Io) (t : Tid) (fd : Fd) (events : UInt32) :
    Polled s (s.newEvents t fd events).1 :=
  fun u => ⟨_, runs_call (newEvents_watch s u t fd events)⟩

/-- The loop of the object's thread is called, and the others are not. -/
theorem updateLoopEvents_polled (hout : ∀ u, s.Outlives u e)
    (h : s.updateLoopEvents e ok = .ok s') : Polled s s' := by
  unfold updateLoopEvents at h
  cases hc : s.ev e with
  | none =>
      rw [hc] at h
      cases h
  | some c =>
      rw [hc] at h
      simp only [] at h
      cases hl : s.loop c.obj.tid with
      | none =>
          rw [hl] at h
          injection h with h
          exact .of_eq (fun u => by rw [h])
      | some l =>
          rw [hl] at h
          intro u
          by_cases hu : u = c.obj.tid
          · have hseen : seen c.obj.tid (s.pollUpdate c.obj.tid l e ok) = _ :=
              pollUpdate_seen hl (hout c.obj.tid)
            have hpoll : s.pollUpdate c.obj.tid l e ok = .ok s' := h
            rw [hpoll] at hseen
            rw [hu]
            exact ⟨_, runs_call hseen.symm⟩
          · rw [pollUpdate_elsewhere hu hl (hout c.obj.tid) h]
            exact ⟨[], .nil _⟩

/-- Finding the object of a descriptor, or making one. -/
theorem eventsFor_polled (h : s.eventsFor t fd = .ok (s', e)) : Polled s s' := by
  rcases (bind_eq_ok_iff _ _ _).mp h with ⟨⟨s1, found⟩, hg, h⟩
  have h1 : Polled s s1 := .of_eq (fun u => (getEvents_watch hg).1)
  cases found with
  | none =>
      injection h with h
      injection h with h _
      rw [← h]
      exact h1.trans (newEvents_polled s1 t fd kReadEvent)
  | some d =>
      injection h with h
      injection h with h _
      rw [← h]
      exact h1

-- An object that is not to be deleted takes nothing out of a table.
theorem outlives_of_state (hc : s.ev e = some c) (hst : c.obj.state ≠ .DEL) (u : Tid) :
    s.Outlives u e := by
  intro d old hd hdel _
  rw [hc] at hd
  injection hd with hd
  rw [hd] at hst
  exact absurd hdel hst

/-- A hooked call, up to its yield, is calls of `Core.Poll` on every loop. -/
theorem hookEnter_polled {r : Option EvRef} (h : s.hookEnter t fd ok = .ok (s', r)) :
    Polled s s' := by
  unfold hookEnter at h
  by_cases hp : (s.kern.nonblocking fd || !s.hookable) = true
  · rw [if_pos hp] at h
    injection h with h
    injection h with h _
    exact .of_eq (fun u => by rw [h])
  · rw [if_neg hp] at h
    cases hm : s.getMcoRoutine t fd with
    | some mco =>
        rw [hm] at h
        simp only [] at h
        by_cases hcur : s.getCurMco t ≠ some mco
        · rw [if_pos hcur] at h
          cases h
        · rw [if_neg hcur] at h
          rcases (bind_eq_ok_iff _ _ _).mp h with ⟨⟨s1, e⟩, h1, h⟩
          rcases (bind_eq_ok_iff _ _ _).mp h with ⟨s2, h2, h⟩
          rcases (bind_eq_ok_iff _ _ _).mp h with ⟨s3, h3, h⟩
          injection h with h
          injection h with h _
          rw [← h]
          -- What it tells the loop about is an object it has just set to `MOD`.
          rcases modifyEvents_ok h2 with ⟨c, hc, hs2⟩
          have hst : s2.ev e = some { c with obj := c.obj.updateEvents kReadEvent } := by
            rw [hs2]
            exact Function.update_self _ _ _
          exact ((eventsFor_polled h1).trans
            (modifyEvents_polled (m := .updateEvents kReadEvent) h2)).trans
            (updateLoopEvents_polled (outlives_of_state hst (fun hd => by cases hd)) h3)
    | none =>
        rw [hm] at h
        simp only [] at h
        cases hcur : s.getCurMco t with
        | none =>
            rw [hcur] at h
            injection h with h
            injection h with h _
            exact .of_eq (fun u => by rw [h])
        | some mco =>
            rw [hcur] at h
            rcases (bind_eq_ok_iff _ _ _).mp h with ⟨s1, h1, h⟩
            injection h with h
            injection h with h _
            rw [← h]
            have hst : ((s.setMcoRoutine t fd mco).newEvents t fd kReadEvent).1.ev s.nextEv
                = some { obj := Events.make fd kReadEvent t, useCount := 1 } :=
              Function.update_self _ _ _
            -- The pool is no concern of `Core.Poll`.
            have hpool : Polled s (s.setMcoRoutine t fd mco) := .of_eq (fun _ => rfl)
            exact (hpool.trans (newEvents_polled _ t fd kReadEvent)).trans
              (updateLoopEvents_polled (outlives_of_state hst (fun hd => by cases hd)) h1)

end Io

end Fasco
