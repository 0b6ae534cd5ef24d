import Fasco.Lib.Shared
import Fasco.Core.Hook

/-!
# Tables and Pointers

What the hooks do to the loops' tables and to the `Events` objects, and the
invariant that makes their pointers good: `Tidy` says that the pointers in the
tables, in the loops and in the locals of hooked calls are counted, and that an
object lies in the table of its own thread's loop, under its own descriptor.

Under the invariant each hook does one of a few things, and the lemmas here
state which, as equations between states. Nothing is assumed about the
coroutines or about what the kernel answers. Of the locals it only matters
which call holds which object, a function `loc` here.

## Main definitions

* `Holder`: The places that hold a pointer to an `Events` object.
* `Io.Tidy`: Pointers are counted, and objects are where they belong.
* `Io.Found`, `Io.Added`, `Io.Stray`: What entering a hooked call does.
* `Io.dropped`: The state when a pointer goes, perhaps the last one.

## Theorems

* `hookEnter_cases`, `hookLeave_cases`, `close_cases`, `loopEntry_cases`,
  `newLoop_cases`: The effects of the hooks and the loop.
* `Tidy.hookEnter`, `Tidy.hookLeave`, `Tidy.close`, `Tidy.loopEntry`,
  `Tidy.newLoop`: Each keeps the invariant.
-/

namespace Fasco

/-- Where a pointer to an `Events` object can be. -/
inductive Holder where
  /-- In `events_` of a thread's loop, at a descriptor. -/
  | table (t : Tid) (fd : Fd)
  /-- In `wakeEvent_` of a thread's loop. -/
  | wake (t : Tid)
  /-- In the locals of a hooked call by a coroutine. -/
  | call (c : McoRef)
  deriving DecidableEq

namespace Io

/-- The object at descriptor `fd` in `t`'s loop's table. -/
def entry (s : Io) (t : Tid) (fd : Fd) : Option EvRef := (s.loop t).bind (fun l => l.events fd)

def held (s : Io) (loc : McoRef → Option EvRef) : Holder → Option EvRef
  | .table t fd => s.entry t fd
  | .wake t => (s.loop t).map (fun l => l.wakeEvent)
  | .call c => loc c

def count (s : Io) (e : EvRef) : Option Nat := (s.ev e).map (fun c => c.useCount)

/-- The pointers are counted, and the tables hold objects of their own thread,
    each under its own descriptor. -/
structure Tidy (s : Io) (loc : McoRef → Option EvRef) : Prop where
  counted : Shared.Counted (s.held loc) s.count
  unused : ∀ e, s.nextEv ≤ e → s.ev e = none
  tagged : ∀ t fd e c, s.entry t fd = some e → s.ev e = some c → c.obj.fd = fd ∧ c.obj.tid = t

/-- The places of two states with the same loops hold the same. -/
theorem held_congr {s s' : Io} (loc : McoRef → Option EvRef) (h : s'.loop = s.loop) :
    s'.held loc = s.held loc := by
  funext k
  cases k with
  | table u g =>
      change s'.entry u g = s.entry u g
      rw [entry, entry, h]
  | wake u =>
      change (s'.loop u).map _ = (s.loop u).map _
      rw [h]
  | call d => rfl

theorem entry_of_loop {s : Io} {t : Tid} {l : EventLoop} (h : s.loop t = some l) (fd : Fd) :
    s.entry t fd = l.events fd := by
  rw [entry, h, Option.bind_some]

theorem loop_of_entry {s : Io} {t : Tid} {fd : Fd} {e : EvRef} (h : s.entry t fd = some e) :
    ∃ l, s.loop t = some l ∧ l.events fd = some e := Option.bind_eq_some_iff.mp h

theorem setTable_entry (s : Io) (t : Tid) (l : EventLoop) (fd : Fd) (x : Option EvRef)
    (h : s.loop t = some l) (u : Tid) (g : Fd) :
    (s.setTable t l fd x).entry u g = if u = t ∧ g = fd then x else s.entry u g := by
  simp only [entry, setTable]
  by_cases hu : u = t
  · by_cases hg : g = fd
    · rw [if_pos (And.intro hu hg), hu, hg, Function.update_self, Option.bind_some]
      exact Function.update_self fd x l.events
    · rw [if_neg (fun hc => hg hc.2), hu, Function.update_self, Option.bind_some, h,
        Option.bind_some]
      exact Function.update_of_ne hg x l.events
  · rw [if_neg (fun hc => hu hc.1), Function.update_of_ne hu]

theorem setTable_wake (s : Io) (t : Tid) (l : EventLoop) (fd : Fd) (x : Option EvRef)
    (h : s.loop t = some l) (u : Tid) :
    ((s.setTable t l fd x).loop u).map (fun l => l.wakeEvent)
      = (s.loop u).map (fun l => l.wakeEvent) := by
  simp only [setTable]
  by_cases hu : u = t
  · rw [hu, Function.update_self, h]
    rfl
  · rw [Function.update_of_ne hu]

/-- The places after a table entry has been set. -/
theorem setTable_held (s : Io) (t : Tid) (l : EventLoop) (fd : Fd) (x : Option EvRef)
    (loc : McoRef → Option EvRef) (h : s.loop t = some l) :
    (s.setTable t l fd x).held loc = Function.update (s.held loc) (.table t fd) x := by
  funext k
  cases k with
  | table u g =>
      change (s.setTable t l fd x).entry u g = _
      rw [setTable_entry s t l fd x h]
      by_cases hug : u = t ∧ g = fd
      · rw [if_pos hug, hug.1, hug.2, Function.update_self]
      · rw [if_neg hug, Function.update_of_ne]
        · rfl
        · intro hc
          injection hc with hu hg
          exact hug ⟨hu, hg⟩
  | wake u =>
      rw [Function.update_of_ne (by intro hc; cases hc)]
      exact setTable_wake s t l fd x h u
  | call c =>
      rw [Function.update_of_ne (by intro hc; cases hc)]
      rfl

theorem setEv_count (s : Io) (e : EvRef) (x : Option EventsCell) :
    (s.setEv e x).count = Function.update s.count e (x.map (fun c => c.useCount)) := by
  funext d
  by_cases hd : d = e
  · rw [hd, Function.update_self]
    simp only [count, setEv, Function.update_self]
  · rw [Function.update_of_ne hd]
    simp only [count, setEv, Function.update_of_ne hd]

/-- A change to an object that takes and drops no pointer to it. -/
theorem setEv_count_self {s : Io} {e : EvRef} {x y : EventsCell} (hx : s.ev e = some x)
    (hy : y.useCount = x.useCount) : (s.setEv e (some y)).count = s.count := by
  have hcount : s.count e = some y.useCount := by
    rw [count, hx, Option.map_some, hy]
  rw [setEv_count, Option.map_some, ← hcount, Function.update_eq_self]

/-- Locals of one more call. -/
theorem held_call (s : Io) (loc : McoRef → Option EvRef) (c : McoRef) (x : Option EvRef) :
    s.held (Function.update loc c x) = Function.update (s.held loc) (.call c) x := by
  funext k
  cases k with
  | table u g =>
      rw [Function.update_of_ne (by intro hc; cases hc)]
      rfl
  | wake u =>
      rw [Function.update_of_ne (by intro hc; cases hc)]
      rfl
  | call d =>
      change Function.update loc c x d = _
      by_cases hd : d = c
      · rw [hd, Function.update_self, Function.update_self]
      · rw [Function.update_of_ne hd, Function.update_of_ne]
        · rfl
        · intro hc
          injection hc with hc
          exact hd hc

/-! ### The effects -/

/-- A pointer to the object `e`, now `obj`, of which there were `n`, goes; the
    kernel was at `k`. -/
def dropped (s : Io) (e : EvRef) (obj : Events) (n : Nat) (k : Kernel) : Io :=
  if n ≤ 1 then { s.setEv e none with kern := k.uniClose obj.fd }
  else { s.setEv e (some { obj := obj, useCount := n - 1 }) with kern := k }

/-- The call on `fd` has found the object `e` in the table and asks for
    reading. -/
structure Found (s s' : Io) (t : Tid) (fd : Fd) (ok : Bool) (e : EvRef) : Prop where
  entry : s.entry t fd = some e
  eq : ∃ c, s.ev e = some c ∧ c.obj.fd = fd ∧ c.obj.tid = t ∧
    s' = { s.setEv e (some
        { obj := c.obj.updateEvents kReadEvent, useCount := c.useCount + 1 }) with
      kern := (s.kern.eventMod t fd kReadEvent ok).1 }

/-- The call on `fd` has put a new object, in state `st`, into the table. -/
structure Added (s s' : Io) (t : Tid) (fd : Fd) (ok : Bool) (st : EventsState) : Prop where
  entry : s.entry t fd = none
  eq : ∃ l, s.loop t = some l ∧
    s' = { (s.setTable t l fd (some s.nextEv)).setEv s.nextEv (some
        { obj := (Events.make fd kReadEvent t).setState st, useCount := 2 }) with
      nextEv := s.nextEv + 1
      kern := (s.kern.eventAdd t fd kReadEvent ok).1 }

/-- The call on `fd` has made an object, and there is no loop for it. -/
structure Stray (s s' : Io) (t : Tid) (fd : Fd) (st : EventsState) : Prop where
  loop : s.loop t = none
  eq : s' = { s.setEv s.nextEv (some
        { obj := (Events.make fd kReadEvent t).setState st, useCount := 1 }) with
      nextEv := s.nextEv + 1 }

/-! ### Which effect each part has -/

theorem modifyEvents_ok {s s' : Io} {e : EvRef} {g : Events → Events}
    (h : s.modifyEvents e g = .ok s') :
    ∃ c, s.ev e = some c ∧ s' = s.setEv e (some { c with obj := g c.obj }) := by
  unfold modifyEvents at h
  cases hc : s.ev e with
  | none =>
      rw [hc] at h
      cases h
  | some c =>
      rw [hc] at h
      injection h with h
      exact ⟨c, rfl, h.symm⟩

theorem share_ok {s s' : Io} {e : EvRef} (h : s.share e = .ok s') :
    ∃ c, s.ev e = some c ∧ s' = s.setEv e (some { c with useCount := c.useCount + 1 }) := by
  unfold share at h
  cases hc : s.ev e with
  | none =>
      rw [hc] at h
      cases h
  | some c =>
      rw [hc] at h
      injection h with h
      exact ⟨c, rfl, h.symm⟩

theorem release_ok {s s' : Io} {e : EvRef} (h : s.release e = .ok s') :
    ∃ c, s.ev e = some c ∧ s' = s.dropped e c.obj c.useCount s.kern := by
  unfold release at h
  cases hc : s.ev e with
  | none =>
      rw [hc] at h
      cases h
  | some c =>
      rw [hc] at h
      refine ⟨c, rfl, ?_⟩
      unfold dropped
      by_cases hn : c.useCount ≤ 1
      · simp only [if_pos hn] at h ⊢
        injection h with h
        exact h.symm
      · simp only [if_neg hn] at h ⊢
        injection h with h
        exact h.symm

theorem getEvents_ok {s s' : Io} {t : Tid} {fd : Fd} {r : Option EvRef}
    (h : s.getEvents t fd = .ok (s', r)) :
    (s.entry t fd = none ∧ r = none ∧ s' = s) ∨
    (∃ e, s.entry t fd = some e ∧ r = some e ∧ s.share e = .ok s') := by
  unfold getEvents at h
  cases hl : s.loop t with
  | none =>
      rw [hl] at h
      injection h with h
      injection h with h1 h2
      refine Or.inl ⟨?_, h2.symm, h1.symm⟩
      rw [entry, hl]
      rfl
  | some l =>
      rw [hl] at h
      simp only [] at h
      rw [entry_of_loop hl]
      cases he : l.events fd with
      | none =>
          rw [he] at h
          injection h with h
          injection h with h1 h2
          exact Or.inl ⟨rfl, h2.symm, h1.symm⟩
      | some e =>
          rw [he] at h
          rcases (Fallible.bind_eq_ok_iff _ _ _).mp h with ⟨s1, hs, h⟩
          injection h with h
          injection h with h1 h2
          exact Or.inr ⟨e, rfl, h2.symm, by rw [hs, h1]⟩

theorem tableAdd_ok {s s' : Io} {t : Tid} {l : EventLoop} {e : EvRef} {obj : Events} {ok : Bool}
    (h : s.tableAdd t l e obj ok = .ok s') :
    ∃ c, s.ev e = some c ∧
      s' = { (s.setTable t l obj.fd (some e)).setEv e
          (some { c with useCount := c.useCount + 1 }) with
        kern := (s.kern.eventAdd t obj.fd obj.eorigin ok).1 } := by
  unfold tableAdd at h
  rcases (Fallible.bind_eq_ok_iff _ _ _).mp h with ⟨s1, hs, h⟩
  rcases share_ok hs with ⟨c, hc, rfl⟩
  injection h with h
  exact ⟨c, hc, h.symm⟩

/-- An object just made, in the table of its thread's loop unless that has one
    for the descriptor. -/
theorem updateLoopEvents_new {s s' : Io} {t : Tid} {fd : Fd} {ok : Bool}
    (h : (s.newEvents t fd kReadEvent).1.updateLoopEvents s.nextEv ok = .ok s') :
    Added s s' t fd ok .NEW ∨ Stray s s' t fd .NEW := by
  have hev : (s.newEvents t fd kReadEvent).1.ev s.nextEv
      = some { obj := Events.make fd kReadEvent t, useCount := 1 } := Function.update_self _ _ _
  unfold updateLoopEvents at h
  rw [hev] at h
  simp only [] at h
  cases hl : s.loop t with
  | none =>
      right
      have hl' : (s.newEvents t fd kReadEvent).1.loop (Events.make fd kReadEvent t).tid = none := hl
      rw [hl'] at h
      injection h with h
      exact ⟨hl, h.symm⟩
  | some l =>
      left
      have hl' : (s.newEvents t fd kReadEvent).1.loop (Events.make fd kReadEvent t).tid
        = some l := hl
      rw [hl'] at h
      have h1 : (Events.make fd kReadEvent t).invaild = false := rfl
      have h2 : (Events.make fd kReadEvent t).isnew = true := rfl
      simp only [pollUpdate, hev, h1, h2, Bool.false_eq_true, if_false, if_true] at h
      have hfd : (Events.make fd kReadEvent t).fd = fd := rfl
      rw [hfd] at h
      cases he : l.events fd with
      | some e =>
          rw [he] at h
          cases h
      | none =>
          rw [he] at h
          rcases tableAdd_ok h with ⟨c, hc, rfl⟩
          rw [hev] at hc
          injection hc with hc
          refine ⟨by rw [entry_of_loop hl, he], l, hl, ?_⟩
          rw [← hc]
          simp only [setTable, setEv, newEvents, Function.update_idem, Events.setState, Events.make]

/-- What `updateEvents` or `deleteEvent` has changed is reported to the
    loop: the object enters the table if that has none for the descriptor, and
    otherwise only the interest changes. -/
theorem updateLoopEvents_mod {s s' : Io} {e : EvRef} {c : EventsCell} {ok : Bool}
    (hc : s.ev e = some c) (hm : c.obj.state = .MOD) (h : s.updateLoopEvents e ok = .ok s') :
    (s.loop c.obj.tid = none ∧ s' = s) ∨
    (∃ l, s.loop c.obj.tid = some l ∧ s.entry c.obj.tid c.obj.fd = none ∧
      s' = { (s.setTable c.obj.tid l c.obj.fd (some e)).setEv e
          (some { c with useCount := c.useCount + 1 }) with
        kern := (s.kern.eventAdd c.obj.tid c.obj.fd c.obj.eorigin ok).1 }) ∨
    (∃ old, s.entry c.obj.tid c.obj.fd = some old ∧
      s' = { s with kern := (s.kern.eventMod c.obj.tid c.obj.fd c.obj.eorigin ok).1 }) := by
  unfold updateLoopEvents at h
  rw [hc] at h
  simp only [] at h
  cases hl : s.loop c.obj.tid with
  | none =>
      rw [hl] at h
      injection h with h
      exact Or.inl ⟨rfl, h.symm⟩
  | some l =>
      right
      rw [hl] at h
      -- In state `MOD` the object takes the second branch of `pollUpdate`.
      have h1 : c.obj.invaild = false := by
        rw [Events.invaild, hm]
        rfl
      have h2 : c.obj.isnew = false := by
        rw [Events.isnew, hm]
        rfl
      have h3 : c.obj.ismod = true := by
        rw [Events.ismod, hm]
        rfl
      simp only [pollUpdate, hc, h1, h2, h3, Bool.false_eq_true, if_false, if_true] at h
      rw [entry_of_loop hl]
      cases he : l.events c.obj.fd with
      | none =>
          rw [he] at h
          rcases tableAdd_ok h with ⟨c', hc', rfl⟩
          rw [hc] at hc'
          injection hc' with hc'
          refine Or.inl ⟨l, rfl, rfl, ?_⟩
          rw [hc']
      | some old =>
          rw [he] at h
          injection h with h
          exact Or.inr ⟨old, rfl, h.symm⟩

/-! ### The hooks -/

/-- A new object on which `updateEvents` has been called. -/
theorem asked_new {s s1 s' : Io} {t : Tid} {fd : Fd} {ok : Bool} (hent : s.entry t fd = none)
    (h1 : (s.newEvents t fd kReadEvent).1.modifyEvents s.nextEv
      (fun o => o.updateEvents kReadEvent) = .ok s1)
    (h : s1.updateLoopEvents s.nextEv ok = .ok s') :
    Added s s' t fd ok .MOD ∨ Stray s s' t fd .MOD := by
  rcases modifyEvents_ok h1 with ⟨c, hc, rfl⟩
  have hev : (s.newEvents t fd kReadEvent).1.ev s.nextEv
      = some { obj := Events.make fd kReadEvent t, useCount := 1 } := Function.update_self _ _ _
  rw [hev] at hc
  injection hc with hc
  rw [← hc] at h
  have hev' : ((s.newEvents t fd kReadEvent).1.setEv s.nextEv (some
      { obj := (Events.make fd kReadEvent t).updateEvents kReadEvent, useCount := 1 })).ev s.nextEv
      = some { obj := (Events.make fd kReadEvent t).updateEvents kReadEvent, useCount := 1 } :=
    Function.update_self _ _ _
  -- The table has nothing for the descriptor, so that the object enters it.
  rcases updateLoopEvents_mod hev' rfl h with ⟨hl, rfl⟩ | ⟨l, hl, _, rfl⟩ | ⟨old, hold, _⟩
  · refine Or.inr ⟨hl, ?_⟩
    simp only [setEv, newEvents, Function.update_idem, Events.setState, Events.make,
      Events.updateEvents]
  · refine Or.inl ⟨hent, l, hl, ?_⟩
    simp only [setTable, setEv, newEvents, Function.update_idem, Events.setState, Events.make,
      Events.updateEvents]
  · exfalso
    have hold' : s.entry t fd = some old := hold
    rw [hent] at hold'
    cases hold'

/-- The object from the table, on which `updateEvents` has been called. -/
theorem asked_found {s s0 s1 s' : Io} {t : Tid} {fd : Fd} {ok : Bool} {e : EvRef} {c : EventsCell}
    (hent : s.entry t fd = some e) (hc : s.ev e = some c) (hfd : c.obj.fd = fd)
    (htid : c.obj.tid = t) (h0 : s.share e = .ok s0)
    (h1 : s0.modifyEvents e (fun o => o.updateEvents kReadEvent) = .ok s1)
    (h : s1.updateLoopEvents e ok = .ok s') : Found s s' t fd ok e := by
  rcases share_ok h0 with ⟨c0, hc0, rfl⟩
  rw [hc] at hc0
  injection hc0 with hc0
  rcases modifyEvents_ok h1 with ⟨c1, hc1, rfl⟩
  have hev : (s.setEv e (some { c with useCount := c.useCount + 1 })).ev e
      = some { c with useCount := c.useCount + 1 } := Function.update_self _ _ _
  rw [← hc0, hev] at hc1
  injection hc1 with hc1
  rw [← hc0, ← hc1] at h
  have hset : (s.setEv e (some { c with useCount := c.useCount + 1 })).setEv e
      (some { obj := c.obj.updateEvents kReadEvent, useCount := c.useCount + 1 })
      = s.setEv e (some { obj := c.obj.updateEvents kReadEvent, useCount := c.useCount + 1 }) := by
    simp only [setEv, Function.update_idem]
  rw [hset] at h
  have hev' : (s.setEv e (some
      { obj := c.obj.updateEvents kReadEvent, useCount := c.useCount + 1 })).ev e
      = some { obj := c.obj.updateEvents kReadEvent, useCount := c.useCount + 1 } :=
    Function.update_self _ _ _
  rcases loop_of_entry hent with ⟨l, hl, _⟩
  refine ⟨hent, c, hc, hfd, htid, ?_⟩
  -- The table has the object already, so that only the interest changes.
  rcases updateLoopEvents_mod hev' rfl h with ⟨hno, _⟩ | ⟨_, _, hno, _⟩ | ⟨old, _, rfl⟩
  · exfalso
    have hno' : s.loop c.obj.tid = none := hno
    rw [htid, hl] at hno'
    cases hno'
  · exfalso
    have hno' : s.entry c.obj.tid c.obj.fd = none := hno
    rw [htid, hfd, hent] at hno'
    cases hno'
  · change _ = { s.setEv e (some
        { obj := c.obj.updateEvents kReadEvent, useCount := c.useCount + 1 }) with
      kern := (s.kern.eventMod t fd kReadEvent ok).1 }
    rw [← htid, ← hfd]
    rfl

/-- A call that goes straight to the system call. -/
def Straight (s : Io) (t : Tid) (fd : Fd) : Prop :=
  s.kern.nonblocking fd = true ∨ s.hookable = false ∨
    (s.getMcoRoutine t fd = none ∧ s.getCurMco t = none)

/-- A call that does not go straight on is made where there is a loop, if one
    or the other is known. -/
theorem loop_of_not_straight {s : Io} {t : Tid} {fd : Fd} {mco : McoRef}
    (hblock : s.kern.nonblocking fd = false) (hh : s.hookable = true)
    (hcur : s.getCurMco t = some mco) (hloop : s.Straight t fd ∨ (s.loop t).isSome) :
    s.loop t ≠ none := by
  intro hn
  rcases hloop with hst | hl
  · rcases hst with h1 | h1 | h1
    · rw [h1] at hblock
      cases hblock
    · rw [h1] at hh
      cases hh
    · rw [h1.2] at hcur
      cases hcur
  · rw [hn] at hl
    cases hl

/-- Entering a hooked call does nothing, or finds the descriptor's object, or
    makes one. Except in the first case the thread has a current coroutine,
    and the pool maps the descriptor to it afterwards. -/
theorem hookEnter_cases {s s' : Io} {loc : McoRef → Option EvRef} {t : Tid} {fd : Fd} {ok : Bool}
    {r : Option EvRef} (ht : s.Tidy loc) (h : s.hookEnter t fd ok = .ok (s', r)) :
    (r = none ∧ s' = s ∧ s.Straight t fd) ∨
    (s.kern.nonblocking fd = false ∧ s.hookable = true ∧ ∃ mco e, r = some e ∧
      s.getCurMco t = some mco ∧
      ((s.getMcoRoutine t fd = some mco ∧
          (Found s s' t fd ok e ∨
            (e = s.nextEv ∧ (Added s s' t fd ok .MOD ∨ Stray s s' t fd .MOD)))) ∨
       (s.getMcoRoutine t fd = none ∧ e = s.nextEv ∧
          (Added (s.setMcoRoutine t fd mco) s' t fd ok .NEW ∨
            Stray (s.setMcoRoutine t fd mco) s' t fd .NEW)))) := by
  unfold hookEnter at h
  by_cases hd : (s.kern.nonblocking fd || !s.hookable) = true
  · rw [if_pos hd] at h
    injection h with h
    injection h with h1 h2
    refine Or.inl ⟨h2.symm, h1.symm, ?_⟩
    rw [Bool.or_eq_true, Bool.not_eq_true'] at hd
    rcases hd with hd | hd
    · exact Or.inl hd
    · exact Or.inr (Or.inl hd)
  · rw [if_neg hd] at h
    simp only [Bool.not_eq_true, Bool.or_eq_false_iff, Bool.not_eq_false'] at hd
    cases hm : s.getMcoRoutine t fd with
    | some mco =>
        right
        rw [hm] at h
        simp only [] at h
        by_cases hcur : s.getCurMco t = some mco
        · rw [if_neg (fun hc => hc hcur)] at h
          rcases (Fallible.bind_eq_ok_iff _ _ _).mp h with ⟨⟨s0, e⟩, h0, ha⟩
          rcases (Fallible.bind_eq_ok_iff _ _ _).mp ha with ⟨s1, h1, hb⟩
          rcases (Fallible.bind_eq_ok_iff _ _ _).mp hb with ⟨s2, h2, hc⟩
          injection hc with hc
          injection hc with hs hr
          rw [hs] at h2
          refine ⟨hd.1, hd.2, mco, e, hr.symm, hcur, Or.inl ⟨rfl, ?_⟩⟩
          rcases (Fallible.bind_eq_ok_iff _ _ _).mp h0 with ⟨⟨s3, found⟩, h3, h4⟩
          rcases getEvents_ok h3 with ⟨hent, hf, hs3⟩ | ⟨e', hent, hf, hsh⟩
          · -- Nothing in the table: a new object.
            rw [hf, hs3] at h4
            injection h4 with h4
            injection h4 with h01 h02
            rw [← h01, ← h02] at h1
            rw [← h02] at h2 ⊢
            exact Or.inr ⟨rfl, asked_new hent h1 h2⟩
          · rw [hf] at h4
            injection h4 with h4
            injection h4 with h01 h02
            rw [h01] at hsh
            rw [h02] at hent hsh
            rcases share_ok hsh with ⟨c, hc, _⟩
            -- What the table has under `fd` is an object of `fd` and of this thread.
            rcases ht.tagged t fd e c hent hc with ⟨hcf, hct⟩
            exact Or.inl (asked_found hent hc hcf hct hsh h1 h2)
        · rw [if_pos hcur] at h
          cases h
    | none =>
        rw [hm] at h
        simp only [] at h
        cases hcur : s.getCurMco t with
        | none =>
            rw [hcur] at h
            injection h with h
            injection h with h1 h2
            exact Or.inl ⟨h2.symm, h1.symm, Or.inr (Or.inr ⟨hm, hcur⟩)⟩
        | some mco =>
            right
            rw [hcur] at h
            rcases (Fallible.bind_eq_ok_iff _ _ _).mp h with ⟨s1, h1, h⟩
            injection h with h
            injection h with hs hr
            rw [hs] at h1
            exact ⟨hd.1, hd.2, mco, s.nextEv, hr.symm, rfl,
              Or.inr ⟨rfl, rfl, updateLoopEvents_new h1⟩⟩

/-- Leaving a hooked call: its object is reported to the loop of its thread
    as asking for nothing, which puts it into the table if that has none for
    the descriptor; otherwise the pointer of the call goes. -/
theorem hookLeave_cases {s s' : Io} {e : EvRef} {c : EventsCell} {ok : Bool} (hc : s.ev e = some c)
    (hn : 1 ≤ c.useCount) (h : s.hookLeave e ok = .ok s') :
    (∃ l, s.loop c.obj.tid = some l ∧ s.entry c.obj.tid c.obj.fd = none ∧
      s' = { (s.setTable c.obj.tid l c.obj.fd (some e)).setEv e
          (some { obj := c.obj.deleteEvent kReadEvent, useCount := c.useCount }) with
        kern := (s.kern.eventAdd c.obj.tid c.obj.fd
          (c.obj.deleteEvent kReadEvent).eorigin ok).1 }) ∨
    (∃ k, s' = s.dropped e (c.obj.deleteEvent kReadEvent) c.useCount k ∧
      ((s.loop c.obj.tid = none ∧ k = s.kern) ∨
       (∃ old, s.entry c.obj.tid c.obj.fd = some old ∧
          k = (s.kern.eventMod c.obj.tid c.obj.fd
            (c.obj.deleteEvent kReadEvent).eorigin ok).1))) := by
  unfold hookLeave at h
  rcases (Fallible.bind_eq_ok_iff _ _ _).mp h with ⟨s1, h1, ha⟩
  rcases (Fallible.bind_eq_ok_iff _ _ _).mp ha with ⟨s2, h2, h3⟩
  rcases modifyEvents_ok h1 with ⟨c1, hc1, rfl⟩
  rw [hc] at hc1
  injection hc1 with hc1
  rw [← hc1] at h2
  have hev : (s.setEv e (some { c with obj := c.obj.deleteEvent kReadEvent })).ev e
      = some { c with obj := c.obj.deleteEvent kReadEvent } := Function.update_self _ _ _
  rcases release_ok h3 with ⟨c2, hc2, hs'⟩
  rcases updateLoopEvents_mod hev rfl h2 with ⟨hl, rfl⟩ | ⟨l, hl, hent, rfl⟩ | ⟨old, hold, rfl⟩
  · rw [hev] at hc2
    injection hc2 with hc2
    refine Or.inr ⟨s.kern, ?_, Or.inl ⟨hl, rfl⟩⟩
    rw [hs', ← hc2]
    simp only [dropped, setEv, Function.update_idem]
  · left
    have hev2 : ({ ((s.setEv e (some { c with obj := c.obj.deleteEvent kReadEvent })).setTable
        c.obj.tid l c.obj.fd (some e)).setEv e (some { c with
          obj := c.obj.deleteEvent kReadEvent, useCount := c.useCount + 1 }) with
        kern := (s.kern.eventAdd c.obj.tid c.obj.fd
          (c.obj.deleteEvent kReadEvent).eorigin ok).1 } : Io).ev e
        = some { obj := c.obj.deleteEvent kReadEvent, useCount := c.useCount + 1 } :=
      Function.update_self _ _ _
    have hc2' := hev2.symm.trans hc2
    injection hc2' with hc2'
    -- The table has taken a pointer, so the one that goes is not the last.
    refine ⟨l, hl, hent, ?_⟩
    rw [hs', ← hc2', dropped, if_neg (by simp only []; omega)]
    simp only [setTable, setEv, Function.update_idem, Nat.add_sub_cancel]
    rfl
  · have hc2' := hev.symm.trans hc2
    injection hc2' with hc2'
    refine Or.inr ⟨_, ?_, Or.inr ⟨old, hold, rfl⟩⟩
    rw [hs', ← hc2']
    simp only [dropped, setEv, Function.update_idem]
    rfl

/-- The pool after the first lines of `close`: the descriptor's coroutine, if
    it is the current one, is so no longer, and the descriptor has none. -/
def unmapped (s : Io) (t : Tid) (fd : Fd) : Io :=
  (if s.getCurMco t = s.getMcoRoutine t fd then s.setCurMco t none else s).removeMcoRoutine t fd

/-- Only the pools change. -/
theorem unmapped_eq (s : Io) (t : Tid) (fd : Fd) : ∃ p, s.unmapped t fd = { s with pool := p } := by
  unfold unmapped
  by_cases h : s.getCurMco t = s.getMcoRoutine t fd
  · rw [if_pos h]
    exact ⟨_, rfl⟩
  · rw [if_neg h]
    exact ⟨_, rfl⟩

theorem unmapped_loop (s : Io) (t : Tid) (fd : Fd) : (s.unmapped t fd).loop = s.loop := by
  rcases unmapped_eq s t fd with ⟨p, h⟩
  rw [h]

theorem unmapped_ev (s : Io) (t : Tid) (fd : Fd) : (s.unmapped t fd).ev = s.ev := by
  rcases unmapped_eq s t fd with ⟨p, h⟩
  rw [h]

theorem unmapped_rest (s : Io) (t : Tid) (fd : Fd) :
    (s.unmapped t fd).nextEv = s.nextEv ∧ (s.unmapped t fd).hookable = s.hookable := by
  rcases unmapped_eq s t fd with ⟨p, h⟩
  rw [h]
  exact ⟨rfl, rfl⟩

theorem unmapped_entry (s : Io) (t : Tid) (fd : Fd) (u : Tid) (g : Fd) :
    (s.unmapped t fd).entry u g = s.entry u g := by
  rw [entry, entry, unmapped_loop]

/-- `close` without hooks goes straight to the system call. Else it forgets
    the descriptor's coroutine, and then makes the system call if the loop
    does not know the descriptor, and otherwise takes its object from the
    table, whose pointer goes. -/
theorem close_cases {s s' : Io} {loc : McoRef → Option EvRef} {t : Tid} {fd : Fd} {ok : Bool}
    (ht : s.Tidy loc) (h : s.close t fd ok = .ok s') :
    (s.hookable = false ∧ s' = { s with kern := (s.kern.request fd).uniClose fd }) ∨
    (s.hookable = true ∧ s.entry t fd = none ∧
      s' = { s.unmapped t fd with kern := (s.kern.request fd).uniClose fd }) ∨
    (s.hookable = true ∧ ∃ l e c, s.loop t = some l ∧ s.entry t fd = some e ∧ s.ev e = some c ∧
      c.obj.fd = fd ∧ c.obj.tid = t ∧
      s' = ((s.unmapped t fd).setTable t l fd none).dropped e (c.obj.setState .DEL) c.useCount
        ((s.kern.request fd).eventDel t fd ok).1) := by
  unfold close at h
  cases hh : s.hookable with
  | false =>
      simp only [hh, Bool.not_false, if_true] at h
      injection h with h
      exact Or.inl ⟨rfl, h.symm⟩
  | true =>
      right
      change (if (!s.hookable) = true then _ else _) = _ at h
      rw [if_neg (by rw [hh]; decide)] at h
      change ((({ s with kern := s.kern.request fd } : Io).unmapped t fd).getEvents t fd >>= _)
        = .ok s' at h
      have hpre : ({ s with kern := s.kern.request fd } : Io).unmapped t fd
          = { s.unmapped t fd with kern := s.kern.request fd } := by
        unfold unmapped
        by_cases hc : s.getCurMco t = s.getMcoRoutine t fd
        · have hc' : ({ s with kern := s.kern.request fd } : Io).getCurMco t
              = ({ s with kern := s.kern.request fd } : Io).getMcoRoutine t fd := hc
          rw [if_pos hc, if_pos hc']
          rfl
        · have hc' : ¬ ({ s with kern := s.kern.request fd } : Io).getCurMco t
              = ({ s with kern := s.kern.request fd } : Io).getMcoRoutine t fd := hc
          rw [if_neg hc, if_neg hc']
          rfl
      rw [hpre] at h
      rcases (Fallible.bind_eq_ok_iff _ _ _).mp h with ⟨⟨s1, event⟩, h1, h2⟩
      have hent1 : ({ s.unmapped t fd with kern := s.kern.request fd } : Io).entry t fd
          = s.entry t fd := unmapped_entry s t fd t fd
      rcases getEvents_ok h1 with ⟨hent, hf, hs1⟩ | ⟨e, hent, hf, hsh⟩
      · rw [hf, hs1] at h2
        injection h2 with h2
        rw [hent1] at hent
        exact Or.inl ⟨rfl, hent, h2.symm⟩
      · rw [hf] at h2
        rw [hent1] at hent
        rcases (Fallible.bind_eq_ok_iff _ _ _).mp h2 with ⟨s2, h3, h4⟩
        rcases share_ok hsh with ⟨c, hc, hs1⟩
        have hc0 : s.ev e = some c := by
          rw [← unmapped_ev s t fd]
          exact hc
        rcases ht.tagged t fd e c hent hc0 with ⟨hcf, hct⟩
        rcases loop_of_entry hent with ⟨l, hl, hle⟩
        have hpos : 1 ≤ c.useCount :=
          ht.counted.pos (k := .table t fd) hent (by rw [count, hc0, Option.map_some])
        refine Or.inr ⟨rfl, l, e, c, hl, hent, hc0, hcf, hct, ?_⟩
        -- The object has one pointer more while the call holds it.
        have hev1 : s1.ev e = some { c with useCount := c.useCount + 1 } := by
          rw [hs1]
          exact Function.update_self _ _ _
        have hl1 : s1.loop t = some l := by
          rw [hs1, ← hl, ← unmapped_loop s t fd]
          rfl
        unfold removeEventFromLoop at h3
        simp only [hev1, hct, hl1] at h3
        rcases (Fallible.bind_eq_ok_iff _ _ _).mp h3 with ⟨s3, h5, h6⟩
        rcases modifyEvents_ok h5 with ⟨c5, hc5, hs3⟩
        rw [hev1] at hc5
        injection hc5 with hc5
        rw [← hc5] at hs3
        have hev3 : s3.ev e = some { obj := c.obj.setState .DEL, useCount := c.useCount + 1 } := by
          rw [hs3]
          exact Function.update_self _ _ _
        have hi : (c.obj.setState .DEL).invaild = false := rfl
        have hn : (c.obj.setState .DEL).isnew = false := rfl
        have hm : (c.obj.setState .DEL).ismod = false := rfl
        have hd : (c.obj.setState .DEL).isdel = true := rfl
        have hfd : (c.obj.setState .DEL).fd = fd := hcf
        simp only [pollUpdate, hev3, hi, hn, hm, hd, hfd, hle, Bool.false_eq_true, if_false,
          if_true] at h6
        -- Two pointers go: first that of the table, then that of the call.
        rcases release_ok h6 with ⟨c6, hc6, hs2⟩
        have hc6' := hev3.symm.trans hc6
        injection hc6' with hc6'
        rw [← hc6', dropped, if_neg (by simp only []; omega)] at hs2
        have hev2 : s2.ev e = some { obj := c.obj.setState .DEL, useCount := c.useCount } := by
          rw [hs2]
          exact Function.update_self _ _ _
        rcases release_ok h4 with ⟨c7, hc7, hs'⟩
        rw [hev2] at hc7
        injection hc7 with hc7
        rw [hs', ← hc7, hs2, hs3, hs1]
        simp only [dropped, setEv, setTable, Function.update_idem, Nat.add_sub_cancel]

/-- The loop does nothing for a descriptor it does not know. Otherwise it
    notes what was reported, and resumes the descriptor's coroutine if that
    passes the test. -/
theorem loopEntry_cases {s s' : Io} {loc : McoRef → Option EvRef} {t : Tid} {p : PollerEvent}
    {r : Option McoRef} (ht : s.Tidy loc) (h : s.loopEntry t p = .ok (s', r)) :
    (s.entry t p.fd = none ∧ s' = s ∧ r = none) ∨
    (∃ l e c, s.loop t = some l ∧ s.entry t p.fd = some e ∧ s.ev e = some c ∧ c.obj.fd = p.fd ∧
      c.obj.tid = t ∧
      s' = s.setEv e (some { c with obj := (c.obj.setMutable p.event).eventHandleAble.2 }) ∧
      (r = none ∨ ((c.obj.setMutable p.event).eventHandleAble.1 = true ∧ l.wakeFd ≠ p.fd ∧
        r = s.getMcoRoutine t p.fd))) := by
  unfold loopEntry at h
  cases hl : s.loop t with
  | none =>
      rw [hl] at h
      cases h
  | some l =>
      rw [hl] at h
      simp only [] at h
      rw [entry_of_loop hl]
      cases he : l.events p.fd with
      | none =>
          rw [he] at h
          injection h with h
          injection h with h1 h2
          exact Or.inl ⟨rfl, h1.symm, h2.symm⟩
      | some e =>
          right
          rw [he] at h
          simp only [] at h
          cases hc : s.ev e with
          | none =>
              rw [hc] at h
              cases h
          | some c =>
              rw [hc] at h
              simp only [] at h
              -- What is compared with `wakeFd` is the descriptor of the object, which is the
              -- one reported.
              rcases ht.tagged t p.fd e c (by rw [entry_of_loop hl, he]) hc with ⟨hcf, hct⟩
              have hfd : (c.obj.setMutable p.event).eventHandleAble.2.fd = p.fd := by
                rw [(c.obj.setMutable p.event).eventHandleAble_keeps.1]
                exact hcf
              refine ⟨l, e, c, rfl, rfl, hc, hcf, hct, ?_⟩
              cases hab : (c.obj.setMutable p.event).eventHandleAble.1 with
              | false =>
                  rw [hab] at h
                  injection h with h
                  injection h with h1 h2
                  exact ⟨h1.symm, Or.inl h2.symm⟩
              | true =>
                  simp only [hab, hfd, Bool.not_true, Bool.false_eq_true, if_false] at h
                  by_cases hw : l.wakeFd = p.fd
                  · rw [if_pos hw] at h
                    injection h with h
                    injection h with h1 h2
                    exact ⟨h1.symm, Or.inl h2.symm⟩
                  · rw [if_neg hw] at h
                    injection h with h
                    injection h with h1 h2
                    exact ⟨h1.symm, Or.inr ⟨rfl, hw, h2.symm⟩⟩

/-- A new loop has its `eventfd` in the table. -/
theorem newLoop_cases {s s' : Io} {t : Tid} {fd : Fd} (h : s.newLoop t fd = .ok s') :
    ∃ l : EventLoop, l.wakeFd = fd ∧ l.wakeEvent = s.nextEv ∧
      l.events = Function.update (fun _ => none) fd (some s.nextEv) ∧
      s' = { s with
        loop := Function.update s.loop t (some l)
        ev := Function.update s.ev s.nextEv
          (some { obj := Events.make fd kReadEvent t, useCount := 2 })
        nextEv := s.nextEv + 1
        kern := ((s.kern.openFd fd true).eventAdd t fd kReadEvent true).1 } := by
  unfold newLoop at h
  have h1 : (Events.make fd kReadEvent t).invaild = false := rfl
  have h2 : (Events.make fd kReadEvent t).isnew = true := rfl
  have hfd : (Events.make fd kReadEvent t).fd = fd := rfl
  simp only [newEvents, pollUpdate, Function.update_self, h1, h2, Bool.false_eq_true, if_false,
    if_true] at h
  rcases tableAdd_ok h with ⟨c, hc, rfl⟩
  have hev : Function.update s.ev s.nextEv
      (some { obj := Events.make fd kReadEvent t, useCount := 1 }) s.nextEv = some c := hc
  rw [Function.update_self] at hev
  injection hev with hev
  refine ⟨{ events := Function.update (fun _ => none) fd (some s.nextEv), wakeFd := fd,
            wakeEvent := s.nextEv }, rfl, rfl, rfl, ?_⟩
  rw [← hev, hfd]
  simp only [setTable, setEv, Function.update_idem]
  rfl

/-! ### Each keeps the invariant -/

namespace Tidy

variable {s s' : Io} {loc : McoRef → Option EvRef} {t : Tid} {fd : Fd} {e : EvRef} {c : McoRef}

theorem congr (ht : s.Tidy loc) (hl : s'.loop = s.loop) (he : s'.ev = s.ev)
    (hn : s'.nextEv = s.nextEv) : s'.Tidy loc := by
  have hent : ∀ u g, s'.entry u g = s.entry u g := by
    intro u g
    rw [entry, entry, hl]
  refine ⟨ht.counted.congr (congrFun (held_congr loc hl)) (fun r => by rw [count, count, he]),
    ?_, ?_⟩
  · intro r hr
    rw [he]
    exact ht.unused r (by rw [← hn]; exact hr)
  · intro u g r x hr hx
    rw [hent] at hr
    rw [he] at hx
    exact ht.tagged u g r x hr hx

/-- What a place holds exists. -/
theorem live (ht : s.Tidy loc) {k : Holder} (hk : s.held loc k = some e) :
    ∃ x, s.ev e = some x ∧ 1 ≤ x.useCount := by
  have hl := ht.counted.live k e hk
  rw [count, Option.isSome_map] at hl
  rcases Option.isSome_iff_exists.mp hl with ⟨x, hx⟩
  exact ⟨x, hx, ht.counted.pos hk (by rw [count, hx, Option.map_some])⟩

theorem count_unused (ht : s.Tidy loc) : s.count s.nextEv = none := by
  rw [count, ht.unused s.nextEv (Nat.le_refl _), Option.map_none]

/-- A change to one object that keeps its descriptor and thread. -/
theorem tagged_setEv (ht : s.Tidy loc) {x y z : EventsCell} {u : Tid} {g : Fd} {r : EvRef}
    (hx : s.ev e = some x) (hr : s.entry u g = some r)
    (hz : Function.update s.ev e (some y) r = some z) (hfd : y.obj.fd = x.obj.fd)
    (htid : y.obj.tid = x.obj.tid) : z.obj.fd = g ∧ z.obj.tid = u := by
  by_cases hre : r = e
  · rw [hre, Function.update_self] at hz
    injection hz with hz
    rw [← hz, hfd, htid]
    rw [hre] at hr
    exact ht.tagged u g e x hr hx
  · rw [Function.update_of_ne hre] at hz
    exact ht.tagged u g r z hr hz

theorem unused_setEv (ht : s.Tidy loc) {x : EventsCell} {y : Option EventsCell}
    (hx : s.ev e = some x) (r : EvRef) (hr : s.nextEv ≤ r) :
    Function.update s.ev e y r = none := by
  have hre : r ≠ e := by
    rintro rfl
    rw [ht.unused r hr] at hx
    cases hx
  rw [Function.update_of_ne hre]
  exact ht.unused r hr

theorem found {ok : Bool} (ht : s.Tidy loc) (h : Found s s' t fd ok e) :
    s'.Tidy (Function.update loc c (some e)) := by
  rcases h.eq with ⟨x, hx, _, _, rfl⟩
  refine ⟨?_, ht.unused_setEv hx, fun u g r z hr hz => ht.tagged_setEv hx hr hz rfl rfl⟩
  refine ht.counted.take (k := .call c) (n := x.useCount) (by rw [count, hx, Option.map_some])
    ?_ ?_
  · exact held_call s loc c (some e)
  · exact setEv_count s e _

theorem added {ok : Bool} {st : EventsState} (ht : s.Tidy loc) (h : Added s s' t fd ok st) :
    s'.Tidy (Function.update loc c (some s.nextEv)) := by
  rcases h.eq with ⟨l, hl, rfl⟩
  -- The object is made in the table, and the call takes a second pointer.
  have h1 := ht.counted.fresh (k := .table t fd) ht.count_unused rfl rfl
  refine ⟨?_, ?_, ?_⟩
  · refine h1.take (k := .call c) (n := 1) (Function.update_self _ _ _) ?_ ?_
    · rw [← setTable_held s t l fd (some s.nextEv) loc hl]
      exact held_call (s.setTable t l fd (some s.nextEv)) loc c (some s.nextEv)
    · rw [Function.update_idem]
      exact setEv_count (s.setTable t l fd (some s.nextEv)) s.nextEv _
  · intro r hr
    have hr' : s.nextEv + 1 ≤ r := hr
    change Function.update s.ev s.nextEv _ r = none
    rw [Function.update_of_ne (Nat.ne_of_gt hr')]
    exact ht.unused r (Nat.le_of_lt hr')
  · intro u g r z hr hz
    have hr' : (s.setTable t l fd (some s.nextEv)).entry u g = some r := hr
    rw [setTable_entry s t l fd _ hl] at hr'
    have hz' : Function.update s.ev s.nextEv (some
        { obj := (Events.make fd kReadEvent t).setState st, useCount := 2 }) r = some z := hz
    by_cases hug : u = t ∧ g = fd
    · rw [if_pos hug] at hr'
      injection hr' with hr'
      rw [← hr', Function.update_self] at hz'
      injection hz' with hz'
      rw [← hz', hug.1, hug.2]
      exact ⟨rfl, rfl⟩
    · rw [if_neg hug] at hr'
      -- What the other entries hold is older.
      have hre : r ≠ s.nextEv := by
        rintro rfl
        rcases ht.live (k := .table u g) hr' with ⟨x, hx, _⟩
        rw [ht.unused s.nextEv (Nat.le_refl _)] at hx
        cases hx
      rw [Function.update_of_ne hre] at hz'
      exact ht.tagged u g r z hr' hz'

theorem stray {st : EventsState} (ht : s.Tidy loc) (h : Stray s s' t fd st) :
    s'.Tidy (Function.update loc c (some s.nextEv)) := by
  rcases h.eq with rfl
  refine ⟨?_, ?_, ?_⟩
  · refine ht.counted.fresh (k := .call c) ht.count_unused ?_ ?_
    · exact held_call s loc c (some s.nextEv)
    · exact setEv_count s s.nextEv _
  · intro r hr
    have hr' : s.nextEv + 1 ≤ r := hr
    change Function.update s.ev s.nextEv _ r = none
    rw [Function.update_of_ne (Nat.ne_of_gt hr')]
    exact ht.unused r (Nat.le_of_lt hr')
  · intro u g r z hr hz
    have hz' : Function.update s.ev s.nextEv (some
        { obj := (Events.make fd kReadEvent t).setState st, useCount := 1 }) r = some z := hz
    have hre : r ≠ s.nextEv := by
      rintro rfl
      rcases ht.live (k := .table u g) hr with ⟨x, hx, _⟩
      rw [ht.unused s.nextEv (Nat.le_refl _)] at hx
      cases hx
    rw [Function.update_of_ne hre] at hz'
    exact ht.tagged u g r z hr hz'

theorem mapped (ht : s.Tidy loc) (mco : McoRef) : (s.setMcoRoutine t fd mco).Tidy loc :=
  ht.congr rfl rfl rfl

/-- Entering a hooked call, made by `c`. -/
theorem hookEnter {ok : Bool} {r : Option EvRef} (ht : s.Tidy loc) (c : McoRef)
    (h : s.hookEnter t fd ok = .ok (s', r)) :
    (r = none ∧ s' = s) ∨ ∃ e, r = some e ∧ s'.Tidy (Function.update loc c (some e)) := by
  rcases hookEnter_cases ht h with ⟨hr, hs, _⟩ | ⟨_, _, mco, e, hr, _, hcase⟩
  · exact Or.inl ⟨hr, hs⟩
  · right
    refine ⟨e, hr, ?_⟩
    rcases hcase with ⟨_, hf | ⟨rfl, ha | hst⟩⟩ | ⟨_, rfl, ha | hst⟩
    · exact ht.found hf
    · exact ht.added ha
    · exact ht.stray hst
    · exact (ht.mapped mco).added ha
    · exact (ht.mapped mco).stray hst

/-- A place lets go of its pointer. -/
theorem dropped {k : Holder} {x : EventsCell} {obj : Events} {kern : Kernel}
    {loc' : McoRef → Option EvRef} (ht : s.Tidy loc) (hk : s.held loc k = some e)
    (hx : s.ev e = some x) (hfd : obj.fd = x.obj.fd) (htid : obj.tid = x.obj.tid)
    (hloop : s'.ev = s.ev) (hn : s'.nextEv = s.nextEv)
    (hheld : s'.held loc' = Function.update (s.held loc) k none)
    (hent : ∀ u g r, s'.entry u g = some r → s.entry u g = some r) :
    (s'.dropped e obj x.useCount kern).Tidy loc' := by
  have hxc : s.count e = some x.useCount := by rw [count, hx, Option.map_some]
  have hcount : s'.count = s.count := by
    funext r
    rw [count, count, hloop]
  have hc := ht.counted.drop hk hxc rfl rfl
  unfold Io.dropped
  by_cases h1 : x.useCount ≤ 1
  · rw [if_pos h1]
    rw [if_pos h1] at hc
    refine ⟨hc.congr (fun j => ?_) (fun r => ?_), ?_, ?_⟩
    · rw [← hheld]
      exact congrFun (held_congr loc' rfl) j
    · rw [← hcount]
      exact congrFun (setEv_count s' e none) r
    · intro r hr
      change Function.update s'.ev e none r = none
      rw [hloop]
      exact ht.unused_setEv hx r (by rw [← hn]; exact hr)
    · intro u g r z hr hz
      have hz' : Function.update s'.ev e none r = some z := hz
      have hre : r ≠ e := by
        rintro rfl
        rw [Function.update_self] at hz'
        cases hz'
      rw [Function.update_of_ne hre, hloop] at hz'
      exact ht.tagged u g r z (hent u g r hr) hz'
  · rw [if_neg h1]
    rw [if_neg h1] at hc
    refine ⟨hc.congr (fun j => ?_) (fun r => ?_), ?_, ?_⟩
    · rw [← hheld]
      exact congrFun (held_congr loc' rfl) j
    · rw [← hcount]
      exact congrFun (setEv_count s' e _) r
    · intro r hr
      change Function.update s'.ev e _ r = none
      rw [hloop]
      exact ht.unused_setEv hx r (by rw [← hn]; exact hr)
    · intro u g r z hr hz
      have hz' : Function.update s'.ev e (some { obj := obj, useCount := x.useCount - 1 }) r
        = some z := hz
      rw [hloop] at hz'
      exact ht.tagged_setEv hx (hent u g r hr) hz' hfd htid

/-- Leaving the hooked call that `c` is in. -/
theorem hookLeave {ok : Bool} (ht : s.Tidy loc) (hloc : loc c = some e)
    (h : s.hookLeave e ok = .ok s') : s'.Tidy (Function.update loc c none) := by
  have hk : s.held loc (.call c) = some e := hloc
  rcases ht.live hk with ⟨x, hx, hpos⟩
  rcases hookLeave_cases hx hpos h with ⟨l, hl, hent, rfl⟩ | ⟨k, rfl, _⟩
  · -- The pointer moves from the call to the table.
    have h1 := ht.counted.take (k := .table x.obj.tid x.obj.fd) (n := x.useCount)
      (by rw [count, hx, Option.map_some]) rfl rfl
    have hk1 : Function.update (s.held loc) (.table x.obj.tid x.obj.fd) (some e) (.call c)
        = some e := by
      rw [Function.update_of_ne (by intro hc; cases hc)]
      exact hk
    have h2 := h1.drop hk1 (Function.update_self _ _ _) rfl rfl
    rw [Function.update_idem, if_neg (by omega), Nat.add_sub_cancel,
      ← setTable_held s _ l _ _ loc hl, ← held_call] at h2
    refine ⟨h2.congr (congrFun (held_congr _ rfl)) (fun r => ?_), ?_, ?_⟩
    · exact congrFun (setEv_count (s.setTable x.obj.tid l x.obj.fd (some e)) e _) r
    · intro r hr
      exact ht.unused_setEv hx r hr
    · intro u g r z hr hz
      have hr' : (s.setTable x.obj.tid l x.obj.fd (some e)).entry u g = some r := hr
      rw [setTable_entry s _ l _ _ hl] at hr'
      have hz' : Function.update s.ev e (some
        { obj := x.obj.deleteEvent kReadEvent, useCount := x.useCount }) r = some z := hz
      by_cases hug : u = x.obj.tid ∧ g = x.obj.fd
      · rw [if_pos hug] at hr'
        injection hr' with hr'
        rw [← hr', Function.update_self] at hz'
        injection hz' with hz'
        rw [← hz', hug.1, hug.2]
        exact ⟨rfl, rfl⟩
      · rw [if_neg hug] at hr'
        exact ht.tagged_setEv hx hr' hz' rfl rfl
  · exact ht.dropped hk hx rfl rfl rfl rfl (held_call s loc c none) (fun _ _ _ hr => hr)

/-- Closing. -/
theorem close {ok : Bool} (ht : s.Tidy loc) (h : s.close t fd ok = .ok s') : s'.Tidy loc := by
  rcases close_cases ht h with ⟨_, rfl⟩ | ⟨_, _, rfl⟩ | ⟨_, l, e, x, hl, hent, hx, hfd, htid, rfl⟩
  · exact ht.congr rfl rfl rfl
  · exact ht.congr (unmapped_loop s t fd) (unmapped_ev s t fd) (unmapped_rest s t fd).1
  · have hl' : (s.unmapped t fd).loop t = some l := by rw [unmapped_loop, hl]
    have hheld : (s.unmapped t fd).held loc = s.held loc :=
      held_congr loc (unmapped_loop s t fd)
    refine ht.dropped (k := .table t fd) hent hx rfl rfl (unmapped_ev s t fd)
      (unmapped_rest s t fd).1 ?_ ?_
    · rw [setTable_held _ t l fd none loc hl', hheld]
    · intro u g r hr
      rw [setTable_entry _ t l fd none hl'] at hr
      by_cases hug : u = t ∧ g = fd
      · rw [if_pos hug] at hr
        cases hr
      · rw [if_neg hug, unmapped_entry] at hr
        exact hr

/-- A reported event. -/
theorem loopEntry {p : PollerEvent} {r : Option McoRef} (ht : s.Tidy loc)
    (h : s.loopEntry t p = .ok (s', r)) : s'.Tidy loc := by
  rcases loopEntry_cases ht h with ⟨_, rfl, _⟩ | ⟨l, e, x, _, _, hx, _, _, rfl, _⟩
  · exact ht
  · have hkeep := (x.obj.setMutable p.event).eventHandleAble_keeps
    exact ⟨ht.counted.congr (congrFun (held_congr loc rfl)) (congrFun (setEv_count_self hx rfl)),
      ht.unused_setEv hx, fun u g q z hq hz => ht.tagged_setEv hx hq hz hkeep.1 hkeep.2.1⟩

/-- A new loop. -/
theorem newLoop (ht : s.Tidy loc) (hl : s.loop t = none) (h : s.newLoop t fd = .ok s') :
    s'.Tidy loc := by
  rcases newLoop_cases h with ⟨l, _, hwe, hev, rfl⟩
  have h1 := ht.counted.fresh (k := .table t fd) ht.count_unused rfl rfl
  -- The member of the loop holds the second pointer.
  have h2 := h1.take (k := .wake t) (n := 1) (Function.update_self _ _ _) rfl rfl
  have hnone : ∀ g, s.entry t g = none := by
    intro g
    rw [entry, hl, Option.bind_none]
  have hnew : ∀ (x : Io), x.loop = Function.update s.loop t (some l) → ∀ u g,
      x.entry u g = if u = t ∧ g = fd then some s.nextEv else s.entry u g := by
    intro x hx u g
    rw [entry, hx]
    by_cases hu : u = t
    · rw [hu, Function.update_self, Option.bind_some, hev]
      by_cases hg : g = fd
      · rw [hg, Function.update_self, if_pos ⟨rfl, rfl⟩]
      · rw [Function.update_of_ne hg, if_neg (fun hc => hg hc.2), hnone g]
    · rw [Function.update_of_ne hu, if_neg (fun hc => hu hc.1)]
      rfl
  refine ⟨h2.congr (fun k => ?_) (fun r => ?_), ?_, ?_⟩
  · cases k with
    | table u g =>
        change Io.entry _ u g = _
        rw [hnew _ rfl u g, Function.update_of_ne (by intro hc; cases hc)]
        by_cases hug : u = t ∧ g = fd
        · rw [if_pos hug, hug.1, hug.2, Function.update_self]
        · rw [if_neg hug, Function.update_of_ne]
          · rfl
          · intro hc
            injection hc with hu hg
            exact hug ⟨hu, hg⟩
    | wake u =>
        change (Function.update s.loop t (some l) u).map _ = _
        by_cases hu : u = t
        · rw [hu, Function.update_self, Function.update_self, Option.map_some, hwe]
        · rw [Function.update_of_ne hu, Function.update_of_ne, Function.update_of_ne]
          · rfl
          · intro hc
            cases hc
          · intro hc
            injection hc with hc
            exact hu hc
    | call d =>
        rw [Function.update_of_ne (by intro hc; cases hc),
          Function.update_of_ne (by intro hc; cases hc)]
        rfl
  · rw [Function.update_idem]
    exact congrFun (setEv_count s s.nextEv _) r
  · intro r hr
    have hr' : s.nextEv + 1 ≤ r := hr
    change Function.update s.ev s.nextEv _ r = none
    rw [Function.update_of_ne (Nat.ne_of_gt hr')]
    exact ht.unused r (Nat.le_of_lt hr')
  · intro u g r z hr hz
    rw [hnew _ rfl u g] at hr
    have hz' : Function.update s.ev s.nextEv
      (some { obj := Events.make fd kReadEvent t, useCount := 2 }) r = some z := hz
    by_cases hug : u = t ∧ g = fd
    · rw [if_pos hug] at hr
      injection hr with hr
      rw [← hr, Function.update_self] at hz'
      injection hz' with hz'
      rw [← hz', hug.1, hug.2]
      exact ⟨rfl, rfl⟩
    · rw [if_neg hug] at hr
      have hre : r ≠ s.nextEv := by
        rintro rfl
        rcases ht.live (k := .table u g) hr with ⟨x, hx, _⟩
        rw [ht.unused s.nextEv (Nat.le_refl _)] at hx
        cases hx
      rw [Function.update_of_ne hre] at hz'
      exact ht.tagged u g r z hr hz'

end Tidy

end Io

end Fasco
