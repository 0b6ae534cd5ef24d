import Fasco.Theory.Handing
import Fasco.Theory.Turning

/-!
# Every Connection Has One Loop

The server hands each connection to one loop. From then on until the callback of
the connection calls `close`, that loop has its descriptor in the table and no
other loop has; the object there names the loop's thread; and the pool of that
thread has the coroutine that was made for the connection. So a loop that has
found an event for a connection finds its coroutine as well, whatever the
threads do in between.

This holds in every run, with any number of loops and any order of steps. The
loops and the server are added here to the steps of the coroutines, and the end
of a `Continuation`, which can be on another thread than the one it was for.

## Main definitions

* `bury`: The state without a coroutine.

## Theorems

* `code_keeps`, `loopCode_keeps`, `start_keeps`, `addLoop_keeps`, `drop_keeps`:
  Every step keeps the invariant.
* `inv_run`: So it holds in every run.
* `handed_to_one_loop`: Every connection has one loop.
-/

namespace Fasco

open Fallible

namespace TcpSys

section Steps

variable {s : TcpSys} {c d : McoRef} {k : Corun} {p q : Pos} {i : Supply} {t : Tid} {fd : Fd}
  {e : EvRef}

/-! ### Coroutines and loops -/

theorem code_keeps (hi : s.Inv) (hk : s.corun c = some k) (hp : s.pos c = some p)
    (ha : p.active = true) (hco : s.w.co i.co = none)
    (hnew : ∀ r, i.accepted = some r → s.io.kern.isOpen r.1 = false) :
    Keeps (s.code k.loop c k i p) := by
  cases p with
  | fresh h => cases ha
  | start => exact code_start hi hk hp
  | top => exact code_top hi hk hp
  | check fd mco => exact code_check hi hk hp
  | look fd => exact code_look hi hk hp
  | find fd l => exact code_find hi hk hp
  | alone fd => exact False.elim (hi.serves c k _ hk hp).fits
  | enrol fd mco => exact False.elim (hi.serves c k _ hk hp).fits
  | report fd e r => exact code_report hi hk hp
  | tell fd e l r => exact code_tell hi hk hp
  | yield fd e => exact code_yield hi hk hp
  | switch fd e mco => exact code_switch hi hk hp
  | asleep fd e => cases ha
  | sys fd => exact code_sys hi hk hp hnew
  | accepted g => exact code_accepted hi hk hp
  | made g e l => exact code_made hi hk hp hco
  | give g e l co => exact code_give hi hk hp
  | enter e l co => exact code_enter hi hk hp
  | leave e co => exact code_leave hi hk hp
  | close fd q => exact closeCode_keeps hi hk hp
  | finish => exact code_finish hi hk hp
  | ended => cases ha

theorem loopCode_keeps (hi : s.Inv) (ha : s.Supplied (.run t i)) :
    Keeps (s.loopCode t i (s.turn t)) := by
  rcases ha with ⟨hloop, hbatch, hsite, hco, hnew⟩
  have hok := hi.turns t
  cases hr : s.turn t with
  | idle => exact loop_idle hi hr hloop (hbatch hr)
  | found fd => exact loop_found hi hr
  | resume mco => exact loop_resume hi hr
  | enter mco => exact loop_enter hi hr hsite
  | inside mco =>
      rw [hr] at hok
      rcases hok with ⟨k, p, hk, hp, hpa, rfl⟩
      rw [loopCode, hi.hosted.exec hr]
      simp only []
      rw [hk, hp]
      exact code_keeps hi hk hp hpa hco hnew
  | after mco => exact loop_after hi hr

/-! ### Loops and the server -/

theorem poll_keeps (hi : s.Inv) (b : Tid → List PollerEvent) :
    ({ s with batch := b } : TcpSys).Inv where
  hookable := hi.hookable
  neat := hi.neat
  hosted := hi.hosted
  registry := ⟨hi.registry.loops, hi.registry.workers, hi.registry.main, hi.registry.started⟩
  charges := ⟨hi.charges.paired, hi.charges.owner, hi.charges.unwoken, hi.charges.single⟩
  serves := fun c k p hk hp =>
    have hs := hi.serves c k p hk hp
    ⟨hs.object, hs.home, hs.mapped, hs.tabled, hs.active, hs.current, hs.fits⟩
  entered := hi.entered
  turns := fun u => (hi.turns u).frame (fun _ _ _ hkd hq _ _ => ⟨hkd, hq⟩) (fun _ _ => rfl)
  accepts := fun c p hp => (hi.accepts c p hp).still (fun e t fd => .refl _ e t fd)
    (fun g r l h => by
      have hold := hi.accepts c p hp
      rw [h] at hold
      rcases hold.1 with ⟨x, hx, _⟩
      exact Option.isSome_iff_exists.mpr ⟨x, hx⟩) rfl rfl (fun _ _ _ h => h)

/-- The server and its coroutine. -/
theorem start_keeps {ok : Bool} (hi : s.Inv) (ha : s.Supplied (.start t fd c ok)) :
    Keeps (s.start t fd c ok) := by
  rcases ha with ⟨hmain, hserver, hopen, hco, _⟩
  rcases hi.neat.openFd_newEvents hopen false t (place c 0) with
    ⟨io1, hnew, hloop, hhook, hx, hneat, hleaves⟩
  -- The coroutine is made, and handed to the main loop at once.
  have hborn := hi.born hco { accepts := true, event := s.io.nextEv, fd := fd, loop := t } (some c)
    hneat hleaves hhook hloop ⟨_, hx, rfl, rfl⟩ hi.unowned_next
    (hi.registry.main t hmain) (fun d kd hkd hkda => ?_) (fun _ => by rw [hmain]; rfl)
  · rcases hborn.launched (Function.update_self _ _ _) (Function.update_self _ _ _) hx rfl ok with
      ⟨io2, hio2, hc⟩
    have hio : (io1.setMcoRoutine t fd c).updateEvents t s.io.nextEv ok = .ok io2 := hio2
    rw [go, show (s.bear c { accepts := true, event := s.io.nextEv, fd := fd, loop := t } io1
      (some c)).pos = Function.update s.pos c (some (.fresh .made)) from rfl,
      Function.update_idem] at hc
    unfold TcpSys.start
    rw [hnew]
    simp only [hmain]
    rw [hio]
    refine ⟨hc, hc.accepts_single (c := c) (Function.update_self _ _ _) rfl
      (Function.update_self _ _ _) trivial (fun d q _ h => .inl h)⟩
  · -- There has been no server, and no acceptor.
    have hkd' : Function.update s.corun c _ d = some kd := hkd
    by_cases hdc : d = c
    · rw [hdc]
    · rw [Function.update_of_ne hdc] at hkd'
      rw [hi.charges.single d kd hkd' hkda] at hserver
      cases hserver

/-- A thread that has no loop yet is not in the registry. -/
theorem addEventLoop_new {r : EventLoopPool} {l : LoopRef} (ismain : Bool)
    (h : r.loops t = none) :
    (r.addEventLoop t (some l) ismain).1.loops = Function.update r.loops t (some l) ∧
      (∀ d, d ∈ (r.addEventLoop t (some l) ismain).1.nextLoops → d ∈ r.nextLoops ∨ d = l) ∧
      (∀ d, (r.addEventLoop t (some l) ismain).1.mainLoop = some d →
        r.mainLoop = some d ∨ d = l) ∧
      (r.mainLoop.isSome → (r.addEventLoop t (some l) ismain).1.mainLoop.isSome) := by
  unfold EventLoopPool.addEventLoop
  simp only [h, Option.isSome_none, Bool.false_eq_true, if_false]
  cases ismain with
  | true =>
      refine ⟨rfl, fun d hd => .inl hd, fun d hd => .inr ?_, fun _ => rfl⟩
      injection hd with hd
      exact hd.symm
  | false =>
      refine ⟨rfl, fun d hd => ?_, fun d hd => .inl hd, fun h => h⟩
      rcases List.mem_append.mp hd with hd | hd
      · exact .inl hd
      · exact .inr (List.mem_singleton.mp hd)

/-- Thread `t`, which has had none, has the loop `l` with the `eventfd` `fd`; the
    tables are `io` and the registry is `L`. -/
structure LoopAdded (s : TcpSys) (t : Tid) (fd : Fd) (l : EventLoop) (io : Io)
    (L : EventLoopPool) : Prop where
  unlooped : s.io.loop t = none
  shut : s.io.kern.isOpen fd = false
  wakeEvent : l.wakeEvent = s.io.nextEv
  events : l.events = Function.update (fun _ => none) fd (some s.io.nextEv)
  loop : io.loop = Function.update s.io.loop t (some l)
  pool : io.pool = s.io.pool
  ev : io.ev = Function.update s.io.ev s.io.nextEv
    (some { obj := Events.make fd kReadEvent t, useCount := 2 })
  isOpen : io.kern.isOpen = Function.update s.io.kern.isOpen fd true
  loops : L.loops = Function.update s.loops.loops t (some t)
  workers : ∀ d, d ∈ L.nextLoops → d ∈ s.loops.nextLoops ∨ d = t
  main : ∀ d, L.mainLoop = some d → s.loops.mainLoop = some d ∨ d = t
  started : s.loops.mainLoop.isSome → L.mainLoop.isSome

/-- The registry has loops only. -/
theorem Core.unregistered (hi : s.Core) (h : s.io.loop t = none) : s.loops.loops t = none := by
  cases hd : s.loops.loops t with
  | none => rfl
  | some d =>
      have hsome := (hi.registry.loops t d hd).2
      rw [h] at hsome
      cases hsome

namespace LoopAdded

variable {l : EventLoop} {io : Io} {L : EventLoopPool}

theorem loop_self (h : LoopAdded s t fd l io L) : io.loop t = some l := by
  rw [h.loop, Function.update_self]

theorem loop_other (h : LoopAdded s t fd l io L) {u : Tid} (hu : u ≠ t) :
    io.loop u = s.io.loop u := by
  rw [h.loop, Function.update_of_ne hu]

theorem entry_other (h : LoopAdded s t fd l io L) {u : Tid} (hu : u ≠ t) (g : Fd) :
    io.entry u g = s.io.entry u g := by
  rw [Io.entry, Io.entry, h.loop_other hu]

/-- The old objects stay, and the new one is none of them. -/
theorem lives (h : LoopAdded s t fd l io L) (hi : s.Inv) {r : EvRef} {x : EventsCell}
    (hx : s.io.ev r = some x) : io.ev r = some x ∧ r ≠ s.io.nextEv := by
  have hne : r ≠ s.io.nextEv := by
    rintro rfl
    rw [hi.neat.tidy.unused s.io.nextEv (Nat.le_refl _)] at hx
    cases hx
  exact ⟨by rw [h.ev, Function.update_of_ne hne]; exact hx, hne⟩

/-- So do the loops that the registry has. -/
theorem registered (h : LoopAdded s t fd l io L) (hi : s.Inv) {r : LoopRef}
    (hr : s.loops.loops r = some r) : L.loops r = some r := by
  rw [h.loops, Function.update_of_ne]
  · exact hr
  · rintro rfl
    rw [hi.unregistered h.unlooped] at hr
    cases hr

/-- Nobody is in charge of anything on the thread. -/
theorem away (h : LoopAdded s t fd l io L) (hi : s.Inv) (hk : s.corun c = some k) :
    k.loop ≠ t := by
  rintro rfl
  rcases hi.pos_of hk with ⟨q, hq⟩
  have hhome := (hi.serves c k q hk hq).home
  rw [hi.unregistered h.unlooped] at hhome
  cases hhome

/-- An old object that no loop had is not the new loop's. -/
theorem unwoken (h : LoopAdded s t fd l io L) (hi : s.Inv) {r : EvRef} {x : EventsCell}
    (hx : s.io.ev r = some x) (hun : ∀ u l', s.io.loop u = some l' → l'.wakeEvent ≠ r) :
    ∀ u l', io.loop u = some l' → l'.wakeEvent ≠ r := by
  intro u l' hl'
  by_cases hu : u = t
  · rw [hu, h.loop_self] at hl'
    injection hl' with hl'
    rw [← hl', h.wakeEvent]
    exact (h.lives hi hx).2.symm
  · rw [h.loop_other hu] at hl'
    exact hun u l' hl'

theorem registry (h : LoopAdded s t fd l io L) (hi : s.Inv) :
    ({ s with io := io, loops := L } : TcpSys).Registry := by
  refine ⟨fun u d hd => ?_, fun d hd => ?_, fun d hd => ?_,
    fun hsv => h.started (hi.registry.started hsv)⟩
  · change L.loops u = some d at hd
    change d = u ∧ (io.loop u).isSome
    rw [h.loops] at hd
    by_cases hu : u = t
    · rw [hu, Function.update_self] at hd
      injection hd with hd
      rw [hu, h.loop_self]
      exact ⟨hd.symm, rfl⟩
    · rw [Function.update_of_ne hu] at hd
      rw [h.loop_other hu]
      exact hi.registry.loops u d hd
  · change L.loops d = some d
    rcases h.workers d hd with hd | rfl
    · exact h.registered hi (hi.registry.workers d hd)
    · rw [h.loops, Function.update_self]
  · change L.loops d = some d
    rcases h.main d hd with hd | rfl
    · exact h.registered hi (hi.registry.main d hd)
    · rw [h.loops, Function.update_self]

theorem charges (h : LoopAdded s t fd l io L) (hi : s.Inv) :
    ({ s with io := io, loops := L } : TcpSys).Charges := by
  refine ⟨hi.charges.paired, hi.charges.owner, fun d kd u l' hkd hl' => ?_, hi.charges.single⟩
  rcases hi.pos_of hkd with ⟨q, hq⟩
  rcases (hi.serves d kd q hkd hq).object with ⟨x, hx, _⟩
  exact h.unwoken hi hx (fun u l' h => hi.charges.unwoken d kd u l' hkd h) u l' hl'

theorem serves (h : LoopAdded s t fd l io L) (hi : s.Inv) (hk : s.corun c = some k)
    (hp : s.pos c = some p) : ({ s with io := io, loops := L } : TcpSys).Serves c k p := by
  have hs := hi.serves c k p hk hp
  rcases hs.object with ⟨x, hx, hrest⟩
  refine ⟨⟨x, (h.lives hi hx).1, hrest⟩, h.registered hi hs.home, fun hm => ?_, fun htab => ?_,
    hs.active, fun hcur => ?_, hs.fits⟩
  · change (io.pool k.loop).fdMcos k.fd = some c
    rw [h.pool]
    exact hs.mapped hm
  · exact (h.entry_other (h.away hi hk) k.fd).trans (hs.tabled htab)
  · change (io.pool k.loop).cur = some c
    rw [h.pool]
    exact hs.current hcur

/-- The new loop has its own object in the table. -/
theorem entered (h : LoopAdded s t fd l io L) (hi : s.Inv) {u : Tid} {g : Fd} {r : EvRef}
    (hr : io.entry u g = some r) : (∃ l', io.loop u = some l' ∧ l'.wakeEvent = r) ∨
      ∃ c k p, s.corun c = some k ∧ s.pos c = some p ∧ k.event = r ∧ k.loop = u ∧
        p.tabled = true := by
  by_cases hu : u = t
  · refine .inl ⟨l, by rw [hu, h.loop_self], ?_⟩
    rw [hu, Io.entry_of_loop h.loop_self, h.events] at hr
    by_cases hg : g = fd
    · rw [hg, Function.update_self] at hr
      injection hr with hr
      exact h.wakeEvent.trans hr
    · rw [Function.update_of_ne hg] at hr
      cases hr
  · rw [h.entry_other hu] at hr
    rcases hi.entered u g r hr with ⟨l', hl', hle⟩ | hmine
    · exact .inl ⟨l', by rw [h.loop_other hu, hl'], hle⟩
    · exact .inr hmine

theorem accepts (h : LoopAdded s t fd l io L) (hi : s.Inv) (hp : s.pos c = some p) :
    ({ s with io := io, loops := L } : TcpSys).Accepts p := by
  have hacc := hi.accepts c p hp
  cases p with
  | accepted g =>
      -- The kernel has given the new loop another descriptor.
      have hgt : g ≠ fd := by
        rintro rfl
        have hopen := hacc.1
        rw [h.shut] at hopen
        cases hopen
      refine ⟨?_, fun r x hx => ?_⟩
      · change io.kern.isOpen g = true
        rw [h.isOpen, Function.update_of_ne hgt]
        exact hacc.1
      · have hx' : io.ev r = some x := hx
        rw [h.ev] at hx'
        by_cases hre : r = s.io.nextEv
        · rw [hre, Function.update_self] at hx'
          injection hx' with hx'
          rw [← hx']
          exact hgt.symm
        · rw [Function.update_of_ne hre] at hx'
          exact hacc.2 r x hx'
  | made g r d' =>
      rcases hacc with ⟨⟨x, hx, hrest⟩, hun, hl⟩
      exact ⟨⟨x, (h.lives hi hx).1, hrest⟩, ⟨hun.1, h.unwoken hi hx hun.2⟩, h.registered hi hl⟩
  | give g r d' co => exact hacc
  | enter r d' co => exact hacc
  | _ => trivial

end LoopAdded

/-- A loop on a thread that has had none. -/
theorem addLoop_keeps {ismain : Bool} (hi : s.Inv) (ha : s.Supplied (.addLoop t fd ismain)) :
    Keeps (s.step (.addLoop t fd ismain)) := by
  rcases ha with ⟨hnone, hopen, _⟩
  rcases hi.neat.newLoop hnone hopen with
    ⟨io', l, hio', _, hwe, hev, hloop, hpool, hcell, hhook, hisopen, hneat⟩
  rcases addEventLoop_new (l := t) ismain (hi.unregistered hnone) with
    ⟨hloops, hnext, hmain, hstill⟩
  have h : LoopAdded s t fd l io' (s.loops.addEventLoop t (some t) ismain).1 :=
    ⟨hnone, hopen, hwe, hev, hloop, hpool, hcell, hisopen, hloops, hnext, hmain, hstill⟩
  have hstep : s.step (.addLoop t fd ismain)
      = .ok { s with io := io', loops := (s.loops.addEventLoop t (some t) ismain).1 } := by
    rw [step, hio']
    rfl
  rw [hstep]
  refine ⟨⟨hhook.trans hi.hookable, hneat, hi.hosted, h.registry hi, h.charges hi,
    fun d kd q hkd hq => h.serves hi hkd hq, fun u g r hr => h.entered hi hr, fun u => ?_⟩,
    fun d q hq => h.accepts hi hq⟩
  refine (hi.turns u).frame (fun _ _ _ hkd hq _ _ => ⟨hkd, hq⟩) (fun _ _ => ?_)
  change (io'.pool u).cur = _
  rw [hpool]
  rfl

/-! ### The end of a coroutine -/

/-- A coroutine that nothing points to is in charge of nothing. -/
theorem Core.unheld (hi : s.Core) (hk : s.corun c = some k) (hp : s.pos c = some p)
    (h : s.Unheld c) :
    p.mapped = false ∧ p.active = false ∧ p.tabled = false ∧ p.waits = false := by
  have hs := hi.serves c k p hk hp
  -- The pool would point to it.
  have hm : p.mapped = false := by
    refine Bool.eq_false_iff.mpr (fun hm => ?_)
    exact (h.1 k.loop).2.1 k.fd (hs.mapped hm)
  -- So would the loop.
  have ha : p.active = false := by
    refine Bool.eq_false_iff.mpr (fun ha => (h.1 k.loop).2.2 ?_)
    rw [hs.active ha]
    rfl
  cases p with
  | fresh h =>
      cases h with
      | made => exact ⟨rfl, rfl, rfl, rfl⟩
      | mapped => cases hm
      | registered => cases hm
  | asleep fd e => cases hm
  | ended => exact ⟨rfl, rfl, rfl, rfl⟩
  | _ => cases ha

/-- The state without the coroutine. -/
def bury (s : TcpSys) (c : McoRef) (w : World) (io : Io) : TcpSys :=
  { s with
    w := w
    io := io
    corun := Function.update s.corun c none
    pos := Function.update s.pos c none }

theorem locals_bury (hk : s.corun c = some k) (hp : s.pos c = some p) (hm : p.mapped = false)
    (ha : p.active = false) (w : World) (io : Io) :
    (s.bury c w io).locals = Function.update s.locals (place c 0) none := by
  have hcor : ∀ d, (s.bury c w io).corun d = if d = c then none else s.corun d :=
    fun d => Function.update_apply s.corun c none d
  have hpos : ∀ d, (s.bury c w io).pos d = if d = c then none else s.pos d :=
    fun d => Function.update_apply s.pos c none d
  -- The pointer that the callback is bound to is the only one left.
  have hgone : p.begun = false ∧ p.event = none := by
    cases p with
    | fresh h => exact ⟨rfl, rfl⟩
    | asleep fd e => cases hm
    | ended => exact ⟨rfl, rfl⟩
    | _ => cases ha
  apply locals_ext
  · intro d
    rw [update_place _ _ _ _ (by decide), locals_bound, locals_bound, hcor]
    by_cases hd : d = c
    · rw [if_pos hd, if_pos hd]
      rfl
    · rw [if_neg hd, if_neg hd]
  · intro d
    rw [Function.update_of_ne (place_ne (by decide) (by decide) (.inr (by decide))), locals_param,
      locals_param, hcor, hpos]
    by_cases hd : d = c
    · rw [if_pos hd, hd, hk, hp]
      change none = paramOf k p
      rw [paramOf, hgone.1]
      rfl
    · rw [if_neg hd, if_neg hd]
  · intro d
    rw [Function.update_of_ne (place_ne (by decide) (by decide) (.inr (by decide))), locals_event,
      locals_event, hpos]
    by_cases hd : d = c
    · rw [if_pos hd, hd, hp]
      exact hgone.2.symm
    · rw [if_neg hd]

/-- The `Continuation` of `c`, which nothing points to, has ended, and its
    pointer to the object that the callback is bound to is gone from `io`. -/
structure Buried (s : TcpSys) (c : McoRef) (k : Corun) (w : World) (io : Io) : Prop where
  corun : s.corun c = some k
  unheld : s.Unheld c
  pool : io.pool = s.io.pool
  loop : io.loop = s.io.loop
  neat : io.Neat (s.bury c w io).locals
  touch : ∀ r u, s.io.Touch io r u k.fd

namespace Buried

variable {w : World} {io : Io}

/-- What is left is as it was. -/
theorem corun_of {kd : Corun} (hkd : (s.bury c w io).corun d = some kd) :
    d ≠ c ∧ s.corun d = some kd := by
  have hkd' : Function.update s.corun c none d = some kd := hkd
  by_cases hd : d = c
  · rw [hd, Function.update_self] at hkd'
    cases hkd'
  · rw [Function.update_of_ne hd] at hkd'
    exact ⟨hd, hkd'⟩

theorem pos_of (hq : (s.bury c w io).pos d = some q) : d ≠ c ∧ s.pos d = some q := by
  have hq' : Function.update s.pos c none d = some q := hq
  by_cases hd : d = c
  · rw [hd, Function.update_self] at hq'
    cases hq'
  · rw [Function.update_of_ne hd] at hq'
    exact ⟨hd, hq'⟩

theorem kept {kd : Corun} (hd : d ≠ c) (hkd : s.corun d = some kd) (hq : s.pos d = some q) :
    (s.bury c w io).corun d = some kd ∧ (s.bury c w io).pos d = some q :=
  ⟨(Function.update_of_ne hd _ _).trans hkd, (Function.update_of_ne hd _ _).trans hq⟩

theorem registry (h : Buried s c k w io) (hi : s.Inv) : (s.bury c w io).Registry := by
  refine ⟨fun u l hul => ⟨(hi.registry.loops u l hul).1, ?_⟩, hi.registry.workers,
    hi.registry.main, hi.registry.started⟩
  change (io.loop u).isSome
  rw [h.loop]
  exact (hi.registry.loops u l hul).2

theorem charges (h : Buried s c k w io) (hi : s.Inv) : (s.bury c w io).Charges := by
  refine ⟨fun d => ?_, fun d r kd kr hkd hkr he => ?_, fun d kd u l hkd hul => ?_,
    fun d kd hkd hkda => hi.charges.single d kd (corun_of hkd).2 hkda⟩
  · change (Function.update s.corun c none d).isSome = (Function.update s.pos c none d).isSome
    by_cases hd : d = c
    · rw [hd, Function.update_self, Function.update_self]
      rfl
    · rw [Function.update_of_ne hd, Function.update_of_ne hd]
      exact hi.charges.paired d
  · exact hi.charges.owner d r kd kr (corun_of hkd).2 (corun_of hkr).2 he
  · have hul' : s.io.loop u = some l := by
      rw [← h.loop]
      exact hul
    exact hi.charges.unwoken d kd u l (corun_of hkd).2 hul'

/-- `c` itself has entered nothing that is still there. -/
theorem entered (h : Buried s c k w io) (hi : s.Inv) {u : Tid} {g : Fd} {r : EvRef}
    (hr : io.entry u g = some r) : (∃ l, io.loop u = some l ∧ l.wakeEvent = r) ∨
      ∃ d kd q, (s.bury c w io).corun d = some kd ∧ (s.bury c w io).pos d = some q ∧
        kd.event = r ∧ kd.loop = u ∧ q.tabled = true := by
  have hr' : s.io.entry u g = some r := by
    rw [Io.entry, ← h.loop]
    exact hr
  rcases hi.entered u g r hr' with ⟨l, hul, hle⟩ | ⟨d, kd, q, hkd, hq, hke, hl, htab⟩
  · exact .inl ⟨l, by rw [h.loop, hul], hle⟩
  · have hdc : d ≠ c := by
      rintro rfl
      rw [(hi.unheld hkd hq h.unheld).2.2.1] at htab
      cases htab
    exact .inr ⟨d, kd, q, (kept hdc hkd hq).1, (kept hdc hkd hq).2, hke, hl, htab⟩

theorem turns (h : Buried s c k w io) (hi : s.Inv) (u : Tid) :
    (s.bury c w io).TurnOk u (s.turn u) := by
  refine (hi.turns u).frame (fun d kd q hkd hq _ hqw => kept ?_ hkd hq) (fun _ _ => ?_)
  · rintro rfl
    rcases hi.unheld hkd hq h.unheld with ⟨_, hqa, _, hqw'⟩
    rw [hqa, hqw'] at hqw
    rcases hqw with hqw | hqw
    · cases hqw
    · cases hqw
  · change (io.pool u).cur = _
    rw [h.pool]
    rfl

/-- The acceptor has a pointer to what it hands over. -/
theorem accepts (h : Buried s c k w io) (hi : s.Inv) (hq : (s.bury c w io).pos d = some q) :
    (s.bury c w io).Accepts q := by
  have hq' := (pos_of hq).2
  have hacc := hi.accepts d q hq'
  have hmco := h.unheld.2 d q hq'
  cases q with
  | accepted g =>
      refine ⟨?_, fun r z' hz' => ?_⟩
      · rcases (h.touch 0 0).isOpen g hacc.1 with hg | ⟨hg, _⟩
        · exact hg
        · rcases hi.pos_of h.corun with ⟨p, hp⟩
          rcases (hi.serves c k p h.corun hp).object with ⟨x, hx, hxf, _⟩
          exact absurd (hxf.trans hg.symm) (hacc.2 k.event x hx)
      · rcases (h.touch 0 0).ev r z' hz' with ⟨z, hz, hf, _⟩
        rw [hf]
        exact hacc.2 r z hz
  | made g r l =>
      rcases hacc with ⟨⟨z, hz, hzf, hst⟩, hunr, hl'⟩
      rcases local_live h.neat hq rfl with ⟨z', hz'⟩
      rcases Io.Leaves.same (fun r => (h.touch r 0).leaves) hz hz' with ⟨hf, _, hstate⟩
      refine ⟨⟨z', hz', hf.trans hzf, hstate.trans hst⟩,
        ⟨fun b kb hkb => hunr.1 b kb (corun_of hkb).2, fun u l' hul => hunr.2 u l' ?_⟩, hl'⟩
      rw [← h.loop]
      exact hul
  | give g r l co => exact kept (fun h => hmco (congrArg some h)) hacc.1 hacc.2
  | enter r l co =>
      rcases hacc with ⟨g, hco, hfr⟩
      exact ⟨g, kept (fun h => hmco (congrArg some h)) hco hfr⟩
  | _ => trivial

end Buried

theorem drop_keeps (hi : s.Inv) (ha : s.Supplied (.drop t c)) : Keeps (s.step (.drop t c)) := by
  rcases ha with ⟨hsome, hun⟩
  rcases Option.isSome_iff_exists.mp hsome with ⟨k, hk⟩
  rcases hi.pos_of hk with ⟨p, hp⟩
  rcases hi.unheld hk hp hun with ⟨hpm, hpa, _, _⟩
  rcases (hi.serves c k p hk hp).object with ⟨x, hx, hxf, _⟩
  have hloc : s.locals (place c 0) = some k.event := by
    rw [locals_bound, hk]
    rfl
  rcases hi.neat.release hloc with ⟨io', y, hio', hy, hpool, hloop, _, hneat, htouch⟩
  rw [hx] at hy
  injection hy with hy
  rw [← hy, hxf] at htouch
  rw [step, hk]
  simp only []
  rcases liftMco_cases (s.w.mcoFree t (some c)) with ⟨w', hw, hl⟩ | ⟨g, hl⟩
  · rw [hl]
    change Keeps (do
      let io ← s.io.release k.event
      .ok (s.bury c w' io))
    rw [hio']
    have h : Buried s c k w' io' :=
      ⟨hk, hun, hpool, hloop, by rw [locals_bury hk hp hpm hpa]; exact hneat, fun r u => htouch r u⟩
    have hnot : ∀ u, s.turn u ≠ .inside c := by
      intro u hu
      refine (hun.1 u).2.2 ?_
      rw [hu]
      rfl
    exact ⟨⟨(htouch 0 0).hookable.trans hi.hookable, h.neat, hi.hosted.free hp hnot hw,
      h.registry hi, h.charges hi, fun d kd q hkd hq =>
        (hi.serves d kd q (Buried.corun_of hkd).2 (Buried.pos_of hq).2).still
          (.of_tables hpool hloop (fun _ _ _ => Io.Leaves.same (fun r => (htouch r 0).leaves)))
          (bound_live h.neat hkd) rfl (fun _ _ h => h),
      fun u g r hr => h.entered hi hr, h.turns hi⟩, fun d q hq => h.accepts hi hq⟩
  · rw [hl]
    exact ⟨g, rfl⟩

/-! ### Runs -/

theorem step_keeps {a : TcpOp} (hi : s.Inv) (ha : s.Supplied a) : Keeps (s.step a) := by
  cases a with
  | addLoop t fd ismain => exact addLoop_keeps hi ha
  | start t fd c ok => exact start_keeps hi ha
  | poll t events => exact poll_keeps hi _
  | run t i => exact loopCode_keeps hi ha
  | drop t c => exact drop_keeps hi ha

theorem inv_init (h : TcpInit s) : s.Inv := by
  have hloc : s.locals = fun _ => none := by
    apply locals_ext
    · intro c
      rw [locals_bound, h.corun c]
      rfl
    · intro c
      rw [locals_param, h.corun c]
      rfl
    · intro c
      rw [locals_event, h.pos c]
      rfl
  have hnobody : ∀ c k, s.corun c ≠ some k := by
    intro c k hk
    rw [h.corun c] at hk
    cases hk
  refine ⟨⟨h.hookable, .empty h.loop h.ev (congrFun hloc), ?_, ?_, ?_,
    fun c k p hk _ => absurd hk (hnobody c k), fun t g e he => ?_, fun t => ?_⟩, fun c p hp => ?_⟩
  · have hturn : s.turn = fun _ => .idle := funext h.turn
    have hpos : s.pos = fun _ => none := funext h.pos
    rw [hturn, hpos]
    exact hosted_init h.world
  · have hl := h.loops
    refine ⟨fun t l hl' => ?_, fun l hl' => ?_, fun l hl' => ?_, fun hs => ?_⟩
    · rw [hl] at hl'
      cases hl'
    · rw [hl] at hl'
      cases hl'
    · rw [hl] at hl'
      cases hl'
    · rw [h.server] at hs
      cases hs
  · refine ⟨fun c => by rw [h.corun c, h.pos c]; rfl, fun c d k k' hk => ?_, fun c k t l hk => ?_,
      fun c k hk => ?_⟩
    · exact absurd hk (hnobody c k)
    · exact absurd hk (hnobody c k)
    · exact absurd hk (hnobody c k)
  · rw [Io.entry, h.loop t] at he
    cases he
  · rw [h.turn t]
    trivial
  · rw [h.pos c] at hp
    cases hp

/-- Until it calls `close`, the descriptor of a registered connection is in one
    loop only. -/
theorem Inv.one_loop (hi : s.Inv) (hk : s.corun c = some k) (hp : s.pos c = some p)
    (hserving : p.serving = true) :
    (∀ u, (s.io.entry u k.fd).isSome ↔ u = k.loop) ∧
      s.io.entry k.loop k.fd = some k.event ∧
      (∃ x, s.io.ev k.event = some x ∧ x.obj.tid = k.loop) ∧
      s.io.getMcoRoutine k.loop k.fd = some c := by
  have hs := hi.serves c k p hk hp
  have hflags : p.given = true ∧ p.mapped = true ∧ p.tabled = true := by
    cases p with
    | fresh h =>
        cases h with
        | registered => exact ⟨rfl, rfl, rfl⟩
        | made => cases hserving
        | mapped => cases hserving
    | close fd q => cases hserving
    | finish => cases hserving
    | ended => cases hserving
    | _ => exact ⟨rfl, rfl, rfl⟩
  rcases hs.object with ⟨x, hx, hxf, hxt, _⟩
  have hent := hs.tabled hflags.2.2
  refine ⟨fun u => ⟨fun hu => ?_, ?_⟩, hent, ⟨x, hx, hxt hflags.1⟩, hs.mapped hflags.2.1⟩
  · rcases Option.isSome_iff_exists.mp hu with ⟨r, hr⟩
    rcases hi.neat.tidy.live (k := .table u k.fd) hr with ⟨y, hy, _⟩
    -- An object in a table is there for its own thread, and no two have this descriptor.
    have hre := hi.neat.apart r k.event y x hy hx ((hi.neat.entry_of hy hr).1.trans hxf.symm)
    rw [hre] at hr
    exact (hi.neat.entry_of hx hr).2.symm.trans (hxt hflags.1)
  · rintro rfl
    rw [hent]
    rfl

/-- A loop that has found a descriptor finds the coroutine of its connection,
    or the acceptor. -/
theorem Inv.finds (hi : s.Inv) (ht : s.turn t = .found fd) :
    ∃ c k p, s.corun c = some k ∧ s.pos c = some p ∧ k.fd = fd ∧ p.serving = true ∧
      s.io.getMcoRoutine t fd = some c := by
  have hok := hi.turns t
  rw [ht] at hok
  rcases hok with ⟨c, k, p, hk, hp, hpw, rfl, rfl⟩
  have hserving : p.serving = true := by
    cases p with
    | fresh h =>
        cases h with
        | registered => rfl
        | made => cases hpw
        | mapped => cases hpw
    | asleep _ _ => rfl
    | _ => cases hpw
  exact ⟨c, k, p, hk, hp, rfl, hserving, (hi.one_loop hk hp hserving).2.2.2⟩

theorem inv_run {s₀ : TcpSys} {as : List TcpOp} (h₀ : TcpInit s₀)
    (h : Runs step Supplied s₀ as s) : s.Inv := by
  refine h.invariant (fun s a s' hi ha hs => ?_) (inv_init h₀)
  have hkeep := step_keeps hi ha
  rw [hs] at hkeep
  exact hkeep

end Steps

end TcpSys

end Fasco
