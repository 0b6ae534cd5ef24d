import Fasco.Theory.OwnCalls
import Fasco.Theory.RoundRobin
import Fasco.Theory.Routing

/-!
# Handing Over a Connection

The acceptor makes an object and a coroutine for a descriptor it has got, puts
the coroutine into the pool of another thread, and the object into the table of
that thread's loop. The server does the same for its own coroutine when it is
started. A new coroutine is in charge of nothing yet (`Core.born`), then the
pool has it (`Core.mapped`), then the table has its object as well
(`Core.registered`).

The kernel has given the acceptor a descriptor that was not open, so no object
has it, and no table: otherwise the object in the table would be the acceptor's
new one, which is bound to the new coroutine, and that has entered nothing.

## Main definitions

* `bear`: The state with a new coroutine.

## Theorems

* `Core.born`, `Core.mapped`, `Core.registered`: How a coroutine gets in charge.
* `code_accepted`, `code_made`, `code_give`, `code_enter`, `code_leave`: The
  acceptor's calls.
-/

namespace Fasco

namespace TcpSys

section Births

variable {s : TcpSys} {c co d : McoRef} {k k' : Corun} {p q : Pos} {i : Supply} {g : Fd} {e : EvRef}
  {l : Tid}

/-! ### A new coroutine -/

theorem Core.unborn (hi : s.Core) (hco : s.w.co co = none) :
    s.pos co = none ∧ s.corun co = none := by
  have hpos : s.pos co = none := by
    cases hp : s.pos co with
    | none => rfl
    | some p =>
        rcases hi.hosted with ⟨f, hf⟩
        rcases hf.live co p hp with ⟨r, hr, _⟩
        rw [World.ctl_eq_none.mpr hco] at hr
        cases hr
  have hpair := hi.charges.paired co
  rw [hpos] at hpair
  exact ⟨hpos, Option.isNone_iff_eq_none.mp (Option.isSome_eq_false_iff.mp hpair)⟩

/-- The new coroutine, with what its callback is bound to. -/
def bear (s : TcpSys) (co : McoRef) (k : Corun) (io : Io) (server : Option McoRef) : TcpSys :=
  { s with
    w := s.w.mcoCreate co false
    io := io
    corun := Function.update s.corun co (some k)
    pos := Function.update s.pos co (some (.fresh .made))
    server := server }

/-- It holds one pointer. -/
theorem locals_bear (hi : s.Core) (hco : s.w.co co = none) (k : Corun) (io : Io)
    (server : Option McoRef) :
    (s.bear co k io server).locals = Function.update s.locals (place co 0) (some k.event) := by
  rcases hi.unborn hco with ⟨hpos, hcor⟩
  have hc : ∀ d, (s.bear co k io server).corun d = if d = co then some k else s.corun d :=
    fun d => Function.update_apply s.corun co (some k) d
  have hp : ∀ d, (s.bear co k io server).pos d
      = if d = co then some (.fresh .made) else s.pos d :=
    fun d => Function.update_apply s.pos co (some (.fresh .made)) d
  apply locals_ext
  · intro d
    rw [update_place _ _ _ _ (by decide), locals_bound, locals_bound, hc]
    by_cases hd : d = co
    · rw [if_pos hd, if_pos hd]
      rfl
    · rw [if_neg hd, if_neg hd]
  · intro d
    rw [Function.update_of_ne (place_ne (by decide) (by decide) (.inr (by decide))), locals_param,
      locals_param, hc, hp]
    by_cases hd : d = co
    · rw [if_pos hd, if_pos hd, hd, hcor]
      rfl
    · rw [if_neg hd, if_neg hd]
  · intro d
    rw [Function.update_of_ne (place_ne (by decide) (by decide) (.inr (by decide))), locals_event,
      locals_event, hp]
    by_cases hd : d = co
    · rw [if_pos hd, hd, hpos]
      rfl
    · rw [if_neg hd]

/-- A coroutine is made for an object that nobody has. -/
theorem Core.born (hi : s.Core) (hco : s.w.co co = none) (k : Corun) (server : Option McoRef)
    {io' : Io}
    (hneat : io'.Neat (Function.update s.locals (place co 0) (some k.event)))
    (hl : ∀ e t fd, s.io.Leaves io' e t fd) (hh : io'.hookable = s.io.hookable)
    (hloop : io'.loop = s.io.loop)
    (hobj : ∃ x, io'.ev k.event = some x ∧ x.obj.fd = k.fd ∧ x.obj.state = .NEW)
    (hun : s.Unowned k.event) (hhome : s.loops.loops k.loop = some k.loop)
    (hsingle : ∀ d kd, (s.bear co k io' server).corun d = some kd → kd.accepts = true →
      server = some d)
    (hstarted : server.isSome → s.loops.mainLoop.isSome) : (s.bear co k io' server).Core := by
  rcases hi.unborn hco with ⟨hpos, hcor⟩
  -- Nobody has had the new address.
  have hne : ∀ {d q}, s.pos d = some q → d ≠ co := by
    rintro d q hq rfl
    rw [hpos] at hq
    cases hq
  have hcase : ∀ {d kd}, (s.bear co k io' server).corun d = some kd →
      (d = co ∧ kd = k) ∨ (d ≠ co ∧ s.corun d = some kd) := by
    intro d kd hd
    have hd' : Function.update s.corun co (some k) d = some kd := hd
    by_cases hdc : d = co
    · rw [hdc, Function.update_self] at hd'
      injection hd' with hd'
      exact .inl ⟨hdc, hd'.symm⟩
    · rw [Function.update_of_ne hdc] at hd'
      exact .inr ⟨hdc, hd'⟩
  have hkeep : ∀ {d q}, d ≠ co → (s.bear co k io' server).pos d = some q → s.pos d = some q := by
    intro d q hd hq
    have hq' : Function.update s.pos co (some (.fresh .made)) d = some q := hq
    rw [Function.update_of_ne hd] at hq'
    exact hq'
  have hold : ∀ {d kd q}, s.corun d = some kd → s.pos d = some q →
      (s.bear co k io' server).corun d = some kd ∧ (s.bear co k io' server).pos d = some q := by
    intro d kd q hkd hq
    exact ⟨(Function.update_of_ne (hne hq) _ _).trans hkd,
      (Function.update_of_ne (hne hq) _ _).trans hq⟩
  have hcur : ∀ u, io'.getCurMco u = s.io.getCurMco u := fun u =>
    (hl 0 (u + 1) 0).cur u (Nat.ne_of_lt (Nat.lt_succ_self u))
  have hent : ∀ u f, io'.entry u f = s.io.entry u f := fun u f =>
    (hl 0 (u + 1) 0).entry u f (fun h => Nat.ne_of_lt (Nat.lt_succ_self u) h.1)
  have hneat' : io'.Neat (s.bear co k io' server).locals := by
    rw [locals_bear hi hco]
    exact hneat
  refine ⟨hh.trans hi.hookable, hneat', hi.hosted.create hco _, ?_, ?_, ?_, ?_, ?_⟩
  · refine ⟨fun u l' hul => ⟨(hi.registry.loops u l' hul).1, ?_⟩, hi.registry.workers,
      hi.registry.main, hstarted⟩
    change (io'.loop u).isSome
    rw [hloop]
    exact (hi.registry.loops u l' hul).2
  · refine ⟨fun d => ?_, fun d r kd kr hd hr he => ?_, fun d kd u l' hd hul => ?_, hsingle⟩
    · by_cases hd : d = co
      · rw [hd]
        change (Function.update s.corun co _ co).isSome = (Function.update s.pos co _ co).isSome
        rw [Function.update_self, Function.update_self]
        rfl
      · change (Function.update s.corun co _ d).isSome = (Function.update s.pos co _ d).isSome
        rw [Function.update_of_ne hd, Function.update_of_ne hd]
        exact hi.charges.paired d
    · rcases hcase hd with ⟨hdc, hdk⟩ | ⟨_, hd'⟩
      · rcases hcase hr with ⟨hrc, _⟩ | ⟨_, hr'⟩
        · rw [hdc, hrc]
        · rw [hdk] at he
          exact absurd he.symm (hun.1 r kr hr')
      · rcases hcase hr with ⟨_, hrk⟩ | ⟨_, hr'⟩
        · rw [hrk] at he
          exact absurd he (hun.1 d kd hd')
        · exact hi.charges.owner d r kd kr hd' hr' he
    · have hul' : s.io.loop u = some l' := by
        rw [← hloop]
        exact hul
      rcases hcase hd with ⟨_, hdk⟩ | ⟨_, hd'⟩
      · rw [hdk]
        exact hun.2 u l' hul'
      · exact hi.charges.unwoken d kd u l' hd' hul'
  · intro d kd q hkd hq
    rcases hcase hkd with ⟨rfl, rfl⟩ | ⟨hdc, hkd'⟩
    · have hq' : Function.update s.pos d (some (.fresh .made)) d = some q := hq
      rw [Function.update_self] at hq'
      injection hq' with hq'
      rw [← hq']
      rcases hobj with ⟨x, hx, hxf, hst⟩
      exact ⟨⟨x, hx, hxf, fun h => (by cases h), fun st h => (by injection h with h; rw [hst, h])⟩,
        hhome, fun h => (by cases h), fun h => (by cases h), fun h => (by cases h),
        fun h => (by cases h), trivial⟩
    · exact (hi.serves d kd q hkd' (hkeep hdc hq)).still hl (bound_live hneat' hkd) rfl
        (fun _ _ h => h)
  · intro u f r hr
    have hr' : io'.entry u f = some r := hr
    rw [hent] at hr'
    rcases hi.entered u f r hr' with ⟨l', hul, hle⟩ | ⟨d, kd, q, hkd, hq, hrest⟩
    · refine .inl ⟨l', ?_, hle⟩
      change io'.loop u = some l'
      rw [hloop]
      exact hul
    · exact .inr ⟨d, kd, q, (hold hkd hq).1, (hold hkd hq).2, hrest⟩
  · intro u
    exact (hi.turns u).frame (fun d kd q hkd hq _ _ => hold hkd hq) (fun _ _ => hcur u)

/-! ### On the way to its loop -/

/-- The hand-over of a coroutine that has not begun goes on. -/
theorem Core.hand (hi : s.Core) (hk : s.corun co = some k) {h h' : HandOver}
    (hp : s.pos co = some (.fresh h)) (hh : h ≠ .registered) {io' : Io} (hneat : io'.Neat s.locals)
    (ht : s.io.Leaves io' k.event k.loop k.fd) (hhook : io'.hookable = s.io.hookable)
    (hw : ∀ u, (io'.loop u).map (fun l => (l.wakeFd, l.wakeEvent))
      = (s.io.loop u).map (fun l => (l.wakeFd, l.wakeEvent)))
    (hcur : ∀ u, io'.getCurMco u = s.io.getCurMco u)
    (hself : (s.go co io' (.fresh h')).Serves co k (.fresh h'))
    (hent : ∀ e, io'.entry k.loop k.fd = some e → (s.io.entry k.loop k.fd = some e ∧
      ((Pos.fresh h).tabled = true → (Pos.fresh h').tabled = true)) ∨
      (e = k.event ∧ (Pos.fresh h').tabled = true)) : (s.go co io' (.fresh h')).Core := by
  have hst : ({ (s.go co io' (.fresh h')).setTurn k.loop (s.turn k.loop) with w := s.w } : TcpSys)
      = s.go co io' (.fresh h') := setTurn_self (s.go co io' (.fresh h')) k.loop
  rw [← hst] at hself ⊢
  refine hi.change hk hp s.w io' (.fresh h') _ ?_ ?_ ht hhook hw hself hent
    (fun d kd q _ _ _ _ _ => ⟨rfl, hcur k.loop⟩) ?_
  · rw [locals_same hk hp io' (.fresh h') rfl rfl]
    exact hneat
  · rw [Function.update_eq_self]
    exact hi.hosted.move hp (fun h => by cases h) _
  · refine (hi.turns k.loop).frame (fun d kd q hkd hq _ hqw => ⟨hkd, ?_⟩) (fun _ _ => hcur k.loop)
    change (s.go co io' (.fresh h')).pos d = some q
    rw [go_pos, if_neg]
    · exact hq
    · -- It neither waits nor executes.
      rintro rfl
      rw [hp] at hq
      injection hq with hq
      rw [← hq] at hqw
      rcases hqw with hqw | hqw
      · cases h with
        | registered => exact hh rfl
        | made => cases hqw
        | mapped => cases hqw
      · cases hqw

/-- The pool of its thread gets it for its descriptor, and the object the
    thread. -/
theorem Core.mapped (hi : s.Core) (hk : s.corun co = some k)
    (hp : s.pos co = some (.fresh .made)) :
    ∃ io', (s.io.setMcoRoutine k.loop k.fd co).modifyEvents k.event (fun o => o.setTid k.loop)
        = .ok io' ∧ (s.go co io' (.fresh .mapped)).Core := by
  have hs := hi.serves co k _ hk hp
  rcases hs.object with ⟨x, hx, hxf, _, hst⟩
  have hset := Io.setMcoRoutine_touch s.io k.loop k.fd co k.event
  have hneat : (s.io.setMcoRoutine k.loop k.fd co).Neat s.locals :=
    hi.neat.pools rfl rfl rfl rfl
  -- The object is in no table.
  have hno : ∀ u f, s.io.entry u f ≠ some k.event := by
    intro u f hent
    rcases hi.entered u f k.event hent with ⟨l, hl, hle⟩ | ⟨d, kd, q, hkd, hq, hke, _, htab⟩
    · exact hi.charges.unwoken co k u l hk hl hle
    · rw [hi.charges.owner d co kd k hkd hk hke, hp] at hq
      injection hq with hq
      rw [← hq] at htab
      cases htab
  rcases hneat.modifyEvents (e := k.event) hx (fun o => o.setTid k.loop) rfl (.inr hno) with
    ⟨io', hio', hx', hloop, hpool, _, hneat', htouch⟩
  refine ⟨io', hio', ?_⟩
  -- The change to the object leaves the pools alone.
  have hmap : ∀ u f, io'.getMcoRoutine u f
      = (s.io.setMcoRoutine k.loop k.fd co).getMcoRoutine u f := by
    intro u f
    rw [Io.getMcoRoutine, Io.getMcoRoutine, hpool]
  have hcur : ∀ u, io'.getCurMco u = s.io.getCurMco u := by
    intro u
    rw [Io.getCurMco, hpool]
    exact Io.getCurMco_setMcoRoutine s.io k.loop k.fd co u
  have hent : ∀ u f, io'.entry u f = s.io.entry u f := by
    intro u f
    rw [Io.entry, Io.entry, hloop]
    rfl
  have ht := hset.trans (htouch k.loop k.fd)
  refine hi.hand hk hp (fun h => by cases h) hneat' ht.leaves ht.hookable ht.wake hcur ?_
    (fun e h => .inl ⟨(hent _ _).symm.trans h, fun h => by cases h⟩)
  exact ⟨⟨_, hx', hxf, fun _ => rfl, fun st h => hst st h⟩, hs.home,
    fun _ => (hmap _ _).trans ((Io.getMcoRoutine_setMcoRoutine s.io _ _ _ _ _).trans
      (if_pos ⟨rfl, rfl⟩)), fun h => (by cases h), fun h => (by cases h), fun h => (by cases h),
    trivial⟩

/-- The loop of its thread takes its object into the table, in which there is
    none for the descriptor. -/
theorem Core.registered (hi : s.Core) (hk : s.corun co = some k)
    (hp : s.pos co = some (.fresh .mapped)) (ok : Bool) :
    ∃ io', s.io.updateEvents k.loop k.event ok = .ok io' ∧
      (s.go co io' (.fresh .registered)).Core := by
  have hs := hi.serves co k _ hk hp
  rcases hs.object with ⟨x, hx, hxf, hxt, hst⟩
  -- Nothing is in the table for the descriptor, so the assertion on a new event holds.
  rcases Option.isSome_iff_exists.mp (hi.registry.loops _ _ hs.home).2 with ⟨l, hl⟩
  have hnone : s.io.entry k.loop x.obj.fd = none := by
    cases hent : s.io.entry k.loop x.obj.fd with
    | none => rfl
    | some r =>
        exfalso
        rcases hi.neat.tidy.live (k := .table k.loop x.obj.fd) hent with ⟨y, hy, _⟩
        -- The object in the table is the one it is bound to.
        have hre := hi.neat.apart r k.event y x hy hx (hi.neat.entry_of hy hent).1
        rcases hi.entered _ _ r hent with ⟨l', hl', hle⟩ | ⟨d, kd, q, hkd, hq, hke, _, htab⟩
        · exact hi.charges.unwoken co k k.loop l' hk hl' (hle.trans hre)
        · rw [hi.charges.owner d co kd k hkd hk (hke.trans hre), hp] at hq
          injection hq with hq
          rw [← hq] at htab
          cases htab
  rcases hi.neat.updateEvents_new hx (hst _ rfl) (hxt rfl) hl hnone ok with
    ⟨io', hio', hobj, hpool, hentry, hneat, htouch⟩
  rw [hxf] at hentry htouch
  refine ⟨io', hio', ?_⟩
  rcases bound_live hneat hk with ⟨z, hz⟩
  refine hi.hand hk hp (fun h => by cases h) hneat htouch.leaves htouch.hookable htouch.wake ?_ ?_
    (fun e h => .inr ⟨?_, rfl⟩)
  · intro u
    rw [Io.getCurMco, Io.getCurMco, hpool]
  · refine ⟨⟨z, hz, by rw [hobj z hz, hxf], fun _ => by rw [hobj z hz, hxt rfl],
      fun st h => (by cases h)⟩, hs.home, fun _ => ?_, fun _ => hentry, fun h => (by cases h),
      fun h => (by cases h), trivial⟩
    change (io'.pool k.loop).fdMcos k.fd = some co
    rw [hpool]
    exact hs.mapped rfl
  · rw [hentry] at h
    injection h with h
    exact h.symm

/-- Both at once, for an object that has been made on the thread of its loop. -/
theorem Core.launched (hi : s.Core) (hk : s.corun co = some k)
    (hp : s.pos co = some (.fresh .made)) {x : EventsCell} (hx : s.io.ev k.event = some x)
    (ht : x.obj.tid = k.loop) (ok : Bool) :
    ∃ io', (s.io.setMcoRoutine k.loop k.fd co).updateEvents k.loop k.event ok = .ok io' ∧
      (s.go co io' (.fresh .registered)).Core := by
  rcases hi.mapped hk hp with ⟨io1, hio1, hc⟩
  -- `setTid` would change nothing here.
  have hself : (fun o : Events => o.setTid k.loop) x.obj = x.obj := by
    change { x.obj with tid := k.loop } = x.obj
    rw [← ht]
  rw [Io.Neat.modifyEvents_self (s := s.io.setMcoRoutine k.loop k.fd co) hx hself] at hio1
  injection hio1 with hio1
  rw [← hio1] at hc
  rcases hc.registered hk (Function.update_self _ _ _) ok with ⟨io2, hio2, hc2⟩
  refine ⟨io2, hio2, ?_⟩
  have heq : (s.go co (s.io.setMcoRoutine k.loop k.fd co) (.fresh .mapped)).go co io2
      (.fresh .registered) = s.go co io2 (.fresh .registered) := by
    simp only [go, Function.update_idem]
  rw [← heq]
  exact hc2

/-! ### The acceptor -/

/-- The next object is nobody's yet. -/
theorem Core.unowned_next (hi : s.Core) : s.Unowned s.io.nextEv := by
  have hlt : ∀ r, (s.io.ev r).isSome → r ≠ s.io.nextEv := by
    rintro r hr rfl
    rw [hi.neat.tidy.unused s.io.nextEv (Nat.le_refl _)] at hr
    cases hr
  refine ⟨fun d kd hkd => hlt _ ?_, fun u l hl => hlt _ ?_⟩
  · exact Option.isSome_iff_exists.mpr (bound_live hi.neat hkd)
  · rcases hi.neat.wake u l hl with ⟨z, hz, _⟩
    rw [hz]
    rfl

/-- There is one acceptor, so the others hand nothing over. -/
theorem Core.accepts_single (hi : s.Core) (hk : s.corun c = some k) (hka : k.accepts = true)
    {s' : TcpSys} {p' : Pos} (hp : s'.pos c = some p') (hacc : s'.Accepts p')
    (hpos : ∀ d q, d ≠ c → s'.pos d = some q → s.pos d = some q ∨ ∃ h, q = .fresh h)
    (d : McoRef) (q : Pos) (hq : s'.pos d = some q) : s'.Accepts q := by
  by_cases hd : d = c
  · rw [hd, hp] at hq
    injection hq with hq
    rw [← hq]
    exact hacc
  · rcases hpos d q hd hq with hq' | ⟨h, rfl⟩
    · rcases hi.corun_of hq' with ⟨kd, hkd⟩
      have hfits := (hi.serves d kd q hkd hq').fits
      -- Only the server's coroutine accepts.
      have hnot : kd.accepts ≠ true := by
        intro hkda
        have h1 := hi.charges.single c k hk hka
        have h2 := hi.charges.single d kd hkd hkda
        rw [h1] at h2
        injection h2 with h2
        exact hd h2.symm
      cases q with
      | accepted g => exact absurd hfits hnot
      | made g e l => exact absurd hfits hnot
      | give g e l co => exact absurd hfits hnot
      | enter e l co => exact absurd hfits hnot
      | _ => trivial
    · trivial

/-- `GetNextLoop` returns a loop that is in the registry. -/
theorem Registry.next (h : s.Registry) (hsv : s.server.isSome) :
    ∃ l, s.loops.getNextLoop.2 = some l ∧ s.loops.loops l = some l := by
  by_cases h0 : s.loops.nextLoops.length = 0
  -- Without workers it is the main loop.
  · rcases Option.isSome_iff_exists.mp (h.started hsv) with ⟨l, hl⟩
    refine ⟨l, ?_, h.main l hl⟩
    rw [EventLoopPool.getNextLoop_empty h0]
    exact hl
  -- Otherwise the cursor selects a worker.
  · have hlt := Rotation.slot_lt (Nat.pos_of_ne_zero h0) s.loops.next
    refine ⟨_, ?_, h.workers _ (List.getElem_mem hlt)⟩
    rw [EventLoopPool.getNextLoop_slot h0]
    exact List.getElem?_eq_getElem hlt

/-- The cursor of the registry moves. -/
theorem Core.turnover (hi : s.Core) :
    ({ s with loops := s.loops.getNextLoop.1 } : TcpSys).Core := by
  rcases Loops.getNextLoop_tables s.loops with ⟨hl, hn, hm⟩
  refine ⟨hi.hookable, hi.neat, hi.hosted, ?_, ?_, fun d kd q hkd hq => ?_, hi.entered,
    fun u => ?_⟩
  · refine ⟨fun u l h => ?_, fun l h => ?_, fun l h => ?_, fun h => ?_⟩
    · rw [hl] at h
      exact hi.registry.loops u l h
    · rw [hn] at h
      rw [hl]
      exact hi.registry.workers l h
    · rw [hm] at h
      rw [hl]
      exact hi.registry.main l h
    · rw [hm]
      exact hi.registry.started h
  · exact ⟨hi.charges.paired, hi.charges.owner, hi.charges.unwoken, hi.charges.single⟩
  · have hs := hi.serves d kd q hkd hq
    exact ⟨hs.object, (congrFun hl _).trans hs.home, hs.mapped, hs.tabled, hs.active, hs.current,
      hs.fits⟩
  · exact (hi.turns u).frame (fun _ _ _ hkd hq _ _ => ⟨hkd, hq⟩) (fun _ _ => rfl)

/-- A new object for a descriptor that no other has. -/
theorem code_accepted (hi : s.Inv) (hk : s.corun c = some k) (hp : s.pos c = some (.accepted g)) :
    Keeps (s.code k.loop c k i (.accepted g)) := by
  have hs := hi.serves c k _ hk hp
  have hka : k.accepts = true := hs.fits
  have hsv := hi.charges.single c k hk hka
  rcases hi.accepts c _ hp with ⟨hopen, hfree⟩
  rcases hi.registry.next (by rw [hsv]; rfl) with ⟨l, hnext, hl⟩
  rcases Loops.getNextLoop_tables s.loops with ⟨htab, _, _⟩
  have hneat := hi.neat.newEvents hopen hfree k.loop (place c 2)
  rcases hi.neat.newEvents_leaves k.loop g kReadEvent with ⟨hx, hleaves⟩
  rw [code]
  simp only []
  rw [hnext]
  have hc := hi.toCore.turnover
  have hn : (s.io.newEvents k.loop g kReadEvent).1.Neat
      (({ s with loops := s.loops.getNextLoop.1 } : TcpSys).go c
        (s.io.newEvents k.loop g kReadEvent).1 (.made g s.io.nextEv l)).locals := by
    rw [locals_local (s := { s with loops := s.loops.getNextLoop.1 }) hk hp _
      (.made g s.io.nextEv l) rfl]
    exact hneat
  rcases bound_live hn hk with ⟨y, hy⟩
  rcases hs.object with ⟨x, hxk, _, hxt, _⟩
  have hsame := Io.Leaves.same (fun r => hleaves r k.loop k.fd) hxk hy
  refine ⟨hc.kept hk hp rfl _ (.made g s.io.nextEv l) rfl hn (hleaves _ _ _) rfl rfl rfl
    ⟨y, hy, hsame.2.1.trans (hxt rfl), fun st h => by cases h⟩ (fun h => h) rfl (fun h => h) hka,
    hi.toCore.accepts_single hk hka (Function.update_self _ _ _) ⟨⟨_, hx, rfl, rfl⟩,
      hi.unowned_next, (congrFun htab l).trans hl⟩
      (fun d q hd hq => .inl ((Function.update_of_ne hd _ _).symm.trans hq))⟩

theorem code_made (hi : s.Inv) (hk : s.corun c = some k) (hp : s.pos c = some (.made g e l))
    (hco : s.w.co i.co = none) : Keeps (s.code k.loop c k i (.made g e l)) := by
  have hs := hi.serves c k _ hk hp
  have hka : k.accepts = true := hs.fits
  rcases hi.accepts c _ hp with ⟨⟨x, hx, hxf, hst⟩, hun, hl⟩
  rcases Option.isSome_iff_exists.mp (hi.registry.loops l l hl).2 with ⟨lp, hlp⟩
  -- The new callback is bound to the object, which nobody else is.
  rcases hi.neat.share hx (place i.co 0) with ⟨io', hio', hx', hloop, _, _, hneat, htouch⟩
  rw [code, hlp]
  simp only []
  rw [hio']
  have hne : c ≠ i.co := by
    rintro rfl
    rw [(hi.unborn hco).1] at hp
    cases hp
  have hc := hi.born hco { accepts := false, event := e, fd := g, loop := l } s.server hneat
    (fun e t fd => (htouch e t fd).leaves) (htouch 0 0 0).hookable hloop ⟨_, hx', hxf, hst⟩ hun hl
    (fun d kd hkd hkda => ?_) hi.registry.started
  · refine ⟨hc.moved ((Function.update_of_ne hne _ _).trans hk)
      ((Function.update_of_ne hne _ _).trans hp) rfl (.give g e l i.co) rfl rfl rfl (fun h => h) rfl
      (fun h => h) rfl rfl hka, hi.accepts_single hk hka (Function.update_self _ _ _) ⟨?_, ?_⟩
      (fun d q hd hq => ?_)⟩
    · exact Function.update_self _ _ _
    · exact (Function.update_of_ne hne.symm _ _).trans (Function.update_self _ _ _)
    · have hq' := (Function.update_of_ne hd _ _).symm.trans hq
      by_cases hdi : d = i.co
      · rw [hdi] at hq'
        have hq1 := (Function.update_self _ _ _).symm.trans hq'
        injection hq1 with hq1
        exact .inr ⟨_, hq1.symm⟩
      · exact .inl ((Function.update_of_ne hdi _ _).symm.trans hq')
  · have hkd' : Function.update s.corun i.co _ d = some kd := hkd
    by_cases hdi : d = i.co
    · rw [hdi, Function.update_self] at hkd'
      injection hkd' with hkd'
      rw [← hkd'] at hkda
      cases hkda
    · rw [Function.update_of_ne hdi] at hkd'
      exact hi.charges.single d kd hkd' hkda

/-- The new coroutine has come one step further, and so has the acceptor. -/
theorem Core.handed_on (hi : s.Core) (hk : s.corun c = some k) (hka : k.accepts = true)
    (hp : s.pos c = some p) {h h' : HandOver} (hh : s.pos co = some (.fresh h))
    (hpa : p.active = true) {io' : Io} {p' : Pos} (hc : (s.go co io' (.fresh h')).Core)
    (ha : p'.active = true) (hb : p'.begun = p.begun) (he : p'.event = p.event)
    (hm : p.mapped = true) (ht : p'.tabled = p.tabled) (hcur : p.current = true)
    (hg : p.given = true) (hst : p'.state = none) (hf : p'.Fits c k)
    (hacc : c ≠ co → ((s.go co s.io (.fresh h')).go c io' p').Accepts p') :
    ((s.handed co h').go c io' p').Inv := by
  have hne : c ≠ co := by
    rintro rfl
    rw [hp] at hh
    injection hh with hh
    rw [hh] at hpa
    cases hpa
  -- The new coroutine has not begun, so the hand-over is noted.
  have heq : s.handed co h' = s.go co s.io (.fresh h') := by rw [handed, hh]
  rw [heq]
  refine ⟨hc.moved hk (by rw [go_pos, if_neg hne]; exact hp) hpa p' ha hb he (fun _ => hm) ht
    (fun _ => hcur) hg hst hf, hi.accepts_single hk hka (Function.update_self _ _ _) (hacc hne)
    (fun d q hd hq => ?_)⟩
  rw [go_pos, if_neg hd, go_pos] at hq
  by_cases hdc : d = co
  · rw [if_pos hdc] at hq
    injection hq with hq
    exact .inr ⟨_, hq.symm⟩
  · rw [if_neg hdc] at hq
    exact .inl hq

theorem code_give (hi : s.Inv) (hk : s.corun c = some k) (hp : s.pos c = some (.give g e l co)) :
    Keeps (s.code k.loop c k i (.give g e l co)) := by
  have hka : k.accepts = true := (hi.serves c k _ hk hp).fits
  rcases hi.accepts c _ hp with ⟨hco, hpos⟩
  rcases hi.mapped hco hpos with ⟨io', hio', hc⟩
  rw [code, hio']
  refine hi.handed_on hk hka hp hpos rfl hc rfl rfl rfl rfl rfl rfl rfl rfl hka
    (fun hne => ⟨g, hco, ?_⟩)
  rw [go_pos, if_neg hne.symm, go_pos, if_pos rfl]

theorem code_enter (hi : s.Inv) (hk : s.corun c = some k) (hp : s.pos c = some (.enter e l co)) :
    Keeps (s.code k.loop c k i (.enter e l co)) := by
  have hka : k.accepts = true := (hi.serves c k _ hk hp).fits
  rcases hi.accepts c _ hp with ⟨g, hco, hpos⟩
  rcases hi.registered hco hpos i.ok with ⟨io', hio', hc⟩
  rw [code, hio']
  exact hi.handed_on hk hka hp hpos rfl hc rfl rfl rfl rfl rfl rfl rfl rfl hka (fun _ => trivial)

/-- The acceptor lets go of the object, which is another's now. -/
theorem code_leave (hi : s.Inv) (hk : s.corun c = some k) (hp : s.pos c = some (.leave e co)) :
    Keeps (s.code k.loop c k i (.leave e co)) := by
  have hs := hi.serves c k _ hk hp
  have hka : k.accepts = true := hs.fits
  have hloc : s.locals (place c 2) = some e := by
    rw [locals_event, hp]
    rfl
  rcases hi.neat.release hloc with ⟨io', _, hio', _, hpool, hloop, _, hneat, htouch⟩
  rw [code, hio']
  have hn : io'.Neat (s.go c io' .top).locals := by
    rw [locals_local hk hp io' .top rfl]
    exact hneat
  have hsame : ∀ d x x', s.io.ev d = some x → io'.ev d = some x' →
      x'.obj.fd = x.obj.fd ∧ x'.obj.tid = x.obj.tid ∧ x'.obj.state = x.obj.state :=
    fun d x x' => Io.Leaves.same (fun r => (htouch r 0).leaves)
  rcases bound_live hn hk with ⟨y, hy⟩
  rcases hs.object with ⟨x, hx, _, hxt, _⟩
  exact ⟨hi.toCore.kept hk hp rfl io' .top rfl hn (.of_tables hpool hloop hsame _ _ _)
    (htouch 0 0).hookable hpool hloop
    ⟨y, hy, (hsame _ x y hx hy).2.1.trans (hxt rfl), fun st h => by cases h⟩ (fun h => h) rfl
    (fun h => h) trivial, hi.accepts_single hk hka (Function.update_self _ _ _) trivial
    (fun d q hd hq => .inl ((Function.update_of_ne hd _ _).symm.trans hq))⟩

end Births

end TcpSys

end Fasco
