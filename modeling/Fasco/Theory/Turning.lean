import Fasco.Theory.OwnCalls

/-!
# The Turn of a Loop

The loop takes a report, finds the object and the coroutine, and resumes it; the
coroutine executes until the switch in a hooked call, or the end of its
callback, gets back to the loop.

What the loop finds in its table is not its own object, since that has the
`eventfd`, so it belongs to a coroutine in charge of the descriptor
(`Core.watched`). That coroutine is not executing, because the loop is: it
waits, and the pool has it.

## Main definitions

* `Wakes`: Where a coroutine is, and comes to, when it is resumed.

## Theorems

* `Core.watched`: Whose descriptor the loop has found.
* `loop_idle`, `loop_found`, `loop_resume`, `loop_enter`, `loop_after`: The
  steps of the loop.
* `code_switch`, `code_finish`: The coroutine gives control back.
-/

namespace Fasco

theorem liftMco_cases {α : Type} (x : Except Fault α) :
    (∃ a, x = .ok a ∧ liftMco x = .ok a) ∨ ∃ g, liftMco x = .error (.mco g) := by
  cases x with
  | ok a => exact .inl ⟨a, rfl, rfl⟩
  | error f => exact .inr ⟨f, rfl⟩

namespace TcpSys

section Turns

variable {s : TcpSys} {c : McoRef} {k : Corun} {p : Pos} {i : Supply} {t : Tid} {r : Turn}
  {fd : Fd} {e : EvRef} {mco : McoRef}

/-- Where a coroutine is, and comes to, when it is resumed. -/
structure Wakes (p : Pos) : Prop where
  active : p.wake.active = true
  begun : p.wake.begun = p.begun
  event : p.wake.event = p.event
  given : p.given = true
  mapped : p.mapped = true
  tabled : p.tabled = true
  still : p.wake.tabled = true
  state : p.wake.state = none
  fits : ∀ c k, p.Fits c k → p.wake.Fits c k
  goes : p ≠ .ended
  accepts : ∀ s : TcpSys, s.Accepts p.wake

theorem wakes (hpw : p.waits = true) : Wakes p := by
  cases p with
  | fresh h =>
      cases h with
      | registered =>
          exact ⟨rfl, rfl, rfl, rfl, rfl, rfl, rfl, rfl, fun _ _ h => h, fun h => (by cases h),
            fun _ => trivial⟩
      | made => cases hpw
      | mapped => cases hpw
  | asleep fd e =>
      exact ⟨rfl, rfl, rfl, rfl, rfl, rfl, rfl, rfl, fun _ _ h => ⟨h.1, h.2, fun h => by cases h⟩,
        fun h => (by cases h), fun _ => trivial⟩
  | _ => cases hpw

/-! ### The loop by itself -/

/-- The loop moves on, and has resumed nobody. -/
theorem Inv.passed (hi : s.Inv) (ht : ∀ c, s.turn t ≠ .inside c) (hr : ∀ c, r ≠ .inside c)
    {io' : Io} {b : Tid → List PollerEvent} (hneat : io'.Neat s.locals)
    (hpool : io'.pool = s.io.pool) (hloop : io'.loop = s.io.loop)
    (htouch : ∀ d u g, s.io.Touch io' d u g) (hok : s.TurnOk t r) :
    ({ s.setTurn t r with io := io', batch := b } : TcpSys).Inv := by
  have hent : ∀ u g, io'.entry u g = s.io.entry u g := by
    intro u g
    rw [Io.entry, Io.entry, hloop]
  have hcur : ∀ u, io'.getCurMco u = s.io.getCurMco u := by
    intro u
    rw [Io.getCurMco, Io.getCurMco, hpool]
  -- Whoever executes does so on another thread.
  have hturn : ∀ u d, s.turn u = .inside d → Function.update s.turn t r u = .inside d := by
    intro u d hu
    rw [Function.update_of_ne]
    · exact hu
    · rintro rfl
      exact ht d hu
  refine ⟨⟨(htouch 0 0 0).hookable.trans hi.hookable, hneat, hi.hosted.turned ht hr, ?_, ?_, ?_,
    ?_, ?_⟩, fun d q hq => ?_⟩
  · exact ⟨fun u l hul => ⟨(hi.registry.loops u l hul).1, by
      change (io'.loop u).isSome
      rw [hloop]
      exact (hi.registry.loops u l hul).2⟩, hi.registry.workers, hi.registry.main,
      hi.registry.started⟩
  · refine ⟨hi.charges.paired, hi.charges.owner, fun d kd u l hd hul => ?_, hi.charges.single⟩
    have hul' : io'.loop u = some l := hul
    rw [hloop] at hul'
    exact hi.charges.unwoken d kd u l hd hul'
  · intro d kd q hkd hq
    exact (hi.serves d kd q hkd hq).still (fun e u g => (htouch e u g).leaves)
      (bound_live hneat hkd) rfl hturn
  · intro u g e he
    have he' : io'.entry u g = some e := he
    rw [hent] at he'
    rcases hi.entered u g e he' with ⟨l, hul, hle⟩ | hmine
    · refine .inl ⟨l, ?_, hle⟩
      change io'.loop u = some l
      rw [hloop]
      exact hul
    · exact .inr hmine
  · intro u
    change TurnOk _ u (Function.update s.turn t r u)
    by_cases hu : u = t
    · rw [hu, Function.update_self]
      exact hok.frame (fun d kd q hkd hq _ _ => ⟨hkd, hq⟩) (fun _ _ => hcur t)
    · rw [Function.update_of_ne hu]
      exact (hi.turns u).frame (fun d kd q hkd hq _ _ => ⟨hkd, hq⟩) (fun _ _ => hcur u)
  · have hq' : s.pos d = some q := hq
    refine (hi.accepts d q hq').still htouch (fun g e l h => ?_) rfl rfl (fun _ _ _ h => h)
    exact Option.isSome_iff_exists.mpr (local_live hneat hq' (by rw [h]; rfl))

/-- A descriptor in the table of a loop, other than its `eventfd`, is the one
    of a coroutine, which waits if it does not execute. -/
theorem Core.watched (hi : s.Core) {l : EventLoop} (hl : s.io.loop t = some l)
    (hent : s.io.entry t fd = some e) (hwake : l.wakeFd ≠ fd) :
    ∃ c k p, s.corun c = some k ∧ s.pos c = some p ∧ k.event = e ∧ k.loop = t ∧ k.fd = fd ∧
      (p.waits = true ∨ p.active = true) := by
  rcases hi.neat.tidy.live (k := .table t fd) hent with ⟨x, hx, _⟩
  rcases hi.entered t fd e hent with ⟨l', hl', hw⟩ | ⟨c, k, p, hk, hp, hke, hloop, htab⟩
  -- The loop's own object has the `eventfd`.
  · exfalso
    rw [hl] at hl'
    injection hl' with hl'
    rcases hi.neat.wake t l hl with ⟨y, hy, hyf⟩
    rw [hl', hw, hx] at hy
    injection hy with hy
    exact hwake (by rw [← hyf, ← hy, (hi.neat.entry_of hx hent).1])
  · refine ⟨c, k, p, hk, hp, hke, hloop, ?_, ?_⟩
    · rcases (hi.serves c k p hk hp).object with ⟨y, hy, hyf, _⟩
      rw [hke, hx] at hy
      injection hy with hy
      rw [← hyf, ← hy, (hi.neat.entry_of hx hent).1]
    · cases p with
      | fresh h =>
          cases h with
          | registered => exact .inl rfl
          | made => cases htab
          | mapped => cases htab
      | asleep _ _ => exact .inl rfl
      | ended => cases htab
      | _ => exact .inr rfl

theorem loop_idle (hi : s.Inv) (ht : s.turn t = .idle) (hl : (s.io.loop t).isSome)
    (hb : s.batch t ≠ []) : Keeps (s.loopCode t i .idle) := by
  rcases Option.isSome_iff_exists.mp hl with ⟨l, hl⟩
  have hno : ∀ c, s.turn t ≠ .inside c := by
    intro c
    rw [ht]
    intro h
    cases h
  rw [loopCode]
  cases hbt : s.batch t with
  | nil => exact absurd hbt hb
  | cons x rest =>
      rcases hi.neat.loopFind hl x with ⟨io', o, hio', hpool, hloop, hneat, htouch, hfound⟩
      simp only []
      rw [hio']
      cases o with
      -- Nothing to resume: the loop goes on with the next report.
      | none =>
          have h := hi.passed hno hno (b := Function.update s.batch t rest) hneat hpool hloop htouch
            (hi.turns t)
          rw [setTurn_self] at h
          exact h
      | some fd =>
          refine hi.passed hno (fun _ h => by cases h) hneat hpool hloop htouch ?_
          rcases hfound fd rfl with ⟨e, hent, hw⟩
          rcases hi.watched hl hent hw with ⟨c, k, p, hk, hp, _, hloop, hfd, hpw⟩
          refine ⟨c, k, p, hk, hp, ?_, hloop, hfd⟩
          rcases hpw with hpw | hpa
          · exact hpw
          · -- The loop executes, and not the coroutine.
            have hin := (hi.serves c k p hk hp).active hpa
            rw [hloop] at hin
            exact absurd hin (hno c)

/-- The pool has a coroutine for what the loop has found. -/
theorem loop_found (hi : s.Inv) (ht : s.turn t = .found fd) :
    Keeps (s.loopCode t i (.found fd)) := by
  have hok := hi.turns t
  rw [ht] at hok
  -- A coroutine that waits is in the pool.
  rcases hok with ⟨c, k, p, hk, hp, hpw, rfl, rfl⟩
  rw [loopCode, (hi.serves c k p hk hp).mapped (wakes hpw).mapped]
  refine hi.passed (b := s.batch) (fun _ h => ?_) (fun _ h => by cases h) hi.neat
    rfl rfl (fun d u g => .refl _ _ _ _) ⟨k, p, hk, hp, hpw, rfl⟩
  rw [ht] at h
  cases h

theorem loop_after (hi : s.Inv) (ht : s.turn t = .after mco) :
    Keeps (s.loopCode t i (.after mco)) := by
  refine hi.passed (b := s.batch) (fun _ h => ?_) (fun _ h => by cases h) hi.neat
    rfl rfl (fun d u g => .refl _ _ _ _) trivial
  rw [ht] at h
  cases h

/-! ### The loop and a coroutine -/

/-- Nobody executes a coroutine that waits. -/
theorem Core.not_inside (hi : s.Core) (hp : s.pos c = some p) (hpw : p.waits = true) (u : Tid) :
    s.turn u ≠ .inside c := by
  intro hu
  have hok := hi.turns u
  rw [hu] at hok
  rcases hok with ⟨k, q, _, hq, hqa, _⟩
  rw [hp] at hq
  injection hq with hq
  rw [← hq, Pos.waits_not_active hpw] at hqa
  cases hqa

/-- Nor is one of its thread executing while the loop is. -/
theorem Core.none_inside (hi : s.Core) (ht : ∀ d, s.turn t ≠ .inside d) (hk : s.corun c = some k)
    (hp : s.pos c = some p) (hloop : k.loop = t) : p.active = false := by
  refine Bool.eq_false_iff.mpr (fun hpa => ?_)
  have hin := (hi.serves c k p hk hp).active hpa
  rw [hloop] at hin
  exact ht c hin

theorem go_self (hp : s.pos c = some p) (io : Io) : s.go c io p = { s with io := io } := by
  rw [go, Function.update_eq_self_iff.mpr hp.symm]

theorem loop_resume (hi : s.Inv) (ht : s.turn t = .resume mco) :
    Keeps (s.loopCode t i (.resume mco)) := by
  have hok := hi.turns t
  rw [ht] at hok
  rcases hok with ⟨k, p, hk, hp, hpw, rfl⟩
  have hs := hi.serves mco k p hk hp
  have hno : ∀ d, s.turn k.loop ≠ .inside d := by
    intro d
    rw [ht]
    intro h
    cases h
  have hpa := Pos.waits_not_active hpw
  have hneat : (s.io.setCurMco k.loop (some mco)).Neat s.locals := hi.neat.pools rfl rfl rfl rfl
  have htouch := Io.setCurMco_touch s.io (t := k.loop) (some mco)
  -- The position stays as it is, so this is a change in the sense of `Core.change`.
  have hgo := go_self hp (s.io.setCurMco k.loop (some mco))
  have hpos : Function.update s.pos mco (some p) = s.pos := Function.update_eq_self_iff.mpr hp.symm
  have hcore := hi.toCore.change hk hp s.w (s.io.setCurMco k.loop (some mco)) p (.enter mco)
    (by rw [hgo]; exact hneat) ?_
    (htouch k.event k.fd).leaves rfl (fun _ => rfl) ?_ (fun e h => .inl ⟨h, fun h => h⟩)
    (fun d kd q _ hkd hq hloop hqa => ?_) ?_
  · rw [hgo] at hcore
    exact ⟨hcore, hi.accepts⟩
  · rw [hpos]
    exact hi.hosted.turned hno (fun _ h => by cases h)
  -- Not yet executing, it need not be the current one before.
  · exact ⟨hs.object, hs.home,
      fun h => (Io.getMcoRoutine_setCurMco s.io k.loop _ k.loop k.fd).trans (hs.mapped h),
      hs.tabled, fun h => absurd (hpa.symm.trans h) Bool.false_ne_true,
      fun h => absurd (hpa.symm.trans (Pos.current_active h)) Bool.false_ne_true, hs.fits⟩
  · rw [hi.none_inside hno hkd hq hloop] at hqa
    cases hqa
  · refine ⟨⟨k, p, hk, ?_, hpw, rfl⟩, ?_⟩
    · change Function.update s.pos mco (some p) mco = some p
      rw [Function.update_self]
    · exact (Io.getCurMco_setCurMco s.io k.loop (some mco) k.loop).trans (if_pos rfl)

/-- The resume gets to the coroutine. -/
theorem loop_enter (hi : s.Inv) (ht : s.turn t = .enter mco) (hsite : s.w.FreshMain t i.site) :
    Keeps (s.loopCode t i (.enter mco)) := by
  have hok := hi.turns t
  rw [ht] at hok
  rcases hok with ⟨⟨k, p, hk, hp, hpw, rfl⟩, hcur⟩
  have hs := hi.serves mco k p hk hp
  have hno : ∀ d, s.turn k.loop ≠ .inside d := by
    intro d
    rw [ht]
    intro h
    cases h
  have hwake := wakes hpw
  rw [loopCode]
  rcases liftMco_cases (s.w.mcoResume k.loop (some mco) i.site) with ⟨w', hw, hl⟩ | ⟨g, hl⟩
  · rw [hl]
    rcases hi.hosted.enter hno hp hwake.goes (hi.not_inside hp hpw) hsite hw with ⟨hexec, hhost⟩
    change Keeps (if w'.exec k.loop = some mco then _ else _)
    rw [if_pos hexec, hp]
    rcases hs.object with ⟨x, hx, hxf, hxt, _⟩
    have hcore := hi.toCore.change hk hp w' s.io p.wake (.inside mco) ?_
      (hhost.move hp hwake.goes p.wake) (Io.Touch.refl _ _ _ _).leaves rfl (fun _ => rfl) ?_
      (fun e h => .inl ⟨h, fun _ => hwake.still⟩)
      (fun d kd q _ hkd hq hloop hqa => ?_) ?_
    · refine ⟨hcore, fun d q hq => ?_⟩
      have hq' : (s.go mco s.io p.wake).pos d = some q := hq
      rw [go_pos] at hq'
      by_cases hd : d = mco
      · rw [if_pos hd] at hq'
        injection hq' with hq'
        rw [← hq']
        exact hwake.accepts _
      -- A hand-over is about coroutines that have not been registered, and `mco` has.
      · rw [if_neg hd] at hq'
        refine (hi.accepts d q hq').still (fun _ _ _ => .refl _ _ _ _) (fun g e l h => ?_) rfl rfl
          (fun m h hne hm => ?_)
        · have hold := hi.accepts d q hq'
          rw [h] at hold
          rcases hold.1 with ⟨x, hx, _⟩
          exact Option.isSome_iff_exists.mpr ⟨x, hx⟩
        · change (s.go mco s.io p.wake).pos m = some (.fresh h)
          rw [go_pos, if_neg]
          · exact hm
          · rintro rfl
            rw [hp] at hm
            injection hm with hm
            rw [hm] at hpw
            cases h with
            | registered => exact hne rfl
            | made => cases hpw
            | mapped => cases hpw
    · rw [locals_same hk hp s.io p.wake hwake.begun hwake.event]
      exact hi.neat
    · exact ⟨⟨x, hx, hxf, fun _ => hxt hwake.given,
        fun st h => by rw [hwake.state] at h; cases h⟩, hs.home,
        fun _ => hs.mapped hwake.mapped, fun _ => hs.tabled hwake.tabled,
        fun _ => Function.update_self _ _ _, fun _ => hcur, hwake.fits _ _ hs.fits⟩
    · rw [hi.none_inside hno hkd hq hloop] at hqa
      cases hqa
    · refine ⟨k, p.wake, hk, ?_, hwake.active, rfl⟩
      change Function.update s.pos mco (some p.wake) mco = some p.wake
      rw [Function.update_self]
  · rw [hl]
    exact ⟨g, rfl⟩

/-! ### Back to the loop -/

theorem code_switch (hi : s.Inv) (hk : s.corun c = some k)
    (hp : s.pos c = some (.switch fd e mco)) : Keeps (s.code k.loop c k i (.switch fd e mco)) := by
  have hs := hi.serves c k _ hk hp
  rcases hs.fits with ⟨hfd, he, rfl⟩
  have hturn := hs.active rfl
  rw [code]
  rcases liftMco_cases (s.w.mcoYield k.loop (some mco) i.site.sp) with ⟨w', hw, hl⟩ | ⟨g, hl⟩
  · rw [hl]
    rcases hi.hosted.yield hturn hw (r := .after mco) (fun _ h => by cases h) with ⟨hexec, hhost⟩
    change Keeps (if w'.exec k.loop = some mco then _ else _)
    -- Control has gone back to the loop.
    rw [if_neg hexec, hturn]
    have hneat : s.io.Neat (s.go mco s.io (.asleep fd e)).locals := by
      rw [locals_same hk hp s.io (.asleep fd e) rfl rfl]
      exact hi.neat
    rcases hs.object with ⟨x, hx, hxf, hxt, _⟩
    refine ⟨hi.toCore.change hk hp w' s.io (.asleep fd e) (.after mco) hneat
      (hhost.move hp (fun h => by cases h) _) (Io.Touch.refl _ _ _ _).leaves rfl (fun _ => rfl) ?_
      (fun e h => .inl ⟨h, fun _ => rfl⟩)
      (fun d kd q hd hkd hq hloop hqa => ?_) trivial,
      hi.accepts_go hk hp rfl hneat (.refl _ _ _ _) trivial⟩
    · exact ⟨⟨x, hx, hxf, fun _ => hxt rfl, fun st h => (by cases h)⟩, hs.home,
        fun _ => hs.mapped rfl, fun _ => hs.tabled rfl, fun h => (by cases h),
        fun h => (by cases h), hfd, he⟩
    · rw [hi.alone hk hp rfl hd hkd hq hloop] at hqa
      cases hqa
  · rw [hl]
    exact ⟨g, rfl⟩

/-- The callback ends, and its parameter goes. -/
theorem code_finish (hi : s.Inv) (hk : s.corun c = some k) (hp : s.pos c = some .finish) :
    Keeps (s.code k.loop c k i .finish) := by
  have hs := hi.serves c k _ hk hp
  have hturn := hs.active rfl
  have hka : k.accepts = false := hs.fits
  rcases hs.object with ⟨x, hx, hxf, hxt, _⟩
  -- The parameter holds a pointer, and the callback another, so the object stays.
  have hparam : s.locals (place c 1) = some k.event := by
    rw [locals_param, hk, hp]
    change paramOf k .finish = some k.event
    rw [paramOf, hka]
    rfl
  rcases hi.neat.release hparam with ⟨io', y, hio', hy, hpool, hloop, hobj, hneat, htouch⟩
  rw [hx] at hy
  injection hy with hy
  rw [← hy, hxf] at htouch
  have hneat' : io'.Neat (s.go c io' .ended).locals := by
    rw [locals_begun hk hp io' .ended rfl]
    exact hneat
  rcases bound_live hneat' hk with ⟨z, hz⟩
  rw [code, hio']
  change Keeps (do
    let w ← liftMco (s.w.coroutineRun k.loop i.site.sp)
    .ok { (s.go c io' .ended).setTurn k.loop (s.turn k.loop).back with w := w })
  rcases liftMco_cases (s.w.coroutineRun k.loop i.site.sp) with ⟨w', hw, hl⟩ | ⟨g, hl⟩
  · rw [hl, hturn]
    have hhost := hi.hosted.finish hturn hw hp (r := .after c) (fun _ h => by cases h)
    have hent : ∀ u g, io'.entry u g = s.io.entry u g := by
      intro u g
      rw [Io.entry, Io.entry, hloop]
    refine ⟨hi.toCore.change hk hp w' io' .ended (.after c) hneat' hhost
      (htouch k.event k.loop).leaves (htouch 0 0).hookable (htouch 0 0).wake ?_
      (fun e h => .inl ⟨(hent _ _).symm.trans h, fun h => (by cases h)⟩)
      (fun d kd q hd hkd hq hloop hqa => ?_) trivial,
      hi.accepts_go hk hp rfl hneat' (htouch _ _) trivial⟩
    · exact ⟨⟨z, hz, by rw [hobj z hz, ← hy, hxf], fun _ => by rw [hobj z hz, ← hy, hxt rfl],
        fun st h => (by cases h)⟩, hs.home, fun h => (by cases h), fun h => (by cases h),
        fun h => (by cases h), fun h => (by cases h), hka⟩
    · rw [hi.alone hk hp rfl hd hkd hq hloop] at hqa
      cases hqa
  · rw [hl]
    exact ⟨g, rfl⟩

end Turns

end TcpSys

end Fasco
