import Fasco.Theory.Serving

/-!
# The Calls for One's Own Descriptor

In the hooks, and in `client_call` and the loop of the acceptor, a coroutine
makes one call after the other for the descriptor it is in charge of. Each
returns, and the invariant holds afterwards: the pool has the coroutine, so that
the assertion in the hook holds and the hook never enters it; the table has the
object, so that the loop is never told of a new one; and in the hooked `close`
the two go in this order, with the object, and with it the descriptor, staying
as long as the callback has its pointer.

## Theorems

* `code_start`: The beginning of the callback.
* `code_top`, `code_check`, `code_look`, `code_find`, `code_report`,
  `code_tell`, `code_yield`: A hooked call up to the switch, and after it.
* `code_sys`: The system call.
* `closeCode_keeps`: The hooked `close`.
-/

namespace Fasco

namespace TcpSys

section Calls

variable {s : TcpSys} {c : McoRef} {k : Corun} {p : Pos} {i : Supply} {fd : Fd} {e : EvRef}

/-- A callback gets its own descriptor from what it is bound to. -/
theorem Inv.getFd (hi : s.Inv) (hk : s.corun c = some k) : s.getFd k = .ok k.fd := by
  rcases hi.pos_of hk with ⟨p, hp⟩
  rcases (hi.serves c k p hk hp).object with ⟨x, hx, hf, _⟩
  unfold TcpSys.getFd
  by_cases ha : k.accepts = true
  · rw [if_pos ha]
  · rw [if_neg ha, hx]
    simp only []
    rw [hf]

/-- The registry gives a callback the loop of its own thread. -/
theorem Inv.getLoop (hi : s.Inv) (hk : s.corun c = some k) (hp : s.pos c = some p) :
    s.loops.getLoop k.loop = some k.loop := (hi.serves c k p hk hp).home

/-- The object that a callback is bound to is still for the thread, after a call
    that changes no object. -/
theorem Inv.still (hi : s.Inv) (hk : s.corun c = some k) (hp : s.pos c = some p)
    (hg : p.given = true) {io' : Io} {p' : Pos} (hn : io'.Neat (s.go c io' p').locals)
    (ht : ∀ d u g, s.io.Touch io' d u g) :
    ∃ x', io'.ev k.event = some x' ∧ x'.obj.tid = k.loop := by
  rcases bound_live hn hk with ⟨x', hx'⟩
  rcases (hi.serves c k p hk hp).object with ⟨y, hy, _, hyt, _⟩
  exact ⟨x', hx', (Io.Leaves.same (fun r => (ht r 0 0).leaves) hy hx').2.1.trans (hyt hg)⟩

/-! ### The beginning of the callback -/

/-- The first call of a callback. -/
theorem code_start (hi : s.Inv) (hk : s.corun c = some k) (hp : s.pos c = some .start) :
    Keeps (s.code k.loop c k i .start) := by
  rcases (hi.serves c k _ hk hp).object with ⟨x, hx, _, hxt, _⟩
  rw [code]
  by_cases ha : k.accepts = true
  · rw [if_pos ha, if_pos rfl]
    refine hi.kept hk hp rfl rfl ?_ (.refl _ _ _ _) rfl rfl
      ⟨x, hx, hxt rfl, fun st h => by cases h⟩ (fun h => h) rfl (fun h => h) trivial trivial
    -- The acceptor has no parameter.
    have hparam : paramOf k .top = paramOf k .start := by
      rw [paramOf, paramOf, ha, Bool.not_true, Bool.and_false, Bool.and_false]
    have hloc : (s.go c s.io .top).locals = s.locals := by
      rw [locals_begun hk hp s.io .top rfl]
      refine Function.update_eq_self_iff.mpr ?_
      rw [locals_param, hk, hp]
      exact hparam
    rw [hloc]
    exact hi.neat
  -- `client_call` gets a pointer of its own.
  · rw [if_neg ha]
    rcases hi.neat.share hx (place c 1) with ⟨io', hio', hx', hloop, hpool, _, hneat, htouch⟩
    rw [hio']
    change (s.go c io' .top).Inv
    have hparam : paramOf k .top = some k.event := by
      rw [paramOf, Bool.eq_false_iff.mpr ha]
      rfl
    refine hi.kept hk hp rfl rfl ?_ (htouch _ _ _) hpool hloop
      ⟨_, hx', hxt rfl, fun st h => by cases h⟩ (fun h => h) rfl (fun h => h) trivial trivial
    rw [locals_begun hk hp io' .top rfl, hparam]
    exact hneat

/-! ### The hooked calls -/

theorem code_top (hi : s.Inv) (hk : s.corun c = some k) (hp : s.pos c = some .top) :
    Keeps (s.code k.loop c k i .top) := by
  have hs := hi.serves c k _ hk hp
  rw [code, hi.getFd hk]
  change Keeps (if (s.io.kern.nonblocking k.fd || !s.io.hookable) = true
    then .ok (s.go c s.io (.sys k.fd)) else _)
  by_cases hb : (s.io.kern.nonblocking k.fd || !s.io.hookable) = true
  · rw [if_pos hb]
    exact hi.moved hk hp rfl rfl rfl rfl (fun h => h) rfl (fun h => h) rfl rfl trivial trivial
  -- The pool has the coroutine, so the hook goes on to its assertion.
  · rw [if_neg hb, hs.mapped rfl]
    exact hi.moved hk hp rfl rfl rfl rfl (fun h => h) rfl (fun h => h) rfl rfl ⟨rfl, rfl⟩ trivial

/-- The assertion holds. -/
theorem code_check {mco : McoRef} (hi : s.Inv) (hk : s.corun c = some k)
    (hp : s.pos c = some (.check fd mco)) : Keeps (s.code k.loop c k i (.check fd mco)) := by
  have hs := hi.serves c k _ hk hp
  rcases hs.fits with ⟨hfd, hm⟩
  rw [code, hs.current rfl, hm, if_neg (not_not_intro rfl)]
  exact hi.moved hk hp rfl rfl rfl rfl (fun h => h) rfl (fun h => h) rfl rfl hfd trivial

theorem code_look (hi : s.Inv) (hk : s.corun c = some k) (hp : s.pos c = some (.look fd)) :
    Keeps (s.code k.loop c k i (.look fd)) := by
  have hs := hi.serves c k _ hk hp
  rw [code, hi.getLoop hk hp]
  exact hi.moved hk hp rfl rfl rfl rfl (fun h => h) rfl (fun h => h) rfl rfl ⟨hs.fits, rfl⟩
    trivial

/-- A hooked call that finds no object makes one. -/
theorem code_find {l : Tid} (hi : s.Inv) (hk : s.corun c = some k)
    (hp : s.pos c = some (.find fd l)) : Keeps (s.code k.loop c k i (.find fd l)) := by
  have hs := hi.serves c k _ hk hp
  rcases hs.fits with ⟨rfl, rfl⟩
  rcases hi.neat.getEvents (hs.tabled rfl) (place c 2) with
    ⟨io', hio', hloop, hpool, hneat, htouch⟩
  rw [code, hio']
  change (s.go c io' (.report k.fd k.event .ask)).Inv
  have hneat' : io'.Neat (s.go c io' (.report k.fd k.event .ask)).locals := by
    rw [locals_local hk hp io' (.report k.fd k.event .ask) rfl]
    exact hneat
  rcases hi.still hk hp rfl hneat' htouch with ⟨x', hx', ht⟩
  exact hi.kept hk hp rfl rfl hneat' (htouch _ _ _) hpool hloop
    ⟨x', hx', ht, fun st h => by cases h⟩ (fun h => h) rfl (fun h => h)
    ⟨rfl, rfl, fun h => by cases h⟩ trivial

/-- A change that is reported leaves descriptor and thread, and the object is
    no longer new. -/
theorem change_keeps {r : Report} (hr : r ≠ .enrol) (o : Events) :
    (r.change o).fd = o.fd ∧ (r.change o).tid = o.tid ∧ (r.change o).state = .MOD := by
  cases r with
  | ask => exact ⟨rfl, rfl, rfl⟩
  | enrol => exact absurd rfl hr
  | withdraw => exact ⟨rfl, rfl, rfl⟩

/-- The change made before a report keeps the invariant. -/
theorem code_report {r : Report} (hi : s.Inv) (hk : s.corun c = some k)
    (hp : s.pos c = some (.report fd e r)) : Keeps (s.code k.loop c k i (.report fd e r)) := by
  have hs := hi.serves c k _ hk hp
  rcases hs.fits with ⟨rfl, rfl, hr⟩
  rcases hs.object with ⟨x, hx, hxf, hxt, _⟩
  rcases change_keeps hr x.obj with ⟨hcf, hct, hcs⟩
  rcases hi.neat.modifyEvents hx r.change hcf (.inl hct) with
    ⟨io', hio', hx', hloop, hpool, _, hneat, htouch⟩
  -- The object names the loop's thread, so the loop is found.
  have htid : (r.change x.obj).tid = k.loop := hct.trans (hxt rfl)
  rw [code, hio']
  simp only [bind, Except.bind, hx', htid, hi.getLoop hk hp]
  refine hi.kept hk hp rfl rfl ?_ (htouch _ _) hpool hloop ⟨_, hx', htid, fun st h => ?_⟩
    (fun h => h) rfl (fun h => h) ⟨rfl, rfl, rfl, hr⟩ trivial
  · rw [locals_same hk hp io' (.tell k.fd k.event k.loop r) rfl rfl]
    exact hneat
  · injection h with h
    exact hcs.trans h

/-- The loop is told of the change. -/
theorem code_tell {l : Tid} {r : Report} (hi : s.Inv) (hk : s.corun c = some k)
    (hp : s.pos c = some (.tell fd e l r)) : Keeps (s.code k.loop c k i (.tell fd e l r)) := by
  have hs := hi.serves c k _ hk hp
  rcases hs.fits with ⟨rfl, rfl, rfl, hr⟩
  rcases hs.object with ⟨x, hx, hxf, hxt, hst⟩
  have hent : s.io.entry k.loop x.obj.fd = some k.event := by
    rw [hxf]
    exact hs.tabled rfl
  rcases hi.neat.updateEvents_mod hx (hst _ rfl) hent i.ok with
    ⟨io', hio', hev, hpool, hloop, hneat, htouch⟩
  have hx' : io'.ev k.event = some x := by
    rw [hev]
    exact hx
  rw [code, hio']
  cases r with
  | enrol => exact absurd rfl hr
  | ask =>
      change (s.go c io' (.yield k.fd k.event)).Inv
      refine hi.kept hk hp rfl rfl ?_ (htouch _) hpool hloop
        ⟨x, hx', hxt rfl, fun st h => by cases h⟩ (fun h => h) rfl (fun h => h) ⟨rfl, rfl⟩ trivial
      rw [locals_same hk hp io' (.yield k.fd k.event) rfl rfl]
      exact hneat
  | withdraw =>
      -- The hooked call is over with its object.
      have hloc : s.locals (place c 2) = some k.event := by
        rw [locals_event, hp]
        rfl
      rcases hneat.release hloc with ⟨io'', y, hio'', hy, hpool', hloop', hobj, hneat', htouch'⟩
      rw [hx'] at hy
      injection hy with hy
      rw [← hy, hxf] at htouch'
      have hn : io''.Neat (s.go c io'' (.sys k.fd)).locals := by
        rw [locals_local hk hp io'' (.sys k.fd) rfl]
        exact hneat'
      rcases bound_live hn hk with ⟨z, hz⟩
      change Keeps (do
        let io ← io'.release k.event
        .ok (s.go c io (.sys k.fd)))
      rw [hio'']
      exact hi.kept hk hp rfl rfl hn ((htouch _).trans (htouch' _ _)) (hpool'.trans hpool)
        (hloop'.trans hloop) ⟨z, hz, by rw [hobj z hz, ← hy, hxt rfl], fun st h => by cases h⟩
        (fun h => h) rfl (fun h => h) trivial trivial

/-- Before it switches, a hooked call asks for the current coroutine again. -/
theorem code_yield (hi : s.Inv) (hk : s.corun c = some k) (hp : s.pos c = some (.yield fd e)) :
    Keeps (s.code k.loop c k i (.yield fd e)) := by
  have hs := hi.serves c k _ hk hp
  rw [code, hs.current rfl]
  exact hi.moved hk hp rfl rfl rfl rfl (fun h => h) rfl (fun h => h) rfl rfl
    ⟨hs.fits.1, hs.fits.2, rfl⟩ trivial

/-- What the kernel returns is a descriptor that no object has. -/
theorem code_sys (hi : s.Inv) (hk : s.corun c = some k) (hp : s.pos c = some (.sys fd))
    (hnew : ∀ r, i.accepted = some r → s.io.kern.isOpen r.1 = false) :
    Keeps (s.code k.loop c k i (.sys fd)) := by
  rw [code]
  by_cases ha : k.accepts = true
  · rw [if_pos ha]
    cases hacc : i.accepted with
    | none =>
        exact hi.moved hk hp rfl rfl rfl rfl (fun h => h) rfl (fun h => h) rfl rfl trivial trivial
    | some r =>
        rcases r with ⟨g, nonblock⟩
        rcases hi.neat.openFd g nonblock with ⟨hneat, htouch⟩
        -- The new descriptor is open now, and no object has it yet.
        simp only []
        by_cases hg : 0 < g
        · rw [if_pos hg]
          have hn : ({ s.io with kern := s.io.kern.openFd g nonblock } : Io).Neat
              (s.go c { s.io with kern := s.io.kern.openFd g nonblock } (.accepted g)).locals := by
            rw [locals_same hk hp _ (.accepted g) rfl rfl]
            exact hneat
          rcases hi.still hk hp rfl hn htouch with ⟨x', hx', ht⟩
          exact hi.kept hk hp rfl rfl hn (htouch _ _ _) rfl rfl
            ⟨x', hx', ht, fun st h => by cases h⟩ (fun h => h) rfl (fun h => h) ha
            ⟨Function.update_self _ _ _, hi.neat.shut (hnew _ hacc)⟩
        · rw [if_neg hg]
          have hn : ({ s.io with kern := s.io.kern.openFd g nonblock } : Io).Neat
              (s.go c { s.io with kern := s.io.kern.openFd g nonblock } .top).locals := by
            rw [locals_same hk hp _ .top rfl rfl]
            exact hneat
          rcases hi.still hk hp rfl hn htouch with ⟨x', hx', ht⟩
          exact hi.kept hk hp rfl rfl hn (htouch _ _ _) rfl rfl
            ⟨x', hx', ht, fun st h => by cases h⟩ (fun h => h) rfl (fun h => h) trivial trivial
  · rw [if_neg ha]
    by_cases hm : i.more = true
    · rw [if_pos hm]
      exact hi.moved hk hp rfl rfl rfl rfl (fun h => h) rfl (fun h => h) rfl rfl trivial trivial
    · rw [if_neg hm, hi.getFd hk]
      exact hi.moved hk hp rfl rfl rfl rfl (fun h => h) rfl (fun h => h) rfl rfl
        ⟨Bool.eq_false_iff.mpr ha, rfl, trivial⟩ trivial

/-! ### The hooked close -/

theorem close_cur (hi : s.Inv) (hk : s.corun c = some k) (hp : s.pos c = some (.close fd .cur)) :
    Keeps (s.closeCode k.loop c i fd .cur) := by
  have hs := hi.serves c k _ hk hp
  rcases hs.fits with ⟨ha, hfd, _⟩
  rw [closeCode, hi.hookable, hs.current rfl]
  exact hi.moved hk hp rfl rfl rfl rfl (fun h => h) rfl (fun h => h) rfl rfl ⟨ha, hfd, rfl⟩ trivial

/-- `close` compares the current coroutine with that of the descriptor. -/
theorem close_fdmco {m : Option McoRef} (hi : s.Inv) (hk : s.corun c = some k)
    (hp : s.pos c = some (.close fd (.fdmco m))) :
    Keeps (s.closeCode k.loop c i fd (.fdmco m)) := by
  have hs := hi.serves c k _ hk hp
  rcases hs.fits with ⟨ha, rfl, rfl⟩
  rw [closeCode, hs.mapped rfl, if_pos rfl]
  exact hi.moved hk hp rfl rfl rfl rfl (fun h => h) rfl (fun h => h) rfl rfl ⟨ha, rfl, trivial⟩
    trivial

theorem close_clear (hi : s.Inv) (hk : s.corun c = some k)
    (hp : s.pos c = some (.close fd .clear)) : Keeps (s.closeCode k.loop c i fd .clear) := by
  have hs := hi.serves c k _ hk hp
  rcases hs.fits with ⟨ha, rfl, _⟩
  have htouch := Io.setCurMco_touch s.io (t := k.loop) none k.event k.fd
  rcases hs.object with ⟨x, hx, hxf, hxt, _⟩
  rw [closeCode]
  refine hi.touched hk hp rfl rfl ?_ htouch ?_ (fun e h => ⟨h, fun _ => rfl⟩) trivial
  · rw [locals_same hk hp _ (.close k.fd .remove) rfl rfl]
    exact hi.neat.pools rfl rfl rfl rfl
  · exact ⟨⟨x, hx, hxf, fun _ => hxt rfl, fun st h => (by cases h)⟩, hs.home,
      fun _ => (Io.getMcoRoutine_setCurMco s.io k.loop none k.loop k.fd).trans (hs.mapped rfl),
      fun _ => hs.tabled rfl, fun _ => hs.active rfl, (fun h => by cases h), ha, rfl, trivial⟩

theorem close_remove (hi : s.Inv) (hk : s.corun c = some k)
    (hp : s.pos c = some (.close fd .remove)) : Keeps (s.closeCode k.loop c i fd .remove) := by
  have hs := hi.serves c k _ hk hp
  rcases hs.fits with ⟨ha, rfl, _⟩
  have htouch := Io.removeMcoRoutine_touch s.io k.loop k.fd k.event
  rcases hs.object with ⟨x, hx, hxf, hxt, _⟩
  rw [closeCode]
  refine hi.touched hk hp rfl rfl ?_ htouch ?_ (fun e h => ⟨h, fun _ => rfl⟩) trivial
  · rw [locals_same hk hp _ (.close k.fd .look) rfl rfl]
    exact hi.neat.pools rfl rfl rfl rfl
  · exact ⟨⟨x, hx, hxf, fun _ => hxt rfl, fun st h => (by cases h)⟩, hs.home, (fun h => by cases h),
      fun _ => hs.tabled rfl, fun _ => hs.active rfl, (fun h => by cases h), ha, rfl, trivial⟩

theorem close_look (hi : s.Inv) (hk : s.corun c = some k)
    (hp : s.pos c = some (.close fd .look)) : Keeps (s.closeCode k.loop c i fd .look) := by
  have hs := hi.serves c k _ hk hp
  rcases hs.fits with ⟨ha, hfd, _⟩
  rw [closeCode, hi.getLoop hk hp]
  exact hi.moved hk hp rfl rfl rfl rfl (fun h => h) rfl (fun h => h) rfl rfl ⟨ha, hfd, rfl⟩ trivial

theorem close_find {l : Tid} (hi : s.Inv) (hk : s.corun c = some k)
    (hp : s.pos c = some (.close fd (.find l))) : Keeps (s.closeCode k.loop c i fd (.find l)) := by
  have hs := hi.serves c k _ hk hp
  rcases hs.fits with ⟨ha, rfl, rfl⟩
  rcases hi.neat.getEvents (hs.tabled rfl) (place c 2) with
    ⟨io', hio', hloop, hpool, hneat, htouch⟩
  rw [closeCode, hio']
  change (s.go c io' (.close k.fd (.ask k.event))).Inv
  have hneat' : io'.Neat (s.go c io' (.close k.fd (.ask k.event))).locals := by
    rw [locals_local hk hp io' (.close k.fd (.ask k.event)) rfl]
    exact hneat
  rcases hi.still hk hp rfl hneat' htouch with ⟨x', hx', ht⟩
  exact hi.kept hk hp rfl rfl hneat' (htouch _ _ _) hpool hloop
    ⟨x', hx', ht, fun st h => (by cases h)⟩ (fun h => h) rfl (fun h => h) ⟨ha, rfl, rfl⟩ trivial

/-- The object of the closed descriptor is marked for deletion. -/
theorem close_ask (hi : s.Inv) (hk : s.corun c = some k)
    (hp : s.pos c = some (.close fd (.ask e))) : Keeps (s.closeCode k.loop c i fd (.ask e)) := by
  have hs := hi.serves c k _ hk hp
  rcases hs.fits with ⟨ha, rfl, rfl⟩
  rcases hs.object with ⟨x, hx, hxf, hxt, _⟩
  rcases hi.neat.modifyEvents hx (fun o => o.setState .DEL) rfl (.inl rfl) with
    ⟨io', hio', hx', hloop, hpool, _, hneat, htouch⟩
  rw [closeCode, hx]
  simp only []
  rw [hxt rfl, hi.getLoop hk hp]
  simp only []
  rw [hio']
  change (s.go c io' (.close k.fd (.tell k.event k.loop))).Inv
  refine hi.kept hk hp rfl rfl ?_ (htouch _ _) hpool hloop ⟨_, hx', hxt rfl, fun st h => ?_⟩
    (fun h => h) rfl (fun h => h) ⟨ha, rfl, rfl, rfl⟩ trivial
  · rw [locals_same hk hp io' (.close k.fd (.tell k.event k.loop)) rfl rfl]
    exact hneat
  · injection h with h

/-- The table forgets the object, which stays as long as the call has it. -/
theorem close_tell {l : Tid} (hi : s.Inv) (hk : s.corun c = some k)
    (hp : s.pos c = some (.close fd (.tell e l))) :
    Keeps (s.closeCode k.loop c i fd (.tell e l)) := by
  have hs := hi.serves c k _ hk hp
  rcases hs.fits with ⟨ha, rfl, rfl, rfl⟩
  rcases hs.object with ⟨x, hx, hxf, hxt, hst⟩
  have hent : s.io.entry k.loop x.obj.fd = some k.event := by
    rw [hxf]
    exact hs.tabled rfl
  rcases hi.neat.updateEvents_del hx (hst _ rfl) hent i.ok with
    ⟨io', hio', hobj, hpool, hentry, hneat, htouch⟩
  rw [hxf] at hentry htouch
  rw [closeCode, hio']
  change (s.go c io' (.close k.fd (.out k.event))).Inv
  -- The call still holds the object.
  have hneat' : io'.Neat (s.go c io' (.close k.fd (.out k.event))).locals := by
    rw [locals_same hk hp io' (.close k.fd (.out k.event)) rfl rfl]
    exact hneat
  rcases bound_live hneat' hk with ⟨z, hz⟩
  refine hi.touched hk hp rfl rfl hneat' htouch ?_ (fun e h => ?_) trivial
  · exact ⟨⟨z, hz, by rw [hobj z hz, hxf], fun _ => by rw [hobj z hz, hxt rfl],
      fun st h => (by cases h)⟩, hs.home, (fun h => by cases h), (fun h => by cases h),
      fun _ => hs.active rfl, (fun h => by cases h), ha, rfl, rfl⟩
  · rw [hentry] at h
    cases h

/-- With it out of the table the pointer is given up. -/
theorem close_out (hi : s.Inv) (hk : s.corun c = some k)
    (hp : s.pos c = some (.close fd (.out e))) : Keeps (s.closeCode k.loop c i fd (.out e)) := by
  have hs := hi.serves c k _ hk hp
  rcases hs.fits with ⟨ha, rfl, rfl⟩
  rcases hs.object with ⟨x, hx, hxf, hxt, _⟩
  have hloc : s.locals (place c 2) = some k.event := by
    rw [locals_event, hp]
    rfl
  rcases hi.neat.release hloc with ⟨io', y, hio', hy, hpool, hloop, hobj, hneat, htouch⟩
  rw [hx] at hy
  injection hy with hy
  rw [← hy, hxf] at htouch
  rw [closeCode, hio']
  change (s.go c io' .finish).Inv
  have hneat' : io'.Neat (s.go c io' .finish).locals := by
    rw [locals_local hk hp io' .finish rfl]
    exact hneat
  rcases bound_live hneat' hk with ⟨z, hz⟩
  exact hi.kept hk hp rfl rfl hneat' (htouch _ _) hpool hloop
    ⟨z, hz, by rw [hobj z hz, ← hy, hxt rfl], fun st h => (by cases h)⟩ (fun h => h) rfl
    (fun h => h) ha trivial

/-- Every call that `close` makes keeps the invariant. -/
theorem closeCode_keeps {q : ClosePos} (hi : s.Inv) (hk : s.corun c = some k)
    (hp : s.pos c = some (.close fd q)) : Keeps (s.closeCode k.loop c i fd q) := by
  cases q with
  | cur => exact close_cur hi hk hp
  | fdmco m => exact close_fdmco hi hk hp
  | clear => exact close_clear hi hk hp
  | remove => exact close_remove hi hk hp
  | look => exact close_look hi hk hp
  | find l => exact close_find hi hk hp
  | ask e => exact close_ask hi hk hp
  | tell e l => exact close_tell hi hk hp
  | out e => exact close_out hi hk hp

end Calls

end TcpSys

end Fasco
