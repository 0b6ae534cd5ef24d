import Fasco.Theory.Hosting
import Fasco.Theory.LiveEvents

/-!
# In Charge of a Descriptor

Every coroutine of the server is in charge of one descriptor: the acceptor of
the listening socket, and the coroutine of a connection of that. From the time
it has been handed over until it closes the descriptor, the pool of its thread
has it for the descriptor and the table of its thread's loop the object it is
bound to. How far it is on this way shows in its position, and `Serves` says
what follows from that. The other way round, everything in the tables but the
loops' own objects belongs to such a coroutine.

No two coroutines are in charge of one descriptor at a time, because the objects
they are bound to are different. So a call that a coroutine makes for its own
descriptor does not concern the others (`Inv.own`), whichever threads they are
on.

## Main definitions

* `Pos.mapped`, `Pos.tabled`, `Pos.current`, `Pos.serving`: How far a coroutine
  is.
* `TcpSys.locals`: The pointers the coroutines hold.
* `TcpSys.Serves`: What holds of a coroutine and its descriptor.
* `TcpSys.Accepts`: What holds of a hand-over.
* `TcpSys.TurnOk`: What holds of a loop's turn.
* `TcpSys.Inv`: The invariant.

## Theorems

* `Core.change`: What a step does to a coroutine and its own descriptor keeps
  the invariant.
* `Inv.own`: So does a call of the coroutine.
* `Inv.moved`: So does a call that only reads.
-/

namespace Fasco

/-! ### Positions -/

namespace ClosePos

/-- The pool still has the coroutine. -/
def mapped : ClosePos → Bool
  | .cur => true
  | .fdmco _ => true
  | .clear => true
  | .remove => true
  | _ => false

/-- It is still the thread's current one. -/
def current : ClosePos → Bool
  | .cur => true
  | .fdmco _ => true
  | .clear => true
  | _ => false

/-- The table still has the object. -/
def tabled : ClosePos → Bool
  | .out _ => false
  | _ => true

/-- The pointer to the object that the call holds. -/
def event : ClosePos → Option EvRef
  | .ask e => some e
  | .tell e _ => some e
  | .out e => some e
  | _ => none

/-- The locals are what they should be for `c`, bound to `k`. -/
def Fits (c : McoRef) (k : Corun) : ClosePos → Prop
  | .fdmco m => m = some c
  | .find l => l = k.loop
  | .ask e => e = k.event
  | .tell e l => e = k.event ∧ l = k.loop
  | .out e => e = k.event
  | _ => True

end ClosePos

namespace Pos

/-- The coroutine executes. -/
def active : Pos → Bool
  | .fresh _ => false
  | .asleep _ _ => false
  | .ended => false
  | _ => true

/-- The parameter of the callback exists. -/
def begun : Pos → Bool
  | .fresh _ => false
  | .start => false
  | .ended => false
  | _ => true

/-- The object has been given the thread it is for. -/
def given : Pos → Bool
  | .fresh .made => false
  | _ => true

/-- The pool of the thread has the coroutine for its descriptor. -/
def mapped : Pos → Bool
  | .fresh .made => false
  | .close _ q => q.mapped
  | .finish => false
  | .ended => false
  | _ => true

/-- The table of the thread's loop has the object for the descriptor. -/
def tabled : Pos → Bool
  | .fresh .registered => true
  | .fresh _ => false
  | .close _ q => q.tabled
  | .finish => false
  | .ended => false
  | _ => true

/-- The coroutine executes and is the thread's current one. -/
def current : Pos → Bool
  | .fresh _ => false
  | .asleep _ _ => false
  | .close _ q => q.current
  | .finish => false
  | .ended => false
  | _ => true

/-- The coroutine has been registered and can be resumed. -/
def waits : Pos → Bool
  | .fresh .registered => true
  | .asleep _ _ => true
  | _ => false

/-- The registration has completed, and `close` has not been called. -/
def serving : Pos → Bool
  | .fresh .registered => true
  | .fresh _ => false
  | .close _ _ => false
  | .finish => false
  | .ended => false
  | _ => true

/-- The pointer to an object in the locals, besides the parameter. -/
def event : Pos → Option EvRef
  | .report _ e _ => some e
  | .tell _ e _ _ => some e
  | .yield _ e => some e
  | .switch _ e _ => some e
  | .asleep _ e => some e
  | .made _ e _ => some e
  | .give _ e _ _ => some e
  | .enter e _ _ => some e
  | .leave e _ => some e
  | .close _ q => q.event
  | _ => none

/-- The state the object is in, where that matters. -/
def state : Pos → Option EventsState
  | .fresh .made => some .NEW
  | .fresh .mapped => some .NEW
  | .tell _ _ _ _ => some .MOD
  | .close _ (.tell _ _) => some .DEL
  | _ => none

/-- The locals are what they should be for `c`, bound to `k`. -/
def Fits (c : McoRef) (k : Corun) : Pos → Prop
  | .check fd mco => fd = k.fd ∧ mco = c
  | .look fd => fd = k.fd
  | .find fd l => fd = k.fd ∧ l = k.loop
  | .alone _ => False
  | .enrol _ _ => False
  | .report fd e r => fd = k.fd ∧ e = k.event ∧ r ≠ .enrol
  | .tell fd e l r => fd = k.fd ∧ e = k.event ∧ l = k.loop ∧ r ≠ .enrol
  | .yield fd e => fd = k.fd ∧ e = k.event
  | .switch fd e mco => fd = k.fd ∧ e = k.event ∧ mco = c
  | .asleep fd e => fd = k.fd ∧ e = k.event
  | .accepted _ => k.accepts = true
  | .made _ _ _ => k.accepts = true
  | .give _ _ _ _ => k.accepts = true
  | .enter _ _ _ => k.accepts = true
  | .leave _ _ => k.accepts = true
  | .close fd q => k.accepts = false ∧ fd = k.fd ∧ q.Fits c k
  | .finish => k.accepts = false
  | .ended => k.accepts = false
  | _ => True

theorem waits_not_active {p : Pos} (h : p.waits = true) : p.active = false := by
  cases p with
  | fresh _ => rfl
  | asleep _ _ => rfl
  | _ => cases h

theorem current_active {p : Pos} (h : p.current = true) : p.active = true := by
  cases p with
  | fresh _ => cases h
  | asleep _ _ => cases h
  | ended => cases h
  | _ => rfl

end Pos

namespace TcpSys

/-! ### Pointers -/

/-- The pointer in the parameter of a callback bound to `k`. -/
def paramOf (k : Corun) (p : Pos) : Option EvRef :=
  if p.begun && !k.accepts then some k.event else none

/-- The `i`th of three places that belong to `c`. -/
def place (c i : Nat) : Nat := 3 * c + i

theorem place_mod {i : Nat} (c : Nat) (hi : i < 3) : place c i % 3 = i := by
  unfold place
  omega

theorem place_div {i : Nat} (c : Nat) (hi : i < 3) : place c i / 3 = c := by
  unfold place
  omega

theorem place_ne {c d i j : Nat} (hi : i < 3) (hj : j < 3) (h : c ≠ d ∨ i ≠ j) :
    place c i ≠ place d j := by
  unfold place
  omega

theorem place_cases (n : Nat) : ∃ c, n = place c 0 ∨ n = place c 1 ∨ n = place c 2 := by
  refine ⟨n / 3, ?_⟩
  unfold place
  omega

/-- The pointers that the callback of each coroutine is bound to, that it has
    as a parameter, and that it holds in a local, in turn. The acceptor's is
    the one the server has. -/
def locals (s : TcpSys) (n : Nat) : Option EvRef :=
  if n % 3 = 0 then (s.corun (n / 3)).map Corun.event
  else if n % 3 = 1 then
    (s.corun (n / 3)).bind (fun k => (s.pos (n / 3)).bind (fun p => paramOf k p))
  else (s.pos (n / 3)).bind Pos.event

theorem locals_bound (s : TcpSys) (c : McoRef) :
    s.locals (place c 0) = (s.corun c).map Corun.event := by
  rw [locals, place_mod c (by decide), place_div c (by decide), if_pos rfl]

theorem locals_param (s : TcpSys) (c : McoRef) :
    s.locals (place c 1)
      = (s.corun c).bind (fun k => (s.pos c).bind (fun p => paramOf k p)) := by
  rw [locals, place_mod c (by decide), place_div c (by decide), if_neg (by decide), if_pos rfl]

theorem locals_event (s : TcpSys) (c : McoRef) :
    s.locals (place c 2) = (s.pos c).bind Pos.event := by
  rw [locals, place_mod c (by decide), place_div c (by decide), if_neg (by decide),
    if_neg (by decide)]

/-- Every place is one of the three of some coroutine. -/
theorem locals_ext {f g : Nat → Option EvRef} (h0 : ∀ c, f (place c 0) = g (place c 0))
    (h1 : ∀ c, f (place c 1) = g (place c 1)) (h2 : ∀ c, f (place c 2) = g (place c 2)) :
    f = g := by
  funext n
  rcases place_cases n with ⟨c, rfl | rfl | rfl⟩
  · exact h0 c
  · exact h1 c
  · exact h2 c

/-- A place of `c`, and the same of another coroutine. -/
theorem update_place {α : Type*} (f : Nat → α) (x : α) (c d : McoRef) {i : Nat} (hi : i < 3) :
    Function.update f (place c i) x (place d i) = if d = c then x else f (place d i) := by
  by_cases hd : d = c
  · rw [if_pos hd, hd, Function.update_self]
  · rw [if_neg hd, Function.update_of_ne (place_ne hi hi (.inl hd))]

/-- The pointers after one coroutine has moved. -/
theorem locals_go {s : TcpSys} {c : McoRef} {k : Corun} (hk : s.corun c = some k) (io : Io)
    (p : Pos) :
    (s.go c io p).locals
      = Function.update (Function.update s.locals (place c 1) (paramOf k p)) (place c 2)
          p.event := by
  have hpos : ∀ d, (s.go c io p).pos d = if d = c then some p else s.pos d :=
    fun d => Function.update_apply _ _ _ _
  apply locals_ext
  · intro d
    rw [Function.update_of_ne (place_ne (by decide) (by decide) (.inr (by decide))),
      Function.update_of_ne (place_ne (by decide) (by decide) (.inr (by decide))), locals_bound,
      locals_bound]
    rfl
  · intro d
    rw [Function.update_of_ne (place_ne (by decide) (by decide) (.inr (by decide))),
      update_place _ _ _ _ (by decide), locals_param, locals_param, hpos]
    by_cases hd : d = c
    · rw [if_pos hd, if_pos hd, hd]
      change (s.corun c).bind _ = _
      rw [hk]
      rfl
    · rw [if_neg hd, if_neg hd]
      rfl
  · intro d
    rw [update_place _ _ _ _ (by decide), locals_event, hpos]
    by_cases hd : d = c
    · rw [if_pos hd, if_pos hd]
      rfl
    · rw [if_neg hd, if_neg hd,
        Function.update_of_ne (place_ne (by decide) (by decide) (.inr (by decide))), locals_event]

section Moves

variable {s : TcpSys} {c : McoRef} {k : Corun} {p : Pos}

/-- A move within the callback changes the pointer in the local only. -/
theorem locals_local (hk : s.corun c = some k) (hp : s.pos c = some p)
    (io : Io) (p' : Pos) (hb : p'.begun = p.begun) :
    (s.go c io p').locals = Function.update s.locals (place c 2) p'.event := by
  have hparam : Function.update s.locals (place c 1) (paramOf k p') = s.locals := by
    rw [paramOf, hb]
    refine Function.update_eq_self_iff.mpr ?_
    rw [locals_param, hk, hp]
    rfl
  rw [locals_go hk, hparam]

/-- A move that keeps the local as it is. -/
theorem locals_same (hk : s.corun c = some k) (hp : s.pos c = some p)
    (io : Io) (p' : Pos) (hb : p'.begun = p.begun) (he : p'.event = p.event) :
    (s.go c io p').locals = s.locals := by
  rw [locals_local hk hp io p' hb, he]
  refine Function.update_eq_self_iff.mpr ?_
  rw [locals_event, hp]
  rfl

/-- The parameter of the callback comes or goes. -/
theorem locals_begun (hk : s.corun c = some k) (hp : s.pos c = some p)
    (io : Io) (p' : Pos) (he : p'.event = p.event) :
    (s.go c io p').locals = Function.update s.locals (place c 1) (paramOf k p') := by
  rw [locals_go hk, he]
  refine Function.update_eq_self_iff.mpr ?_
  rw [Function.update_of_ne (place_ne (by decide) (by decide) (.inr (by decide))), locals_event,
    hp]
  rfl

end Moves

/-! ### The invariant -/

/-- A live coroutine `c`, bound to `k` and at `p`, and its descriptor. -/
structure Serves (s : TcpSys) (c : McoRef) (k : Corun) (p : Pos) : Prop where
  object : ∃ x, s.io.ev k.event = some x ∧ x.obj.fd = k.fd ∧
    (p.given = true → x.obj.tid = k.loop) ∧ ∀ st, p.state = some st → x.obj.state = st
  home : s.loops.loops k.loop = some k.loop
  mapped : p.mapped = true → s.io.getMcoRoutine k.loop k.fd = some c
  tabled : p.tabled = true → s.io.entry k.loop k.fd = some k.event
  active : p.active = true → s.turn k.loop = .inside c
  current : p.current = true → s.io.getCurMco k.loop = some c
  fits : p.Fits c k

/-- Neither a callback nor a loop has the object. -/
def Unowned (s : TcpSys) (e : EvRef) : Prop :=
  (∀ d k, s.corun d = some k → k.event ≠ e) ∧ ∀ t l, s.io.loop t = some l → l.wakeEvent ≠ e

/-- What holds of the connection that is being handed over. -/
def Accepts (s : TcpSys) : Pos → Prop
  | .accepted g => s.io.kern.isOpen g = true ∧ ∀ e x, s.io.ev e = some x → x.obj.fd ≠ g
  | .made g e l => (∃ x, s.io.ev e = some x ∧ x.obj.fd = g ∧ x.obj.state = .NEW) ∧
      s.Unowned e ∧ s.loops.loops l = some l
  | .give g e l co => s.corun co = some { accepts := false, event := e, fd := g, loop := l } ∧
      s.pos co = some (.fresh .made)
  | .enter e l co => ∃ g, s.corun co = some { accepts := false, event := e, fd := g, loop := l } ∧
      s.pos co = some (.fresh .mapped)
  | _ => True

/-- The coroutine that a loop is concerned with is its own, and waits, or
    executes. -/
def TurnOk (s : TcpSys) (t : Tid) : Turn → Prop
  | .found fd => ∃ c k p, s.corun c = some k ∧ s.pos c = some p ∧ p.waits = true ∧ k.loop = t ∧
      k.fd = fd
  | .resume c => ∃ k p, s.corun c = some k ∧ s.pos c = some p ∧ p.waits = true ∧ k.loop = t
  | .enter c => (∃ k p, s.corun c = some k ∧ s.pos c = some p ∧ p.waits = true ∧ k.loop = t) ∧
      s.io.getCurMco t = some c
  | .inside c => ∃ k p, s.corun c = some k ∧ s.pos c = some p ∧ p.active = true ∧ k.loop = t
  | _ => True

/-- The registry has the loops under their tids, and `GetNextLoop` returns one
    once there is a server. -/
structure Registry (s : TcpSys) : Prop where
  loops : ∀ t l, s.loops.loops t = some l → l = t ∧ (s.io.loop t).isSome
  workers : ∀ l, l ∈ s.loops.nextLoops → s.loops.loops l = some l
  main : ∀ l, s.loops.mainLoop = some l → s.loops.loops l = some l
  started : s.server.isSome → s.loops.mainLoop.isSome

/-- The callbacks are bound to different objects, and none to a loop's, and
    there is one server. -/
structure Charges (s : TcpSys) : Prop where
  paired : ∀ c, (s.corun c).isSome = (s.pos c).isSome
  owner : ∀ c d k k', s.corun c = some k → s.corun d = some k' → k.event = k'.event → c = d
  unwoken : ∀ c k t l, s.corun c = some k → s.io.loop t = some l → l.wakeEvent ≠ k.event
  single : ∀ c k, s.corun c = some k → k.accepts = true → s.server = some c

/-- Everything but what is being handed over. -/
structure Core (s : TcpSys) : Prop where
  hookable : s.io.hookable = true
  neat : s.io.Neat s.locals
  hosted : Hosted s.w s.turn s.pos
  registry : s.Registry
  charges : s.Charges
  serves : ∀ c k p, s.corun c = some k → s.pos c = some p → s.Serves c k p
  entered : ∀ t g e, s.io.entry t g = some e → (∃ l, s.io.loop t = some l ∧ l.wakeEvent = e) ∨
    ∃ c k p, s.corun c = some k ∧ s.pos c = some p ∧ k.event = e ∧ k.loop = t ∧ p.tabled = true
  turns : ∀ t, s.TurnOk t (s.turn t)

structure Inv (s : TcpSys) : Prop extends Core s where
  accepts : ∀ c p, s.pos c = some p → s.Accepts p

/-- The step keeps the invariant, if no coroutine operation fails. -/
def Keeps (r : Except Abort TcpSys) : Prop :=
  match r with
  | .ok s => s.Inv
  | .error f => ∃ g, f = .mco g

/-! ### What does not concern a coroutine -/

section Frame

variable {s s' : TcpSys} {c d : McoRef} {k k' : Corun} {p : Pos} {e : EvRef} {t : Tid} {fd : Fd}

theorem Core.pos_of (hi : s.Core) (hk : s.corun c = some k) : ∃ p, s.pos c = some p := by
  have h := hi.charges.paired c
  rw [hk] at h
  exact Option.isSome_iff_exists.mp h.symm

theorem Core.corun_of (hi : s.Core) (hp : s.pos c = some p) : ∃ k, s.corun c = some k := by
  have h := hi.charges.paired c
  rw [hp] at h
  exact Option.isSome_iff_exists.mp h

/-- Two coroutines have different descriptors. -/
theorem Core.fd_ne (hi : s.Core) (hk : s.corun c = some k) (hk' : s.corun d = some k')
    (hcd : d ≠ c) : k'.fd ≠ k.fd := by
  intro hf
  rcases hi.pos_of hk with ⟨p, hp⟩
  rcases hi.pos_of hk' with ⟨q, hq⟩
  rcases (hi.serves c k p hk hp).object with ⟨x, hx, hxf, _⟩
  rcases (hi.serves d k' q hk' hq).object with ⟨y, hy, hyf, _⟩
  exact hcd (hi.charges.owner d c k' k hk' hk (hi.neat.apart _ _ y x hy hx (by rw [hyf, hxf, hf])))

/-- The object that a callback is bound to lives as long as the callback. -/
theorem bound_live {io : Io} (hn : io.Neat s.locals) (hk : s.corun c = some k) :
    ∃ x, io.ev k.event = some x := by
  have hloc : s.locals (place c 0) = some k.event := by
    rw [locals_bound, hk]
    rfl
  rcases hn.tidy.live (k := .call (place c 0)) hloc with ⟨x, hx, _⟩
  exact ⟨x, hx⟩

/-- So does the one in a local. -/
theorem local_live {io : Io} (hn : io.Neat s.locals) (hp : s.pos c = some p)
    (he : p.event = some e) : ∃ x, io.ev e = some x := by
  have hloc : s.locals (place c 2) = some e := by
    rw [locals_event, hp]
    exact he
  rcases hn.tidy.live (k := .call (place c 2)) hloc with ⟨x, hx, _⟩
  exact ⟨x, hx⟩

/-- A change that leaves tables and objects as they are. -/
theorem Serves.still (h : s.Serves c k p) (hl : ∀ e t fd, s.io.Leaves s'.io e t fd)
    (hlive : ∃ x, s'.io.ev k.event = some x) (hreg : s'.loops.loops = s.loops.loops)
    (hturn : ∀ u d, s.turn u = .inside d → s'.turn u = .inside d) : s'.Serves c k p := by
  rcases h.object with ⟨x, hx, hxf, hxt, hst⟩
  rcases hlive with ⟨x', hx'⟩
  rcases Io.Leaves.same (fun e => hl e 0 0) hx hx' with ⟨hf, ht, hs⟩
  have hout : ¬ (k.loop = k.loop + 1 ∧ k.fd = k.fd) := fun h =>
    Nat.ne_of_lt (Nat.lt_succ_self k.loop) h.1
  have hleaves := hl 0 (k.loop + 1) k.fd
  exact ⟨⟨x', hx', hf.trans hxf, fun hg => ht.trans (hxt hg), fun st h => hs.trans (hst st h)⟩,
    (congrFun hreg _).trans h.home, fun hm => (hleaves.map _ _ hout).trans (h.mapped hm),
    fun htab => (hleaves.entry _ _ hout).trans (h.tabled htab), fun ha => hturn _ _ (h.active ha),
    fun hc => (hleaves.cur _ (Nat.ne_of_lt (Nat.lt_succ_self _))).trans (h.current hc), h.fits⟩

theorem go_pos (s : TcpSys) (c : McoRef) (io : Io) (p : Pos) (d : McoRef) :
    (s.go c io p).pos d = if d = c then some p else s.pos d := Function.update_apply _ _ _ _

/-- A turn is about coroutines of its own thread that wait or execute. -/
theorem TurnOk.frame {u : Tid} {r : Turn} (h : s.TurnOk u r)
    (hpos : ∀ d kd q, s.corun d = some kd → s.pos d = some q → kd.loop = u →
      (q.waits = true ∨ q.active = true) → s'.corun d = some kd ∧ s'.pos d = some q)
    (hcur : ∀ d, r = .enter d → s'.io.getCurMco u = s.io.getCurMco u) : s'.TurnOk u r := by
  cases r with
  | idle => trivial
  | after m => trivial
  | found g =>
      rcases h with ⟨d, kd, q, hkd, hq, hqw, hloop, hfd⟩
      have h' := hpos d kd q hkd hq hloop (.inl hqw)
      exact ⟨d, kd, q, h'.1, h'.2, hqw, hloop, hfd⟩
  | resume d =>
      rcases h with ⟨kd, q, hkd, hq, hqw, hloop⟩
      have h' := hpos d kd q hkd hq hloop (.inl hqw)
      exact ⟨kd, q, h'.1, h'.2, hqw, hloop⟩
  | enter d =>
      rcases h with ⟨⟨kd, q, hkd, hq, hqw, hloop⟩, hc⟩
      have h' := hpos d kd q hkd hq hloop (.inl hqw)
      exact ⟨⟨kd, q, h'.1, h'.2, hqw, hloop⟩, (hcur d rfl).trans hc⟩
  | inside d =>
      rcases h with ⟨kd, q, hkd, hq, hqa, hloop⟩
      have h' := hpos d kd q hkd hq hloop (.inr hqa)
      exact ⟨kd, q, h'.1, h'.2, hqa, hloop⟩

theorem setTurn_self (s : TcpSys) (t : Tid) : s.setTurn t (s.turn t) = s := by
  unfold setTurn
  rw [Function.update_eq_self]

/-- Tables in which loops keep their `eventfd`s. -/
theorem wake_back {io io' : Io} (hw : ∀ u, (io'.loop u).map (fun l => (l.wakeFd, l.wakeEvent))
      = (io.loop u).map (fun l => (l.wakeFd, l.wakeEvent))) {u : Tid} {l : EventLoop}
    (hl : io.loop u = some l) : ∃ l', io'.loop u = some l' ∧ l'.wakeEvent = l.wakeEvent := by
  have h := hw u
  rw [hl, Option.map_some] at h
  rcases Option.map_eq_some_iff.mp h with ⟨l', hl', heq⟩
  injection heq with _ hev
  exact ⟨l', hl', hev⟩

/-! ### What concerns one coroutine -/

/-- Another coroutine is bound to another object and has another descriptor. One
    that executes on the thread keeps its turn, by assumption. -/
theorem Core.serves_other (hi : s.Core) (hk : s.corun c = some k) {w' : World} {io' : Io} {p' : Pos}
    {r : Turn} (hneat : io'.Neat (s.go c io' p').locals)
    (hl : s.io.Leaves io' k.event k.loop k.fd) (hd : d ≠ c) {kd : Corun} {q : Pos}
    (hkd : s.corun d = some kd) (hq : s.pos d = some q)
    (hthread : kd.loop = k.loop → q.active = true →
      r = s.turn k.loop ∧ io'.getCurMco k.loop = s.io.getCurMco k.loop) :
    ({ (s.go c io' p').setTurn k.loop r with w := w' } : TcpSys).Serves d kd q := by
  have hs := hi.serves d kd q hkd hq
  have hfd := hi.fd_ne hk hkd hd
  have hne : kd.event ≠ k.event := fun he => hd (hi.charges.owner d c kd k hkd hk he)
  rcases hs.object with ⟨x, hx, hxf, hxt, hst⟩
  rcases bound_live hneat hkd with ⟨x', hx'⟩
  rcases hl.ev _ x x' hx hx' with ⟨hf', hsame⟩
  refine ⟨⟨x', hx', hf'.trans hxf, fun hg => (hsame hne).1.trans (hxt hg),
    fun st h => (hsame hne).2.trans (hst st h)⟩, hs.home,
    fun hm => (hl.map _ _ (fun h => hfd h.2)).trans (hs.mapped hm),
    fun ht => (hl.entry _ _ (fun h => hfd h.2)).trans (hs.tabled ht), fun ha => ?_,
    fun hc => ?_, hs.fits⟩
  · change Function.update s.turn k.loop r kd.loop = _
    by_cases hloop : kd.loop = k.loop
    · rw [hloop, Function.update_self, (hthread hloop ha).1, ← hloop]
      exact hs.active ha
    · rw [Function.update_of_ne hloop]
      exact hs.active ha
  · change io'.getCurMco kd.loop = _
    by_cases hloop : kd.loop = k.loop
    · rw [hloop, (hthread hloop (Pos.current_active hc)).2, ← hloop]
      exact hs.current hc
    · exact (hl.cur _ hloop).trans (hs.current hc)

/-- An entry of a table is an old one, or the one that `c` has just made. -/
theorem Core.entered_after (hi : s.Core) (hk : s.corun c = some k) (hp : s.pos c = some p)
    {io' : Io} {p' : Pos} (hl : s.io.Leaves io' k.event k.loop k.fd)
    (hw : ∀ u, (io'.loop u).map (fun l => (l.wakeFd, l.wakeEvent))
      = (s.io.loop u).map (fun l => (l.wakeFd, l.wakeEvent)))
    (hent : ∀ e, io'.entry k.loop k.fd = some e → (s.io.entry k.loop k.fd = some e ∧
      (p.tabled = true → p'.tabled = true)) ∨ (e = k.event ∧ p'.tabled = true))
    {u : Tid} {g : Fd} (he : io'.entry u g = some e) :
    (∃ l, io'.loop u = some l ∧ l.wakeEvent = e) ∨
      ∃ d kd q, s.corun d = some kd ∧ (s.go c io' p').pos d = some q ∧ kd.event = e ∧
        kd.loop = u ∧ q.tabled = true := by
  have hmine : (s.go c io' p').pos c = some p' := by rw [go_pos, if_pos rfl]
  have hold : s.io.entry u g = some e ∧ (u = k.loop ∧ g = k.fd → p.tabled = true →
      p'.tabled = true) ∨ (u = k.loop ∧ e = k.event ∧ p'.tabled = true) := by
    by_cases hug : u = k.loop ∧ g = k.fd
    · have he' : io'.entry k.loop k.fd = some e := by
        rw [← hug.1, ← hug.2]
        exact he
      rcases hent e he' with ⟨h1, h2⟩ | ⟨h1, h2⟩
      · exact .inl ⟨by rw [hug.1, hug.2]; exact h1, fun _ => h2⟩
      · exact .inr ⟨hug.1, h1, h2⟩
    · exact .inl ⟨(hl.entry u g hug).symm.trans he, fun h => absurd h hug⟩
  rcases hold with ⟨hold, htab⟩ | ⟨hu, heq, htab⟩
  · rcases hi.entered u g e hold with ⟨l, hul, hle⟩ | ⟨d, kd, q, hkd, hq, hke, hloop, htabq⟩
    · rcases wake_back hw hul with ⟨l', hl', hev⟩
      exact .inl ⟨l', hl', hev.trans hle⟩
    · right
      by_cases hd : d = c
      · rw [hd] at hkd hq
        rw [hk] at hkd
        injection hkd with hkd
        rw [hp] at hq
        injection hq with hq
        rw [← hkd] at hke hloop
        refine ⟨c, k, p', hk, hmine, hke, hloop, htab ⟨hloop.symm, ?_⟩ (by rw [hq]; exact htabq)⟩
        -- The object is under its own descriptor.
        rcases (hi.serves c k p hk hp).object with ⟨x, hx, hf, _⟩
        rw [← hke] at hold
        exact ((hi.neat.entry_of hx hold).1.symm.trans hf)
      · exact ⟨d, kd, q, hkd, by rw [go_pos, if_neg hd, hq], hke, hloop, htabq⟩
  · exact .inr ⟨c, k, p', hk, hmine, heq.symm, hu.symm, htab⟩

/-- The coroutine `c` goes from `p` to `p'`, and the turn of its thread to `r`,
    with a change that leaves everything but its own descriptor alone. -/
theorem Core.change (hi : s.Core) (hk : s.corun c = some k) (hp : s.pos c = some p)
    (w' : World) (io' : Io) (p' : Pos) (r : Turn) (hneat : io'.Neat (s.go c io' p').locals)
    (hosted : Hosted w' (Function.update s.turn k.loop r) (Function.update s.pos c (some p')))
    (hl : s.io.Leaves io' k.event k.loop k.fd) (hh : io'.hookable = s.io.hookable)
    (hw : ∀ u, (io'.loop u).map (fun l => (l.wakeFd, l.wakeEvent))
      = (s.io.loop u).map (fun l => (l.wakeFd, l.wakeEvent)))
    (hself : ({ (s.go c io' p').setTurn k.loop r with w := w' } : TcpSys).Serves c k p')
    (hent : ∀ e, io'.entry k.loop k.fd = some e → (s.io.entry k.loop k.fd = some e ∧
      (p.tabled = true → p'.tabled = true)) ∨ (e = k.event ∧ p'.tabled = true))
    (hothers : ∀ d kd q, d ≠ c → s.corun d = some kd → s.pos d = some q → kd.loop = k.loop →
      q.active = true → r = s.turn k.loop ∧ io'.getCurMco k.loop = s.io.getCurMco k.loop)
    (hturn : ({ (s.go c io' p').setTurn k.loop r with w := w' } : TcpSys).TurnOk k.loop r) :
    ({ (s.go c io' p').setTurn k.loop r with w := w' } : TcpSys).Core := by
  -- No loop comes or goes.
  have hsome : ∀ u, (io'.loop u).isSome = (s.io.loop u).isSome := by
    intro u
    rw [← Option.isSome_map, hw u, Option.isSome_map]
  refine ⟨hh.trans hi.hookable, hneat, hosted, ?_, ?_, fun d kd q hkd hq => ?_,
    fun u g e he => hi.entered_after hk hp hl hw hent he, fun u => ?_⟩
  · exact ⟨fun u l hul => ⟨(hi.registry.loops u l hul).1,
      (hsome u).trans (hi.registry.loops u l hul).2⟩, hi.registry.workers, hi.registry.main,
      hi.registry.started⟩
  · refine ⟨fun d => ?_, hi.charges.owner, fun d kd u l hd hul => ?_, hi.charges.single⟩
    · change (s.corun d).isSome = ((s.go c io' p').pos d).isSome
      rw [go_pos]
      by_cases hd : d = c
      · rw [if_pos hd, hd, hk]
        rfl
      · rw [if_neg hd]
        exact hi.charges.paired d
    · rcases wake_back (fun u => (hw u).symm) hul with ⟨l0, hl0, hev⟩
      rw [← hev]
      exact hi.charges.unwoken d kd u l0 hd hl0
  · have hkd' : s.corun d = some kd := hkd
    have hq' : (s.go c io' p').pos d = some q := hq
    rw [go_pos] at hq'
    by_cases hd : d = c
    · rw [if_pos hd] at hq'
      injection hq' with hq'
      rw [hd, hk] at hkd'
      injection hkd' with hkd'
      rw [hd, ← hq', ← hkd']
      exact hself
    · rw [if_neg hd] at hq'
      exact hi.serves_other hk hneat hl hd hkd' hq' (hothers d kd q hd hkd' hq')
  · by_cases hu : u = k.loop
    · rw [hu]
      change TurnOk _ k.loop (Function.update s.turn k.loop r k.loop)
      rw [Function.update_self]
      exact hturn
    · change TurnOk _ u (Function.update s.turn k.loop r u)
      rw [Function.update_of_ne hu]
      -- The turn of another thread is not about `c`, which is on this one.
      refine (hi.turns u).frame (fun d kd q hkd hq hloop _ => ⟨hkd, ?_⟩) (fun _ _ => hl.cur u hu)
      change (s.go c io' p').pos d = some q
      rw [go_pos, if_neg]
      · exact hq
      · rintro rfl
        rw [hk] at hkd
        injection hkd with hkd
        exact hu (by rw [← hloop, hkd])

/-- On one thread only one coroutine executes. -/
theorem Core.alone (hi : s.Core) (hk : s.corun c = some k) (hp : s.pos c = some p)
    (ha : p.active = true) {q : Pos} (hd : d ≠ c) (hk' : s.corun d = some k')
    (hq : s.pos d = some q) (hloop : k'.loop = k.loop) : q.active = false := by
  refine Bool.eq_false_iff.mpr (fun hqa => hd ?_)
  have hin := (hi.serves d k' q hk' hq).active hqa
  rw [hloop, (hi.serves c k p hk hp).active ha] at hin
  injection hin with hin
  exact hin.symm

/-- A call of the coroutine `c`, after which it is at `p'`, that leaves
    everything but its own descriptor alone. -/
theorem Core.own (hi : s.Core) (hk : s.corun c = some k) (hp : s.pos c = some p)
    (ha : p.active = true) {io' : Io} {p' : Pos} (ha' : p'.active = true)
    (hneat : io'.Neat (s.go c io' p').locals) (hl : s.io.Leaves io' k.event k.loop k.fd)
    (hh : io'.hookable = s.io.hookable)
    (hw : ∀ u, (io'.loop u).map (fun l => (l.wakeFd, l.wakeEvent))
      = (s.io.loop u).map (fun l => (l.wakeFd, l.wakeEvent)))
    (hself : (s.go c io' p').Serves c k p')
    (hent : ∀ e, io'.entry k.loop k.fd = some e → s.io.entry k.loop k.fd = some e ∧
      (p.tabled = true → p'.tabled = true)) : (s.go c io' p').Core := by
  have hturn := (hi.serves c k p hk hp).active ha
  -- The turn stays as it is.
  have hst : ({ (s.go c io' p').setTurn k.loop (s.turn k.loop) with w := s.w } : TcpSys)
      = s.go c io' p' := setTurn_self (s.go c io' p') k.loop
  rw [← hst] at hself ⊢
  refine hi.change hk hp s.w io' p' _ hneat ?_ hl hh hw hself (fun e h => .inl (hent e h))
    (fun d kd q hd hkd hq hloop hqa => ?_) ?_
  · rw [Function.update_eq_self]
    exact hi.hosted.move hp (by rintro rfl; cases ha) p'
  · rw [hi.alone hk hp ha hd hkd hq hloop] at hqa
    cases hqa
  · rw [hturn]
    exact ⟨k, p', hk, by
      change (s.go c io' p').pos c = some p'
      rw [go_pos, if_pos rfl], ha', rfl⟩

/-- A call of `c` that leaves the tables and the pools as they are. -/
theorem Core.kept (hi : s.Core) (hk : s.corun c = some k) (hp : s.pos c = some p)
    (ha : p.active = true) (io' : Io) (p' : Pos) (ha' : p'.active = true)
    (hneat : io'.Neat (s.go c io' p').locals) (hl : s.io.Leaves io' k.event k.loop k.fd)
    (hh : io'.hookable = s.io.hookable) (hpool : io'.pool = s.io.pool)
    (hloop : io'.loop = s.io.loop)
    (hobj : ∃ x', io'.ev k.event = some x' ∧ x'.obj.tid = k.loop ∧
      ∀ st, p'.state = some st → x'.obj.state = st)
    (hm : p'.mapped = true → p.mapped = true) (htab : p'.tabled = p.tabled)
    (hc : p'.current = true → p.current = true) (hf : p'.Fits c k) : (s.go c io' p').Core := by
  have hs := hi.serves c k p hk hp
  have hent : ∀ u g, io'.entry u g = s.io.entry u g := by
    intro u g
    rw [Io.entry, Io.entry, hloop]
  refine hi.own hk hp ha ha' hneat hl hh (fun u => by rw [hloop]) ?_
    (fun e h => ⟨(hent _ _).symm.trans h, fun h => htab.trans h⟩)
  rcases hobj with ⟨x', hx', hxt, hst⟩
  rcases hs.object with ⟨x, hx, hxf, _⟩
  refine ⟨⟨x', hx', (hl.ev _ x x' hx hx').1.trans hxf, fun _ => hxt, hst⟩, hs.home, fun h => ?_,
    fun h => ?_, fun _ => hs.active ha, fun h => ?_, hf⟩
  · change (io'.pool k.loop).fdMcos k.fd = some c
    rw [hpool]
    exact hs.mapped (hm h)
  · exact (hent _ _).trans (hs.tabled (htab.symm.trans h))
  · change (io'.pool k.loop).cur = some c
    rw [hpool]
    exact hs.current (hc h)

/-- A call of `c` that only reads. -/
theorem Core.moved (hi : s.Core) (hk : s.corun c = some k) (hp : s.pos c = some p)
    (ha : p.active = true) (p' : Pos) (ha' : p'.active = true) (hb : p'.begun = p.begun)
    (he : p'.event = p.event) (hm : p'.mapped = true → p.mapped = true)
    (ht : p'.tabled = p.tabled) (hc : p'.current = true → p.current = true)
    (hg : p.given = true) (hst : p'.state = none) (hf : p'.Fits c k) :
    (s.go c s.io p').Core := by
  -- The pointers stay where they are.
  rcases (hi.serves c k p hk hp).object with ⟨x, hx, _, hxt, _⟩
  refine hi.kept hk hp ha s.io p' ha' ?_ (Io.Touch.refl _ _ _ _).leaves rfl rfl rfl
    ⟨x, hx, hxt hg, fun st h => by rw [hst] at h; cases h⟩ hm ht hc hf
  rw [locals_same hk hp s.io p' hb he]
  exact hi.neat

/-! ### What is being handed over -/

/-- What is being handed over is not touched by a change that concerns another
    object and another descriptor. -/
theorem Accepts.frame {q : Pos} (h : s.Accepts q) (ht : s.io.Touch s'.io e t fd)
    (hopen : ∀ g, q = .accepted g → g ≠ fd)
    (hmade : ∀ g r l, q = .made g r l → r ≠ e ∧ (s'.io.ev r).isSome)
    (hcorun : s'.corun = s.corun) (hloops : s'.loops.loops = s.loops.loops)
    (hpos : ∀ m h, h ≠ .registered → s.pos m = some (.fresh h) → s'.pos m = some (.fresh h)) :
    s'.Accepts q := by
  cases q with
  | accepted g =>
      refine ⟨?_, fun r x' hx' => ?_⟩
      -- Its descriptor is no object's, so none goes that would close it.
      · rcases ht.isOpen g h.1 with hg | ⟨hg, _⟩
        · exact hg
        · exact absurd hg (hopen g rfl)
      · rcases ht.ev r x' hx' with ⟨x, hx, hf, _⟩
        rw [hf]
        exact h.2 r x hx
  | made g r l =>
      rcases h with ⟨⟨x, hx, hf, hst⟩, hun, hl⟩
      rcases hmade g r l rfl with ⟨hre, hlive⟩
      rcases Option.isSome_iff_exists.mp hlive with ⟨x', hx'⟩
      rcases ht.ev r x' hx' with ⟨y, hy, hf', hs⟩
      rw [hx] at hy
      injection hy with hy
      rw [← hy] at hf' hs
      refine ⟨⟨x', hx', hf'.trans hf, (hs hre).2.trans hst⟩, ⟨?_, fun u l' hl' => ?_⟩, ?_⟩
      · rw [hcorun]
        exact hun.1
      · rcases ht.wakeEvent hl' with ⟨l0, hl0, hev, _⟩
        rw [← hev]
        exact hun.2 u l0 hl0
      · rw [hloops]
        exact hl
  | give g r l co => exact ⟨by rw [hcorun]; exact h.1, hpos co .made (fun h => by cases h) h.2⟩
  | enter r l co =>
      rcases h with ⟨g, hco, hfr⟩
      exact ⟨g, by rw [hcorun]; exact hco, hpos co .mapped (fun h => by cases h) hfr⟩
  | _ => trivial

/-- Nor by one that changes no object. -/
theorem Accepts.still {q : Pos} (h : s.Accepts q) (ht : ∀ e t fd, s.io.Touch s'.io e t fd)
    (hlive : ∀ g r l, q = .made g r l → (s'.io.ev r).isSome) (hcorun : s'.corun = s.corun)
    (hloops : s'.loops.loops = s.loops.loops)
    (hpos : ∀ m h, h ≠ .registered → s.pos m = some (.fresh h) → s'.pos m = some (.fresh h)) :
    s'.Accepts q := by
  cases q with
  | accepted g =>
      refine h.frame (ht 0 0 (g + 1)) (fun g' hg => ?_) (fun _ _ _ h => by cases h) hcorun hloops
        hpos
      injection hg with hg
      rw [hg]
      exact Nat.ne_of_lt (Nat.lt_succ_self g')
  | made g r l =>
      refine h.frame (ht (r + 1) 0 0) (fun _ h => by cases h) (fun g' r' l' hr => ?_) hcorun hloops
        hpos
      have hlive' := hlive g' r' l' hr
      injection hr with _ hr _
      exact ⟨by rw [← hr]; exact Nat.ne_of_lt (Nat.lt_succ_self r), hlive'⟩
  | _ =>
      exact h.frame (ht 0 0 0) (fun _ h => by cases h) (fun _ _ _ h => by cases h) hcorun hloops
        hpos

/-- A call for the descriptor of `c` does not touch what another coroutine is
    handing over. -/
theorem Inv.accepts_touch (hi : s.Inv) (hk : s.corun c = some k) (hp : s.pos c = some p)
    (ha : p.active = true) {io' : Io} {p' : Pos} (hneat : io'.Neat (s.go c io' p').locals)
    (ht : s.io.Touch io' k.event k.loop k.fd) {q : Pos} (hdc : d ≠ c) (hq : s.pos d = some q) :
    (s.go c io' p').Accepts q := by
  have hold := hi.accepts d q hq
  refine hold.frame ht (fun g hg => ?_) (fun g r l hr => ?_) rfl rfl (fun m h _ hm => ?_)
  -- `c` has its object still, so the new descriptor is another.
  · rcases (hi.serves c k p hk hp).object with ⟨x, hx, hf, _⟩
    rw [hg] at hold
    rintro rfl
    exact hold.2 k.event x hx hf
  · have hlive := local_live (s := s.go c io' p') (c := d) hneat
      (by rw [go_pos, if_neg hdc]; exact hq) (e := r) (by rw [hr]; rfl)
    rw [hr] at hold
    exact ⟨fun h => hold.2.1.1 c k hk h.symm, Option.isSome_iff_exists.mpr hlive⟩
  · rw [go_pos, if_neg]
    · exact hm
    · rintro rfl
      rw [hp] at hm
      injection hm with hm
      rw [hm] at ha
      cases ha

theorem Inv.accepts_go (hi : s.Inv) (hk : s.corun c = some k) (hp : s.pos c = some p)
    (ha : p.active = true) {io' : Io} {p' : Pos} (hneat : io'.Neat (s.go c io' p').locals)
    (ht : s.io.Touch io' k.event k.loop k.fd) (hacc : (s.go c io' p').Accepts p') (d : McoRef)
    (q : Pos) (hq : (s.go c io' p').pos d = some q) : (s.go c io' p').Accepts q := by
  rw [go_pos] at hq
  by_cases hd : d = c
  · rw [if_pos hd] at hq
    injection hq with hq
    rw [← hq]
    exact hacc
  · rw [if_neg hd] at hq
    exact hi.accepts_touch hk hp ha hneat ht hd hq

/-- A call of `c` that changes something about its own descriptor. -/
theorem Inv.touched (hi : s.Inv) (hk : s.corun c = some k) (hp : s.pos c = some p)
    (ha : p.active = true) {io' : Io} {p' : Pos} (ha' : p'.active = true)
    (hneat : io'.Neat (s.go c io' p').locals) (ht : s.io.Touch io' k.event k.loop k.fd)
    (hself : (s.go c io' p').Serves c k p')
    (hent : ∀ e, io'.entry k.loop k.fd = some e → s.io.entry k.loop k.fd = some e ∧
      (p.tabled = true → p'.tabled = true))
    (hacc : (s.go c io' p').Accepts p') : (s.go c io' p').Inv :=
  ⟨hi.toCore.own hk hp ha ha' hneat ht.leaves ht.hookable ht.wake hself hent,
    hi.accepts_go hk hp ha hneat ht hacc⟩

/-- A call of `c` that leaves the tables and the pools as they are. -/
theorem Inv.kept (hi : s.Inv) (hk : s.corun c = some k) (hp : s.pos c = some p)
    (ha : p.active = true) {io' : Io} {p' : Pos} (ha' : p'.active = true)
    (hneat : io'.Neat (s.go c io' p').locals) (ht : s.io.Touch io' k.event k.loop k.fd)
    (hpool : io'.pool = s.io.pool) (hloop : io'.loop = s.io.loop)
    (hobj : ∃ x', io'.ev k.event = some x' ∧ x'.obj.tid = k.loop ∧
      ∀ st, p'.state = some st → x'.obj.state = st)
    (hm : p'.mapped = true → p.mapped = true) (htab : p'.tabled = p.tabled)
    (hc : p'.current = true → p.current = true) (hf : p'.Fits c k)
    (hacc : (s.go c io' p').Accepts p') : (s.go c io' p').Inv :=
  ⟨hi.toCore.kept hk hp ha io' p' ha' hneat ht.leaves ht.hookable hpool hloop hobj hm htab hc hf,
    hi.accepts_go hk hp ha hneat ht hacc⟩

/-- A call of `c` that only reads. -/
theorem Inv.moved (hi : s.Inv) (hk : s.corun c = some k) (hp : s.pos c = some p)
    (ha : p.active = true) {p' : Pos} (ha' : p'.active = true) (hb : p'.begun = p.begun)
    (he : p'.event = p.event) (hm : p'.mapped = true → p.mapped = true)
    (ht : p'.tabled = p.tabled) (hc : p'.current = true → p.current = true)
    (hg : p.given = true) (hst : p'.state = none) (hf : p'.Fits c k)
    (hacc : (s.go c s.io p').Accepts p') : Keeps (.ok (s.go c s.io p')) := by
  refine ⟨hi.toCore.moved hk hp ha p' ha' hb he hm ht hc hg hst hf,
    hi.accepts_go hk hp ha ?_ (.refl _ _ _ _) hacc⟩
  rw [locals_same hk hp s.io p' hb he]
  exact hi.neat

end Frame

end TcpSys

end Fasco
