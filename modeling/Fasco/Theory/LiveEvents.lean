import Fasco.Core.TcpServer
import Fasco.Theory.Closing

/-!
# One Object for Each Descriptor

Between two calls of the hooks, as `Core.TcpServer` sees them, the `Events`
objects and the kernel's descriptors agree: every object has an open descriptor,
and no two have the same. A descriptor is closed when its object goes, so that
a number the kernel gives out again is the number of no object, and is in no
table. With the counted pointers of `Tidy` this is `Io.Neat`.

Each call that a coroutine makes for the descriptor it is in charge of returns,
keeps `Neat`, and leaves everything else alone. `Touch` says what that is: the
other objects but for their counts, the other descriptors' entries in the tables
and the pools, and the current coroutines of the other threads.

## Main definitions

* `Io.Neat`: Every object has an open descriptor of its own.
* `Io.Touch`: What one call may change.

## Theorems

* `Neat.touch`: A change that keeps the pointers in order keeps the rest.
* `Neat.share`, `Neat.release`, `Neat.modifyEvents`: The pointers to an object.
* `Neat.newEvents`, `Neat.openFd`: A new object, and a new descriptor.
* `Neat.updateEvents_new`, `Neat.updateEvents_mod`, `Neat.updateEvents_del`: The
  table and the loop.
* `Neat.loopFind`: What the loop does with a report.
-/

namespace Fasco

namespace Io

/-- Pointers are counted and tables in order, every object has an open
    descriptor, which no other object has, and the loops have theirs. -/
structure Neat (s : Io) (loc : McoRef → Option EvRef) : Prop where
  tidy : s.Tidy loc
  opened : ∀ e x, s.ev e = some x → s.kern.isOpen x.obj.fd = true
  apart : ∀ e d x y, s.ev e = some x → s.ev d = some y → x.obj.fd = y.obj.fd → e = d
  wake : ∀ t l, s.loop t = some l → ∃ x, s.ev l.wakeEvent = some x ∧ x.obj.fd = l.wakeFd

/-- Apart from counts and masks, nothing of the objects and tables has changed
    but the object `e`, the descriptor `fd` in the tables of thread `t`, and
    `t`'s current coroutine. There may be new objects, and the kernel may have
    changed. -/
structure Leaves (s s' : Io) (e : EvRef) (t : Tid) (fd : Fd) : Prop where
  ev : ∀ d x x', s.ev d = some x → s'.ev d = some x' → x'.obj.fd = x.obj.fd ∧
    (d ≠ e → x'.obj.tid = x.obj.tid ∧ x'.obj.state = x.obj.state)
  map : ∀ u g, ¬ (u = t ∧ g = fd) → s'.getMcoRoutine u g = s.getMcoRoutine u g
  cur : ∀ u, u ≠ t → s'.getCurMco u = s.getCurMco u
  entry : ∀ u g, ¬ (u = t ∧ g = fd) → s'.entry u g = s.entry u g

/-- Besides, no object is new, and if a descriptor has been closed it is `fd`,
    and no object has it. -/
structure Touch (s s' : Io) (e : EvRef) (t : Tid) (fd : Fd) : Prop where
  ev : ∀ d x', s'.ev d = some x' → ∃ x, s.ev d = some x ∧ x'.obj.fd = x.obj.fd ∧
    (d ≠ e → x'.obj.tid = x.obj.tid ∧ x'.obj.state = x.obj.state)
  map : ∀ u g, ¬ (u = t ∧ g = fd) → s'.getMcoRoutine u g = s.getMcoRoutine u g
  cur : ∀ u, u ≠ t → s'.getCurMco u = s.getCurMco u
  entry : ∀ u g, ¬ (u = t ∧ g = fd) → s'.entry u g = s.entry u g
  wake : ∀ u, (s'.loop u).map (fun l => (l.wakeFd, l.wakeEvent))
    = (s.loop u).map (fun l => (l.wakeFd, l.wakeEvent))
  isOpen : ∀ g, s.kern.isOpen g = true → s'.kern.isOpen g = true ∨
    (g = fd ∧ ∀ d x', s'.ev d = some x' → x'.obj.fd ≠ g)
  hookable : s'.hookable = s.hookable

variable {s s' s'' : Io} {loc loc' : McoRef → Option EvRef} {e : EvRef} {t : Tid} {fd : Fd}

namespace Touch

theorem refl (s : Io) (e : EvRef) (t : Tid) (fd : Fd) : Touch s s e t fd where
  ev := fun _ x' h => ⟨x', h, rfl, fun _ => ⟨rfl, rfl⟩⟩
  map := fun _ _ _ => rfl
  cur := fun _ _ => rfl
  entry := fun _ _ _ => rfl
  wake := fun _ => rfl
  isOpen := fun _ h => .inl h
  hookable := rfl

theorem leaves (h : Touch s s' e t fd) : Leaves s s' e t fd where
  ev := by
    intro d x x' hx hx'
    rcases h.ev d x' hx' with ⟨y, hy, hf, hs⟩
    rw [hx] at hy
    injection hy with hy
    rw [hy]
    exact ⟨hf, hs⟩
  map := h.map
  cur := h.cur
  entry := h.entry

theorem trans (h1 : Touch s s' e t fd) (h2 : Touch s' s'' e t fd) : Touch s s'' e t fd where
  ev := by
    intro d x'' hx''
    rcases h2.ev d x'' hx'' with ⟨x', hx', hf', hs'⟩
    rcases h1.ev d x' hx' with ⟨x, hx, hf, hs⟩
    exact ⟨x, hx, hf'.trans hf, fun hd =>
      ⟨(hs' hd).1.trans (hs hd).1, (hs' hd).2.trans (hs hd).2⟩⟩
  map := fun u g h => (h2.map u g h).trans (h1.map u g h)
  cur := fun u h => (h2.cur u h).trans (h1.cur u h)
  entry := fun u g h => (h2.entry u g h).trans (h1.entry u g h)
  wake := fun u => (h2.wake u).trans (h1.wake u)
  isOpen := by
    intro g hg
    rcases h1.isOpen g hg with hg1 | ⟨hg1, hno⟩
    · exact h2.isOpen g hg1
    · refine .inr ⟨hg1, fun d x'' hx'' => ?_⟩
      rcases h2.ev d x'' hx'' with ⟨x', hx', hf', _⟩
      rw [hf']
      exact hno d x' hx'
  hookable := h2.hookable.trans h1.hookable

/-- Only the pools have changed, and of these only the one of `t`, for `fd`. -/
theorem pools (hl : s'.loop = s.loop) (he : s'.ev = s.ev) (hk : s'.kern = s.kern)
    (hh : s'.hookable = s.hookable)
    (hmap : ∀ u g, ¬ (u = t ∧ g = fd) → s'.getMcoRoutine u g = s.getMcoRoutine u g)
    (hcur : ∀ u, u ≠ t → s'.getCurMco u = s.getCurMco u) : Touch s s' e t fd where
  ev := fun _ x' h => ⟨x', by rw [← he]; exact h, rfl, fun _ => ⟨rfl, rfl⟩⟩
  map := hmap
  cur := hcur
  entry := fun u g _ => by rw [Io.entry, Io.entry, hl]
  wake := fun _ => by rw [hl]
  isOpen := fun _ h => .inl (by rw [hk]; exact h)
  hookable := hh

theorem wakeEvent (h : Touch s s' e t fd) {u : Tid} {l' : EventLoop} (hl : s'.loop u = some l') :
    ∃ l, s.loop u = some l ∧ l.wakeEvent = l'.wakeEvent ∧ l.wakeFd = l'.wakeFd := by
  have hw := h.wake u
  rw [hl, Option.map_some] at hw
  rcases Option.map_eq_some_iff.mp hw.symm with ⟨l, hl0, heq⟩
  injection heq with hfd hev
  exact ⟨l, hl0, hev, hfd⟩

end Touch

/-- If it does not matter which object it is about, all have kept theirs. -/
theorem Leaves.same {d : EvRef} {x x' : EventsCell} (h : ∀ e, Leaves s s' e t fd)
    (hx : s.ev d = some x) (hx' : s'.ev d = some x') :
    x'.obj.fd = x.obj.fd ∧ x'.obj.tid = x.obj.tid ∧ x'.obj.state = x.obj.state :=
  have hd := (h (d + 1)).ev d x x' hx hx'
  ⟨hd.1, hd.2 (Nat.ne_of_lt (Nat.lt_succ_self d))⟩

/-- The tables and the pools have not changed, nor descriptor, thread and state
    of any object. -/
theorem Leaves.of_tables (hp : s'.pool = s.pool) (hl : s'.loop = s.loop)
    (hev : ∀ d x x', s.ev d = some x → s'.ev d = some x' →
      x'.obj.fd = x.obj.fd ∧ x'.obj.tid = x.obj.tid ∧ x'.obj.state = x.obj.state)
    (e : EvRef) (t : Tid) (fd : Fd) : Leaves s s' e t fd where
  ev := fun d x x' hx hx' => ⟨(hev d x x' hx hx').1, fun _ => (hev d x x' hx hx').2⟩
  map := fun u g _ => by rw [getMcoRoutine, getMcoRoutine, hp]
  cur := fun u _ => by rw [getCurMco, getCurMco, hp]
  entry := fun u g _ => by rw [Io.entry, Io.entry, hl]

/-! ### Pools -/

/-- One entry of a thread's map is set or cleared. -/
theorem fdMcos_update (p : Tid → McoPool) (t : Tid) (fd : Fd) (x : Option McoRef) (u : Tid)
    (g : Fd) :
    (Function.update p t { p t with fdMcos := Function.update (p t).fdMcos fd x } u).fdMcos g
      = if u = t ∧ g = fd then x else (p u).fdMcos g := by
  by_cases hu : u = t
  · rw [hu, Function.update_self]
    by_cases hg : g = fd
    · rw [if_pos ⟨rfl, hg⟩, hg]
      exact Function.update_self _ _ _
    · rw [if_neg (fun h => hg h.2)]
      exact Function.update_of_ne hg _ _
  · rw [if_neg (fun h => hu h.1), Function.update_of_ne hu]

/-- The current coroutine does not depend on the map. -/
theorem cur_update (p : Tid → McoPool) (t : Tid) (m : Fd → Option McoRef) (u : Tid) :
    (Function.update p t { p t with fdMcos := m } u).cur = (p u).cur := by
  by_cases hu : u = t
  · rw [hu, Function.update_self]
  · rw [Function.update_of_ne hu]

theorem getMcoRoutine_setMcoRoutine (s : Io) (t : Tid) (fd : Fd) (c : McoRef) (u : Tid) (g : Fd) :
    (s.setMcoRoutine t fd c).getMcoRoutine u g
      = if u = t ∧ g = fd then some c else s.getMcoRoutine u g :=
  fdMcos_update s.pool t fd (some c) u g

theorem getMcoRoutine_removeMcoRoutine (s : Io) (t : Tid) (fd : Fd) (u : Tid) (g : Fd) :
    (s.removeMcoRoutine t fd).getMcoRoutine u g
      = if u = t ∧ g = fd then none else s.getMcoRoutine u g :=
  fdMcos_update s.pool t fd none u g

theorem getMcoRoutine_setCurMco (s : Io) (t : Tid) (c : Option McoRef) (u : Tid) (g : Fd) :
    (s.setCurMco t c).getMcoRoutine u g = s.getMcoRoutine u g := by
  simp only [getMcoRoutine, setCurMco]
  by_cases hu : u = t
  · rw [hu, Function.update_self]
  · rw [Function.update_of_ne hu]

theorem getCurMco_setMcoRoutine (s : Io) (t : Tid) (fd : Fd) (c : McoRef) (u : Tid) :
    (s.setMcoRoutine t fd c).getCurMco u = s.getCurMco u :=
  cur_update s.pool t _ u

theorem getCurMco_removeMcoRoutine (s : Io) (t : Tid) (fd : Fd) (u : Tid) :
    (s.removeMcoRoutine t fd).getCurMco u = s.getCurMco u :=
  cur_update s.pool t _ u

theorem getCurMco_setCurMco (s : Io) (t : Tid) (c : Option McoRef) (u : Tid) :
    (s.setCurMco t c).getCurMco u = if u = t then c else s.getCurMco u := by
  simp only [getCurMco, setCurMco]
  by_cases hu : u = t
  · rw [if_pos hu, hu, Function.update_self]
  · rw [if_neg hu, Function.update_of_ne hu]

theorem setMcoRoutine_touch (s : Io) (t : Tid) (fd : Fd) (c : McoRef) (e : EvRef) :
    Touch s (s.setMcoRoutine t fd c) e t fd :=
  .pools rfl rfl rfl rfl (fun u g h => by rw [getMcoRoutine_setMcoRoutine, if_neg h])
    (fun u _ => getCurMco_setMcoRoutine s t fd c u)

theorem removeMcoRoutine_touch (s : Io) (t : Tid) (fd : Fd) (e : EvRef) :
    Touch s (s.removeMcoRoutine t fd) e t fd :=
  .pools rfl rfl rfl rfl (fun u g h => by rw [getMcoRoutine_removeMcoRoutine, if_neg h])
    (fun u _ => getCurMco_removeMcoRoutine s t fd u)

theorem setCurMco_touch (s : Io) (c : Option McoRef) (e : EvRef) (fd : Fd) :
    Touch s (s.setCurMco t c) e t fd :=
  .pools rfl rfl rfl rfl (fun u g _ => getMcoRoutine_setCurMco s t c u g)
    (fun u h => by rw [getCurMco_setCurMco, if_neg h])

namespace Neat

/-- There is nothing yet. -/
theorem empty (hl : ∀ t, s.loop t = none) (he : ∀ e, s.ev e = none) (hloc : ∀ n, loc n = none) :
    s.Neat loc := by
  have hentry : ∀ t fd, s.entry t fd = none := by
    intro t fd
    rw [Io.entry, hl t, Option.bind_none]
  refine ⟨⟨⟨fun k r hk => ?_, fun r n hr => ?_⟩, fun r _ => he r, fun t fd r x hr => ?_⟩,
    fun r x hx => ?_, fun r d x y hx => ?_, fun t l h => ?_⟩
  · cases k with
    | table t fd =>
        have hk' : s.entry t fd = some r := hk
        rw [hentry t fd] at hk'
        cases hk'
    | wake t =>
        have hk' : (s.loop t).map (fun l => l.wakeEvent) = some r := hk
        rw [hl t] at hk'
        cases hk'
    | call c =>
        have hk' : loc c = some r := hk
        rw [hloc c] at hk'
        cases hk'
  · rw [Io.count, he r] at hr
    cases hr
  · rw [hentry t fd] at hr
    cases hr
  · rw [he r] at hx
    cases hx
  · rw [he r] at hx
    cases hx
  · rw [hl t] at h
    cases h

/-- If the pointers are in order after a change, so is the rest. -/
theorem touch (hn : s.Neat loc) (h : Touch s s' e t fd) (ht : s'.Tidy loc') : s'.Neat loc' where
  tidy := ht
  opened := by
    intro d x' hx'
    rcases h.ev d x' hx' with ⟨x, hx, hf, _⟩
    rw [hf]
    -- It has been closed only if no object has it, and `d` has.
    rcases h.isOpen x.obj.fd (hn.opened d x hx) with hopen | ⟨_, hno⟩
    · exact hopen
    · exact absurd hf (hno d x' hx')
  apart := by
    intro d r x' y' hx' hy' hf
    rcases h.ev d x' hx' with ⟨x, hx, hfx, _⟩
    rcases h.ev r y' hy' with ⟨y, hy, hfy, _⟩
    exact hn.apart d r x y hx hy (by rw [← hfx, ← hfy, hf])
  wake := by
    intro u l' hl'
    rcases h.wakeEvent hl' with ⟨l, hl, hev, hfd⟩
    -- The loop's pointer keeps its object.
    have hheld : s'.held loc' (.wake u) = some l'.wakeEvent := by
      rw [held, hl', Option.map_some]
    rcases ht.live hheld with ⟨x', hx', _⟩
    rcases h.ev _ x' hx' with ⟨x, hx, hf, _⟩
    rcases hn.wake u l hl with ⟨y, hy, hfy⟩
    rw [hev, hx] at hy
    injection hy with hy
    exact ⟨x', hx', by rw [hf, hy, hfy, hfd]⟩

/-- Only the pools have changed. -/
theorem pools (hn : s.Neat loc) (hl : s'.loop = s.loop) (he : s'.ev = s.ev)
    (hx : s'.nextEv = s.nextEv) (hk : s'.kern = s.kern) : s'.Neat loc where
  tidy := hn.tidy.congr hl he hx
  opened := by
    rw [he, hk]
    exact hn.opened
  apart := by
    rw [he]
    exact hn.apart
  wake := by
    rw [hl, he]
    exact hn.wake

/-- An object is in a table under its own descriptor, on its own thread. -/
theorem entry_of (hn : s.Neat loc) {x : EventsCell} (hx : s.ev e = some x)
    (h : s.entry t fd = some e) : x.obj.fd = fd ∧ x.obj.tid = t := hn.tidy.tagged t fd e x h hx

end Neat

/-! ### The pointers to an object -/

/-- A change to one object that keeps the descriptor and, but for `e`, the
    thread and the state. -/
theorem setEv_touch {d : EvRef} {x : EventsCell} (y : EventsCell) (hx : s.ev d = some x)
    (hf : y.obj.fd = x.obj.fd)
    (hs : d ≠ e → y.obj.tid = x.obj.tid ∧ y.obj.state = x.obj.state) (t : Tid) (fd : Fd) :
    Touch s (s.setEv d (some y)) e t fd where
  ev := by
    intro r x' hx'
    change Function.update s.ev d (some y) r = some x' at hx'
    by_cases hr : r = d
    · rw [hr, Function.update_self] at hx'
      injection hx' with hx'
      rw [← hx', hr]
      exact ⟨x, hx, hf, hs⟩
    · rw [Function.update_of_ne hr] at hx'
      exact ⟨x', hx', rfl, fun _ => ⟨rfl, rfl⟩⟩
  map := fun _ _ _ => rfl
  cur := fun _ _ => rfl
  entry := fun _ _ _ => rfl
  wake := fun _ => rfl
  isOpen := fun _ h => .inl h
  hookable := rfl

variable {n : McoRef} {x : EventsCell}

/-- A pointer to an object goes, perhaps the last one, which closes the
    descriptor. -/
theorem dropped_touch {k : Kernel} (hx : s.ev e = some x)
    (hapart : ∀ r y, s.ev r = some y → y.obj.fd = x.obj.fd → r = e)
    (hk : k.isOpen = s.kern.isOpen) (d : EvRef) (t : Tid) :
    Touch s (s.dropped e x.obj x.useCount k) d t x.obj.fd := by
  unfold dropped
  by_cases h1 : x.useCount ≤ 1
  · rw [if_pos h1]
    -- The last pointer: the object goes, and with it the descriptor.
    have hev : ∀ r x', Function.update s.ev e none r = some x' → r ≠ e ∧ s.ev r = some x' := by
      intro r x' hx'
      have hr : r ≠ e := by
        rintro rfl
        rw [Function.update_self] at hx'
        cases hx'
      rw [Function.update_of_ne hr] at hx'
      exact ⟨hr, hx'⟩
    refine ⟨fun r x' hx' => ⟨x', (hev r x' hx').2, rfl, fun _ => ⟨rfl, rfl⟩⟩, fun _ _ _ => rfl,
      fun _ _ => rfl, fun _ _ _ => rfl, fun _ => rfl, fun g hopen => ?_, rfl⟩
    by_cases hg : g = x.obj.fd
    · refine .inr ⟨hg, fun r x' hx' hf => ?_⟩
      -- No other object has had the descriptor.
      rcases hev r x' hx' with ⟨hr, hx0⟩
      exact hr (hapart r x' hx0 (hf.trans hg))
    · refine .inl ?_
      change Function.update k.isOpen x.obj.fd false g = true
      rw [Function.update_of_ne hg, hk]
      exact hopen
  · rw [if_neg h1]
    refine ⟨fun r x' hx' => ?_, fun _ _ _ => rfl, fun _ _ => rfl, fun _ _ _ => rfl, fun _ => rfl,
      fun g hopen => .inl ((congrFun hk g).trans hopen), rfl⟩
    change Function.update s.ev e (some { obj := x.obj, useCount := x.useCount - 1 }) r
      = some x' at hx'
    by_cases hr : r = e
    · rw [hr, Function.update_self] at hx'
      injection hx' with hx'
      rw [hr, ← hx']
      exact ⟨x, hx, rfl, fun _ => ⟨rfl, rfl⟩⟩
    · rw [Function.update_of_ne hr] at hx'
      exact ⟨x', hx', rfl, fun _ => ⟨rfl, rfl⟩⟩

theorem dropped_obj {k : Kernel} {y : EventsCell}
    (hy : (s.dropped e x.obj x.useCount k).ev e = some y) : y.obj = x.obj := by
  unfold dropped at hy
  by_cases h1 : x.useCount ≤ 1
  · rw [if_pos h1] at hy
    change Function.update s.ev e none e = some y at hy
    rw [Function.update_self] at hy
    cases hy
  · rw [if_neg h1] at hy
    change Function.update s.ev e _ e = some y at hy
    rw [Function.update_self] at hy
    injection hy with hy
    rw [← hy]

theorem dropped_pool {k : Kernel} {n : Nat} {o : Events} :
    (s.dropped e o n k).pool = s.pool ∧ (s.dropped e o n k).loop = s.loop := by
  unfold dropped
  by_cases h1 : n ≤ 1
  · rw [if_pos h1]
    exact ⟨rfl, rfl⟩
  · rw [if_neg h1]
    exact ⟨rfl, rfl⟩

theorem release_eq (hx : s.ev e = some x) :
    s.release e = .ok (s.dropped e x.obj x.useCount s.kern) := by
  unfold Io.release dropped
  rw [hx]
  by_cases h1 : x.useCount ≤ 1
  · simp only [if_pos h1]
  · simp only [if_neg h1]
    rfl

/-- A change to the interest of a descriptor. -/
theorem interest_touch {k : Kernel} (hk : k.isOpen = s.kern.isOpen) :
    Touch s { s with kern := k } e t fd where
  ev := fun _ x' h => ⟨x', h, rfl, fun _ => ⟨rfl, rfl⟩⟩
  map := fun _ _ _ => rfl
  cur := fun _ _ => rfl
  entry := fun _ _ _ => rfl
  wake := fun _ => rfl
  isOpen := fun g h => .inl ((congrFun hk g).trans h)
  hookable := rfl

theorem setTable_touch {l : EventLoop} (hl : s.loop t = some l) (r : Option EvRef) :
    Touch s (s.setTable t l fd r) e t fd where
  ev := fun _ x' h => ⟨x', h, rfl, fun _ => ⟨rfl, rfl⟩⟩
  map := fun _ _ _ => rfl
  cur := fun _ _ => rfl
  entry := fun u g h => by rw [setTable_entry s t l fd r hl, if_neg h]
  wake := by
    intro u
    simp only [setTable]
    by_cases hu : u = t
    · rw [hu, Function.update_self, hl]
      rfl
    · rw [Function.update_of_ne hu]
  isOpen := fun _ h => .inl h
  hookable := rfl

/-- The table of thread `t` has taken the object `e`. -/
def taken (s : Io) (t : Tid) (l : EventLoop) (e : EvRef) (x : EventsCell) : Io :=
  (s.setTable t l x.obj.fd (some e)).setEv e (some { x with useCount := x.useCount + 1 })

namespace Neat

/-- A place gets a pointer. -/
theorem share (hn : s.Neat loc) (hx : s.ev e = some x) (n : McoRef) :
    ∃ s', s.share e = .ok s' ∧ s'.ev e = some { x with useCount := x.useCount + 1 } ∧
      s'.loop = s.loop ∧ s'.pool = s.pool ∧ s'.kern = s.kern ∧
      s'.Neat (Function.update loc n (some e)) ∧ ∀ d t fd, Touch s s' d t fd := by
  refine ⟨s.setEv e (some { x with useCount := x.useCount + 1 }), ?_, Function.update_self _ _ _,
    rfl, rfl, rfl, ?_, fun d t fd => setEv_touch { x with useCount := x.useCount + 1 } hx rfl
      (fun _ => ⟨rfl, rfl⟩) t fd⟩
  · rw [Io.share, hx]
  · refine hn.touch (setEv_touch (e := e) { x with useCount := x.useCount + 1 } hx rfl
      (fun _ => ⟨rfl, rfl⟩) 0 0) ?_
    refine ⟨?_, hn.tidy.unused_setEv hx,
      fun u g r z hr hz => hn.tidy.tagged_setEv hx hr hz rfl rfl⟩
    refine hn.tidy.counted.take (k := .call n) (n := x.useCount)
      (by rw [count, hx, Option.map_some]) ?_ ?_
    · exact held_call s loc n (some e)
    · exact setEv_count s e _

/-- The object in a table is found, and a place gets a pointer to it. -/
theorem getEvents (hn : s.Neat loc) (hent : s.entry t fd = some e) (n : McoRef) :
    ∃ s', s.getEvents t fd = .ok (s', some e) ∧ s'.loop = s.loop ∧ s'.pool = s.pool ∧
      s'.Neat (Function.update loc n (some e)) ∧ ∀ d u g, Touch s s' d u g := by
  rcases loop_of_entry hent with ⟨l, hl, hle⟩
  rcases hn.tidy.live (k := .table t fd) hent with ⟨x, hx, _⟩
  rcases hn.share hx n with ⟨s', hs', _, hloop, hpool, _, hneat, htouch⟩
  refine ⟨s', ?_, hloop, hpool, hneat, htouch⟩
  unfold Io.getEvents
  rw [hl]
  simp only [hle, hs']
  rfl

/-- A change to an object that keeps its descriptor, and its thread unless it
    is in no table. -/
theorem modifyEvents (hn : s.Neat loc) (hx : s.ev e = some x) (g : Events → Events)
    (hf : (g x.obj).fd = x.obj.fd)
    (ht : (g x.obj).tid = x.obj.tid ∨ ∀ u h, s.entry u h ≠ some e) :
    ∃ s', s.modifyEvents e g = .ok s' ∧ s'.ev e = some { x with obj := g x.obj } ∧
      s'.loop = s.loop ∧ s'.pool = s.pool ∧ s'.kern = s.kern ∧ s'.Neat loc ∧
      ∀ t fd, Touch s s' e t fd := by
  refine ⟨s.setEv e (some { x with obj := g x.obj }), ?_, Function.update_self _ _ _,
    rfl, rfl, rfl, ?_, fun t fd => setEv_touch { x with obj := g x.obj } hx hf
      (fun h => absurd rfl h) t fd⟩
  · rw [Io.modifyEvents, hx]
  · refine hn.touch (setEv_touch { x with obj := g x.obj } hx hf (fun h => absurd rfl h) 0 0) ?_
    refine ⟨hn.tidy.counted.congr (congrFun (held_congr loc rfl))
      (congrFun (setEv_count_self hx rfl)), hn.tidy.unused_setEv hx, fun u h r z hr hz => ?_⟩
    rcases ht with ht | hno
    · exact hn.tidy.tagged_setEv hx hr hz hf ht
    · have hre : r ≠ e := by
        rintro rfl
        exact hno u h hr
      change Function.update s.ev e _ r = some z at hz
      rw [Function.update_of_ne hre] at hz
      exact hn.tidy.tagged u h r z hr hz

/-- A change that changes nothing. -/
theorem modifyEvents_self {x : EventsCell} {g : Events → Events} (hx : s.ev e = some x)
    (hg : g x.obj = x.obj) : s.modifyEvents e g = .ok s := by
  unfold Io.modifyEvents
  rw [hx]
  simp only []
  rw [hg, Io.setEv, Function.update_eq_self_iff.mpr hx.symm]

/-- A place lets go of its pointer. -/
theorem release (hn : s.Neat loc) (hloc : loc n = some e) :
    ∃ s' x, s.release e = .ok s' ∧ s.ev e = some x ∧ s'.pool = s.pool ∧ s'.loop = s.loop ∧
      (∀ y, s'.ev e = some y → y.obj = x.obj) ∧ s'.Neat (Function.update loc n none) ∧
      ∀ d t, Touch s s' d t x.obj.fd := by
  have hk : s.held loc (.call n) = some e := hloc
  rcases hn.tidy.live hk with ⟨x, hx, _⟩
  have htouch := fun d t => dropped_touch (k := s.kern) hx
    (fun r y hy hf => hn.apart r e y x hy hx hf) rfl d t
  refine ⟨_, x, release_eq hx, hx, dropped_pool.1, dropped_pool.2, fun y hy => dropped_obj hy,
    hn.touch (htouch e 0) ?_, htouch⟩
  exact hn.tidy.dropped hk hx rfl rfl rfl rfl (held_call s loc n none) (fun _ _ _ hr => hr)

/-! ### The table and the loop -/

/-- The loop is told of a new object, which enters its table. -/
theorem updateEvents_new {l : EventLoop} (hn : s.Neat loc) (hx : s.ev e = some x)
    (hst : x.obj.state = .NEW) (ht : x.obj.tid = t) (hl : s.loop t = some l)
    (hent : s.entry t x.obj.fd = none) (ok : Bool) :
    ∃ s', s.updateEvents t e ok = .ok s' ∧ (∀ y, s'.ev e = some y → y.obj = x.obj) ∧
      s'.pool = s.pool ∧ s'.entry t x.obj.fd = some e ∧ s'.Neat loc ∧
      Touch s s' e t x.obj.fd := by
  have hi : x.obj.invaild = false := by
    rw [Events.invaild, hst]
    rfl
  have hnew : x.obj.isnew = true := by
    rw [Events.isnew, hst]
    rfl
  have hle : l.events x.obj.fd = none := by
    rw [← entry_of_loop hl]
    exact hent
  -- First the table and its pointer, then the kernel.
  have htouch1 : Touch s (s.taken t l e x) e t x.obj.fd := by
    refine (setTable_touch hl (some e)).trans ?_
    exact setEv_touch (s := s.setTable t l x.obj.fd (some e))
      { x with useCount := x.useCount + 1 } hx rfl (fun _ => ⟨rfl, rfl⟩) t x.obj.fd
  have hk := (Kernel.record_eq (Kernel.eventAdd_record s.kern t x.obj.fd x.obj.eorigin ok)).1
  have htouch := htouch1.trans (interest_touch (s := s.taken t l e x) hk)
  have hentry : (s.taken t l e x).entry t x.obj.fd = some e := by
    change (s.setTable t l x.obj.fd (some e)).entry t x.obj.fd = some e
    rw [setTable_entry s t l x.obj.fd _ hl, if_pos ⟨rfl, rfl⟩]
  refine ⟨{ s.taken t l e x with
    kern := (s.kern.eventAdd t x.obj.fd x.obj.eorigin ok).1 }, ?_, ?_, rfl, hentry,
    hn.touch htouch ?_, htouch⟩
  · unfold Io.updateEvents Io.pollUpdate Io.tableAdd Io.share
    simp only [hl, hx, hi, hnew, hle, Bool.false_eq_true, if_false, if_true]
    rfl
  · intro y hy
    change Function.update s.ev e _ e = some y at hy
    rw [Function.update_self] at hy
    injection hy with hy
    rw [← hy]
  · -- The table takes a pointer.
    have hc := hn.tidy.counted.take (k := .table t x.obj.fd) (n := x.useCount)
      (by rw [count, hx, Option.map_some]) rfl rfl
    refine ⟨hc.congr (fun k => ?_) (fun r => ?_), hn.tidy.unused_setEv hx, fun u g r z hr hz => ?_⟩
    · rw [← setTable_held s t l _ _ loc hl]
      exact congrFun (held_congr loc rfl) k
    · exact congrFun (setEv_count (s.setTable t l x.obj.fd (some e)) e _) r
    · have hr' : (s.setTable t l x.obj.fd (some e)).entry u g = some r := hr
      rw [setTable_entry s t l _ _ hl] at hr'
      have hz' : Function.update s.ev e (some { x with useCount := x.useCount + 1 }) r
        = some z := hz
      by_cases hug : u = t ∧ g = x.obj.fd
      · rw [if_pos hug] at hr'
        injection hr' with hr'
        rw [← hr', Function.update_self] at hz'
        injection hz' with hz'
        rw [← hz', hug.1, hug.2]
        exact ⟨rfl, ht⟩
      · rw [if_neg hug] at hr'
        exact hn.tidy.tagged_setEv hx hr' hz' rfl rfl

/-- The loop is told of a change to an object in its table. -/
theorem updateEvents_mod (hn : s.Neat loc) (hx : s.ev e = some x) (hst : x.obj.state = .MOD)
    (hent : s.entry t x.obj.fd = some e) (ok : Bool) :
    ∃ s', s.updateEvents t e ok = .ok s' ∧ s'.ev = s.ev ∧ s'.pool = s.pool ∧ s'.loop = s.loop ∧
      s'.Neat loc ∧ ∀ fd, Touch s s' e t fd := by
  rcases loop_of_entry hent with ⟨l, hl, hle⟩
  have hi : x.obj.invaild = false := by
    rw [Events.invaild, hst]
    rfl
  have hnew : x.obj.isnew = false := by
    rw [Events.isnew, hst]
    rfl
  have hmod : x.obj.ismod = true := by
    rw [Events.ismod, hst]
    rfl
  have hk := (Kernel.record_eq (Kernel.eventMod_record s.kern t x.obj.fd x.obj.eorigin ok)).1
  have htouch : ∀ fd,
      Touch s { s with kern := (s.kern.eventMod t x.obj.fd x.obj.eorigin ok).1 } e t fd :=
    fun fd => interest_touch hk
  refine ⟨{ s with kern := (s.kern.eventMod t x.obj.fd x.obj.eorigin ok).1 }, ?_, rfl, rfl, rfl,
    hn.touch (htouch 0) (hn.tidy.congr rfl rfl rfl), htouch⟩
  unfold Io.updateEvents Io.pollUpdate
  simp only [hl, hx, hi, hnew, hmod, hle, Bool.false_eq_true, if_false, if_true]

/-- The loop is told to forget an object in its table. -/
theorem updateEvents_del (hn : s.Neat loc) (hx : s.ev e = some x) (hst : x.obj.state = .DEL)
    (hent : s.entry t x.obj.fd = some e) (ok : Bool) :
    ∃ s', s.updateEvents t e ok = .ok s' ∧ (∀ y, s'.ev e = some y → y.obj = x.obj) ∧
      s'.pool = s.pool ∧ s'.entry t x.obj.fd = none ∧ s'.Neat loc ∧
      Touch s s' e t x.obj.fd := by
  -- The branch of `pollUpdate` for a deleted object.
  rcases loop_of_entry hent with ⟨l, hl, hle⟩
  have hi : x.obj.invaild = false := by
    rw [Events.invaild, hst]
    rfl
  have hnew : x.obj.isnew = false := by
    rw [Events.isnew, hst]
    rfl
  have hmod : x.obj.ismod = false := by
    rw [Events.ismod, hst]
    rfl
  have hdel : x.obj.isdel = true := by
    rw [Events.isdel, hst]
    rfl
  have hk := (Kernel.record_eq (Kernel.eventDel_record s.kern t x.obj.fd ok)).1
  have hx1 : (s.setTable t l x.obj.fd none).ev e = some x := hx
  have htouch := (setTable_touch (s := s) (e := e) hl none).trans
    (dropped_touch hx1 (fun r y hy hf => hn.apart r e y x hy hx hf) hk e t)
  refine ⟨(s.setTable t l x.obj.fd none).dropped e x.obj x.useCount
    (s.kern.eventDel t x.obj.fd ok).1, ?_, fun y hy => dropped_obj hy, dropped_pool.1, ?_,
    hn.touch htouch ?_, htouch⟩
  · unfold Io.updateEvents Io.pollUpdate
    simp only [hl, hx, hi, hnew, hmod, hdel, hle, Bool.false_eq_true, if_false, if_true]
    rw [release_eq (s := ({ s with kern := (s.kern.eventDel t x.obj.fd ok).1 } : Io).setTable t l
      x.obj.fd none) hx]
    unfold dropped
    by_cases h1 : x.useCount ≤ 1
    · simp only [if_pos h1]
      rfl
    · simp only [if_neg h1]
      rfl
  · rw [entry, dropped_pool.2]
    change (s.setTable t l x.obj.fd none).entry t x.obj.fd = none
    rw [setTable_entry s t l _ none hl, if_pos ⟨rfl, rfl⟩]
  · refine hn.tidy.dropped (k := .table t x.obj.fd) hent hx rfl rfl rfl rfl
      (setTable_held s t l _ none loc hl) (fun u g r hr => ?_)
    rw [setTable_entry s t l _ none hl] at hr
    by_cases hug : u = t ∧ g = x.obj.fd
    · rw [if_pos hug] at hr
      cases hr
    · rw [if_neg hug] at hr
      exact hr

/-- What the loop finds for a report is a descriptor in its table, and not its
    `eventfd`. -/
theorem loopFind (hn : s.Neat loc) {l : EventLoop} (hl : s.loop t = some l) (p : PollerEvent) :
    ∃ s' r, s.loopFind t p = .ok (s', r) ∧ s'.pool = s.pool ∧ s'.loop = s.loop ∧ s'.Neat loc ∧
      (∀ d u g, Touch s s' d u g) ∧
      ∀ fd, r = some fd → ∃ e, s.entry t fd = some e ∧ l.wakeFd ≠ fd := by
  unfold Io.loopFind
  rw [hl]
  simp only []
  cases he : l.events p.fd with
  | none => exact ⟨s, none, rfl, rfl, rfl, hn, fun d u g => .refl s d u g, fun _ h => by cases h⟩
  | some e =>
      have hent : s.entry t p.fd = some e := by rw [entry_of_loop hl, he]
      rcases hn.tidy.live (k := .table t p.fd) hent with ⟨x, hx, _⟩
      -- The test changes the reported mask only.
      have hkeep := (x.obj.setMutable p.event).eventHandleAble_keeps
      have htouch : ∀ d u g, Touch s (s.setEv e (some { x with
          obj := (x.obj.setMutable p.event).eventHandleAble.2 })) d u g := fun d u g =>
        setEv_touch { x with obj := (x.obj.setMutable p.event).eventHandleAble.2 } hx hkeep.1
          (fun _ => ⟨hkeep.2.1, hkeep.2.2.1⟩) u g
      have hneat : (s.setEv e (some { x with
          obj := (x.obj.setMutable p.event).eventHandleAble.2 })).Neat loc := by
        rcases hn.modifyEvents hx (fun o => (o.setMutable p.event).eventHandleAble.2) hkeep.1
          (.inl hkeep.2.1) with ⟨s', hs', _, _, _, _, hneat, _⟩
        rw [Io.modifyEvents, hx] at hs'
        injection hs' with hs'
        rw [← hs'] at hneat
        exact hneat
      simp only [hx]
      by_cases ha : (!(x.obj.setMutable p.event).eventHandleAble.1) = true
      · rw [if_pos ha]
        exact ⟨_, none, rfl, rfl, rfl, hneat, htouch, fun _ h => by cases h⟩
      · rw [if_neg ha]
        by_cases hw : l.wakeFd = (x.obj.setMutable p.event).eventHandleAble.2.fd
        · rw [if_pos hw]
          exact ⟨_, none, rfl, rfl, rfl, hneat, htouch, fun _ h => by cases h⟩
        · rw [if_neg hw]
          refine ⟨_, _, rfl, rfl, rfl, hneat, htouch, fun fd h => ?_⟩
          injection h with h
          -- The object in the table has the descriptor it is under.
          have hfd : fd = p.fd := by
            rw [← h, hkeep.1]
            exact (hn.entry_of hx hent).1
          exact ⟨e, by rw [hfd]; exact hent, by rw [← h]; exact hw⟩

/-! ### New objects and descriptors -/

/-- There is one object more, with a descriptor that no object has had. -/
theorem born {y : EventsCell} (hn : s.Neat loc) (ht : s'.Tidy loc')
    (hev : s'.ev = Function.update s.ev s.nextEv (some y))
    (hfd : ∀ d x, s.ev d = some x → x.obj.fd ≠ y.obj.fd)
    (hopen : ∀ g, s.kern.isOpen g = true → s'.kern.isOpen g = true)
    (hself : s'.kern.isOpen y.obj.fd = true)
    (hwake : ∀ u l, s'.loop u = some l →
      s.loop u = some l ∨ (l.wakeEvent = s.nextEv ∧ y.obj.fd = l.wakeFd)) : s'.Neat loc' := by
  -- An object is the new one or an old one.
  have hcase : ∀ d x, s'.ev d = some x → (d = s.nextEv ∧ x = y) ∨ s.ev d = some x := by
    intro d x hx
    rw [hev] at hx
    by_cases hd : d = s.nextEv
    · rw [hd, Function.update_self] at hx
      injection hx with hx
      exact .inl ⟨hd, hx.symm⟩
    · rw [Function.update_of_ne hd] at hx
      exact .inr hx
  refine ⟨ht, fun d x hx => ?_, fun d r x z hx hz hf => ?_, fun u l hl => ?_⟩
  · rcases hcase d x hx with ⟨_, rfl⟩ | hx
    · exact hself
    · exact hopen _ (hn.opened d x hx)
  · rcases hcase d x hx with ⟨hd, rfl⟩ | hx
    · rcases hcase r z hz with ⟨hr, _⟩ | hz
      · rw [hd, hr]
      · exact absurd hf.symm (hfd r z hz)
    · rcases hcase r z hz with ⟨_, rfl⟩ | hz
      · exact absurd hf (hfd d x hx)
      · exact hn.apart d r x z hx hz hf
  · rcases hwake u l hl with hl0 | ⟨hw, hf⟩
    · rcases hn.wake u l hl0 with ⟨x, hx, hxf⟩
      refine ⟨x, ?_, hxf⟩
      rw [hev, Function.update_of_ne]
      · exact hx
      · intro hc
        rw [hc, hn.tidy.unused s.nextEv (Nat.le_refl _)] at hx
        cases hx
    · exact ⟨y, by rw [hev, hw, Function.update_self], hf⟩

/-- No object has a descriptor that is not open. -/
theorem shut (hn : s.Neat loc) (h : s.kern.isOpen fd = false) (d : EvRef) (x : EventsCell)
    (hx : s.ev d = some x) : x.obj.fd ≠ fd := by
  rintro rfl
  rw [hn.opened d x hx] at h
  cases h

theorem openFd (hn : s.Neat loc) (g : Fd) (nonblock : Bool) :
    ({ s with kern := s.kern.openFd g nonblock } : Io).Neat loc ∧
      ∀ e t fd, Touch s { s with kern := s.kern.openFd g nonblock } e t fd := by
  have htouch : ∀ e t fd, Touch s { s with kern := s.kern.openFd g nonblock } e t fd := by
    intro e t fd
    refine ⟨fun _ x' h => ⟨x', h, rfl, fun _ => ⟨rfl, rfl⟩⟩, fun _ _ _ => rfl, fun _ _ => rfl,
      fun _ _ _ => rfl, fun _ => rfl, fun f hf => .inl ?_, rfl⟩
    change Function.update s.kern.isOpen g true f = true
    by_cases hfg : f = g
    · rw [hfg, Function.update_self]
    · rw [Function.update_of_ne hfg]
      exact hf
  exact ⟨hn.touch (htouch 0 0 0) (hn.tidy.congr rfl rfl rfl), htouch⟩

/-- A new object in a place. -/
theorem newEvents (hn : s.Neat loc) (hopen : s.kern.isOpen fd = true)
    (hfree : ∀ d x, s.ev d = some x → x.obj.fd ≠ fd) (t : Tid) (n : McoRef) :
    (s.newEvents t fd kReadEvent).1.Neat (Function.update loc n (some s.nextEv)) := by
  refine hn.born (y := { obj := Events.make fd kReadEvent t, useCount := 1 }) ?_ rfl hfree
    (fun _ h => h) hopen (fun u l hl => .inl hl)
  refine ⟨?_, fun r hr => ?_, fun u g r z hr hz => ?_⟩
  · refine hn.tidy.counted.fresh (k := .call n) hn.tidy.count_unused ?_ ?_
    · exact held_call s loc n (some s.nextEv)
    · exact setEv_count s s.nextEv _
  · have hr' : s.nextEv + 1 ≤ r := hr
    change Function.update s.ev s.nextEv _ r = none
    rw [Function.update_of_ne (Nat.ne_of_gt hr')]
    exact hn.tidy.unused r (Nat.le_of_lt hr')
  · have hz' : Function.update s.ev s.nextEv (some
        { obj := Events.make fd kReadEvent t, useCount := 1 }) r = some z := hz
    -- Nothing has pointed to the new object before.
    have hre : r ≠ s.nextEv := by
      rintro rfl
      rcases hn.tidy.live (k := .table u g) hr with ⟨x, hx, _⟩
      rw [hn.tidy.unused s.nextEv (Nat.le_refl _)] at hx
      cases hx
    rw [Function.update_of_ne hre] at hz'
    exact hn.tidy.tagged u g r z hr hz'

theorem newEvents_leaves (hn : s.Neat loc) (u : Tid) (g : Fd) (m : UInt32) :
    (s.newEvents u g m).1.ev s.nextEv = some { obj := Events.make g m u, useCount := 1 } ∧
      ∀ e t fd, Leaves s (s.newEvents u g m).1 e t fd := by
  refine ⟨Function.update_self _ _ _, fun e t fd => ⟨fun d x x' hx hx' => ?_, fun _ _ _ => rfl,
    fun _ _ => rfl, fun _ _ _ => rfl⟩⟩
  have hd : d ≠ s.nextEv := by
    rintro rfl
    rw [hn.tidy.unused s.nextEv (Nat.le_refl _)] at hx
    cases hx
  change Function.update s.ev s.nextEv _ d = some x' at hx'
  rw [Function.update_of_ne hd, hx] at hx'
  injection hx' with hx'
  rw [hx']
  exact ⟨rfl, fun _ => ⟨rfl, rfl⟩⟩

/-- A new object for a new descriptor. -/
theorem openFd_newEvents (hn : s.Neat loc) (hopen : s.kern.isOpen fd = false) (nonblock : Bool)
    (t : Tid) (n : McoRef) :
    ∃ s', ({ s with kern := s.kern.openFd fd nonblock } : Io).newEvents t fd kReadEvent
        = (s', s.nextEv) ∧ s'.loop = s.loop ∧ s'.hookable = s.hookable ∧
      s'.ev s.nextEv = some { obj := Events.make fd kReadEvent t, useCount := 1 } ∧
      s'.Neat (Function.update loc n (some s.nextEv)) ∧ ∀ e u g, Leaves s s' e u g := by
  rcases hn.openFd fd nonblock with ⟨hneat, _⟩
  rcases hneat.newEvents_leaves t fd kReadEvent with ⟨hx, hleaves⟩
  refine ⟨_, rfl, rfl, rfl, hx,
    hneat.newEvents (Function.update_self _ _ _) (hn.shut hopen) t n, fun e u g => ?_⟩
  exact ⟨(hleaves e u g).ev, (hleaves e u g).map, (hleaves e u g).cur, (hleaves e u g).entry⟩

/-- A new loop. -/
theorem newLoop (hn : s.Neat loc) (hl : s.loop t = none) (hopen : s.kern.isOpen fd = false) :
    ∃ s' l, s.newLoop t fd = .ok s' ∧ l.wakeFd = fd ∧ l.wakeEvent = s.nextEv ∧
      l.events = Function.update (fun _ => none) fd (some s.nextEv) ∧
      s'.loop = Function.update s.loop t (some l) ∧ s'.pool = s.pool ∧
      s'.ev = Function.update s.ev s.nextEv
        (some { obj := Events.make fd kReadEvent t, useCount := 2 }) ∧
      s'.hookable = s.hookable ∧ s'.kern.isOpen = Function.update s.kern.isOpen fd true ∧
      s'.Neat loc := by
  -- The table of a new loop is empty, so the assertion on a new event holds.
  have hret : ∃ s', s.newLoop t fd = .ok s' := by
    cases h : s.newLoop t fd with
    | ok s' => exact ⟨s', rfl⟩
    | error a =>
        unfold Io.newLoop Io.pollUpdate Io.tableAdd Io.share at h
        simp only [Io.newEvents, Function.update_self] at h
        cases h
  rcases hret with ⟨s', hs'⟩
  rcases newLoop_cases hs' with ⟨l, hwf, hwe, hev, heq⟩
  have hk : s'.kern.isOpen = Function.update s.kern.isOpen fd true := by
    rw [heq]
    exact (Kernel.record_eq (Kernel.eventAdd_record (s.kern.openFd fd true) t fd _ true)).1
  refine ⟨s', l, hs', hwf, hwe, hev, by rw [heq], by rw [heq], by rw [heq], by rw [heq], hk, ?_⟩
  refine hn.born (y := { obj := Events.make fd kReadEvent t, useCount := 2 })
    (hn.tidy.newLoop hl hs') (by rw [heq]) (fun d x hx => hn.shut hopen d x hx) (fun g hg => ?_) ?_
    (fun u l' hl' => ?_)
  · rw [hk]
    by_cases hgf : g = fd
    · rw [hgf, Function.update_self]
    · rw [Function.update_of_ne hgf]
      exact hg
  · rw [hk]
    exact Function.update_self _ _ _
  · rw [heq] at hl'
    change Function.update s.loop t (some l) u = some l' at hl'
    by_cases hu : u = t
    · rw [hu, Function.update_self] at hl'
      injection hl' with hl'
      rw [← hl']
      exact .inr ⟨hwe, hwf.symm⟩
    · rw [Function.update_of_ne hu] at hl'
      exact .inl hl'

end Neat

end Io

end Fasco
