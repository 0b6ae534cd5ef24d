import Fasco.Theory.Hooked

/-!
# One Descriptor at a Time

What a thread's pool, its loop's table, the `Events` object there and the
kernel say of one descriptor is its `FdView`. Each part of the hooks and of the
loop concerns one descriptor only and leaves the views of the others as they
are. The structures here say this of each part, together with what it does for
its own descriptor, so that an invariant that speaks of descriptors one at a
time is proved without looking at a table again.

The tables are assumed to be `Tidy`: the objects in two places of a table are
different objects, since each is of the descriptor it is filed under.

## Main definitions

* `KernView`, `FdView`: What is known of a descriptor.
* `Io.askCtl`: The `epoll_ctl` a hooked call makes before it yields.
* `Io.Entered`, `Io.Left`, `Io.Closed`: Entering and leaving a hooked call, and
  closing.

## Theorems

* `eventAdd_view`, `eventMod_view`, `eventDel_view`, `uniClose_view`,
  `openFd_view`: The kernel and the other descriptors.
* `view_congr`: What a view depends on.
* `entered`, `left`, `closed`, `loopEntry_view`: The parts.
-/

namespace Fasco

open Fallible

/-- What the kernel and the record of the openings say of a descriptor. -/
structure KernView where
  interest : Option UInt32
  isOpen : Bool
  opening : Nat
  user : Option McoRef

/-- What the program's tables say of it as well: the coroutine the pool has for
    it, the object in the table, and what that asks for, in which state. -/
structure FdView where
  coroutine : Option McoRef
  entry : Option EvRef
  asks : Option (UInt32 × EventsState)
  kern : KernView

/-- The view, with `c` as the coroutine that has read last. -/
def FdView.usedBy (v : FdView) (c : Option McoRef) : FdView :=
  { v with kern := { v.kern with user := c } }

namespace Kernel

def view (k : Kernel) (t : Tid) (fd : Fd) : KernView :=
  { interest := k.interest t fd
    isOpen := k.isOpen fd
    opening := k.opening fd
    user := k.user fd }

variable {k : Kernel} {t : Tid} {fd g : Fd} {i : UInt32} {ok : Bool}

/-- A change of the interest in one descriptor leaves the others as they were. -/
theorem setInterest_view (hg : g ≠ fd) (x : Option UInt32) :
    (k.setInterest t fd x).view t g = k.view t g := by
  simp only [view, setInterest, Function.update_self, Function.update_of_ne hg]

theorem setInterest_view_self (x : Option UInt32) :
    (k.setInterest t fd x).view t fd = { k.view t fd with interest := x } := by
  simp only [view, setInterest, Function.update_self]

theorem eventAdd_view (hg : g ≠ fd) : (k.eventAdd t fd i ok).1.view t g = k.view t g := by
  unfold eventAdd
  by_cases h : (ok && k.isOpen fd && (k.interest t fd).isNone) = true
  · rw [if_pos h]
    exact setInterest_view hg _
  · rw [if_neg h]

theorem eventMod_view (hg : g ≠ fd) : (k.eventMod t fd i ok).1.view t g = k.view t g := by
  unfold eventMod
  by_cases h : (ok && (k.interest t fd).isSome) = true
  · rw [if_pos h]
    exact setInterest_view hg _
  · rw [if_neg h]

theorem eventDel_view (hg : g ≠ fd) : (k.eventDel t fd ok).1.view t g = k.view t g := by
  unfold eventDel
  by_cases h : (ok && (k.interest t fd).isSome) = true
  · rw [if_pos h]
    exact setInterest_view hg _
  · rw [if_neg h]

/-- Closing a descriptor leaves the others as they were. -/
theorem uniClose_view (hg : g ≠ fd) : (k.uniClose fd).view t g = k.view t g := by
  simp only [view, uniClose, Function.update_of_ne hg]

theorem openFd_view (hg : g ≠ fd) (nonblock : Bool) :
    (k.openFd fd nonblock).view t g = k.view t g := by
  simp only [view, openFd, Function.update_of_ne hg]

/-- Adding succeeds on an open descriptor that is not in the set. -/
theorem eventAdd_snd : (k.eventAdd t fd i ok).2
    = (ok && k.isOpen fd && (k.interest t fd).isNone) := by
  unfold eventAdd
  by_cases h : (ok && k.isOpen fd && (k.interest t fd).isNone) = true
  · rw [if_pos h, h]
  · rw [if_neg h, Bool.eq_false_iff.mpr h]

/-- Changing succeeds on one that is. -/
theorem eventMod_snd : (k.eventMod t fd i ok).2 = (ok && (k.interest t fd).isSome) := by
  unfold eventMod
  by_cases h : (ok && (k.interest t fd).isSome) = true
  · rw [if_pos h, h]
  · rw [if_neg h, Bool.eq_false_iff.mpr h]

-- What succeeds sets the interest, and what fails changes nothing.
theorem eventAdd_view_self : (k.eventAdd t fd i ok).1.view t fd = { k.view t fd with
    interest := if (k.eventAdd t fd i ok).2 = true then some i else k.interest t fd } := by
  unfold eventAdd
  by_cases h : (ok && k.isOpen fd && (k.interest t fd).isNone) = true
  · rw [if_pos h]
    exact setInterest_view_self _
  · rw [if_neg h]
    rfl

theorem eventMod_view_self : (k.eventMod t fd i ok).1.view t fd = { k.view t fd with
    interest := if (k.eventMod t fd i ok).2 = true then some i else k.interest t fd } := by
  unfold eventMod
  by_cases h : (ok && (k.interest t fd).isSome) = true
  · rw [if_pos h]
    exact setInterest_view_self _
  · rw [if_neg h]
    rfl

theorem eventDel_view_self : (k.eventDel t fd ok).1.view t fd = { k.view t fd with
    interest := if (k.eventDel t fd ok).2 = true then none else k.interest t fd } := by
  unfold eventDel
  by_cases h : (ok && (k.interest t fd).isSome) = true
  · rw [if_pos h]
    exact setInterest_view_self _
  · rw [if_neg h]
    rfl

end Kernel

namespace Io

/-- What the object in `t`'s table at `fd` asks for, and its state. -/
def asks (s : Io) (t : Tid) (fd : Fd) : Option (UInt32 × EventsState) :=
  (s.entry t fd).bind (fun e => (s.ev e).map (fun c => (c.obj.eorigin, c.obj.state)))

def view (s : Io) (t : Tid) (fd : Fd) : FdView :=
  { coroutine := s.getMcoRoutine t fd
    entry := s.entry t fd
    asks := s.asks t fd
    kern := s.kern.view t fd }

/-- The `epoll_ctl` with which a hooked call asks for reading, and its
    result. -/
def askCtl (s : Io) (t : Tid) (fd : Fd) (ok : Bool) : Kernel × Bool :=
  match s.entry t fd with
  | none => s.kern.eventAdd t fd kReadEvent ok
  | some _ => s.kern.eventMod t fd kReadEvent ok

/-- What the kernel knows of the descriptor after it has been asked. -/
theorem askCtl_view_self (s : Io) (t : Tid) (fd : Fd) (ok : Bool) :
    (s.askCtl t fd ok).1.view t fd = { s.kern.view t fd with
      interest := if (s.askCtl t fd ok).2 = true then some kReadEvent
        else s.kern.interest t fd } := by
  unfold askCtl
  cases s.entry t fd with
  | none => exact Kernel.eventAdd_view_self
  | some e => exact Kernel.eventMod_view_self

/-- A hooked call of the current coroutine `mco` on `fd`, with the object `e`,
    is about to yield. -/
structure Entered (s s' : Io) (t : Tid) (fd : Fd) (ok : Bool) (mco : McoRef) (e : EvRef) :
    Prop where
  blocking : s.kern.nonblocking fd = false
  hooks : s.hookable = true
  hookable : s'.hookable = s.hookable
  current : s.getCurMco t = some mco
  current' : s'.getCurMco t = some mco
  mapped : s.getMcoRoutine t fd = none ∨ s.getMcoRoutine t fd = some mco
  other : ∀ g, g ≠ fd → s'.view t g = s.view t g
  coroutine : s'.getMcoRoutine t fd = some mco
  entry : s'.entry t fd = some e
  asks : ∃ st, s'.asks t fd = some (kReadEvent, st) ∧ (st = .NEW ∨ st = .MOD)
  kern : s'.kern = (s.askCtl t fd ok).1
  loop : ∀ u l, s.loop u = some l → ∃ l', s'.loop u = some l' ∧ l'.wakeFd = l.wakeFd

/-- A hooked call on `fd` no longer asks for reading. -/
structure Left (s s' : Io) (t : Tid) (fd : Fd) (ok : Bool) : Prop where
  hookable : s'.hookable = s.hookable
  pool : s'.pool = s.pool
  other : ∀ g, g ≠ fd → s'.view t g = s.view t g
  entry : s'.entry t fd = s.entry t fd
  asks : ∃ i st, s.asks t fd = some (i, st) ∧ s'.asks t fd = some (i &&& ~~~kReadEvent, .MOD) ∧
    s'.kern = (s.kern.eventMod t fd (i &&& ~~~kReadEvent) ok).1
  loop : s'.loop = s.loop

/-- `fd` is in the tables no longer, nor is it open, unless somebody holds its
    object. -/
structure Closed (s s' : Io) (t : Tid) (fd : Fd) : Prop where
  hookable : s'.hookable = s.hookable
  other : ∀ g, g ≠ fd → s'.view t g = s.view t g
  coroutine : s'.getMcoRoutine t fd = none
  entry : s'.entry t fd = none
  current : s'.getCurMco t = if s.getCurMco t = s.getMcoRoutine t fd then none else s.getCurMco t
  opening : s'.kern.opening fd = s.kern.opening fd
  user : s'.kern.user fd = s.kern.user fd
  interest : s'.kern.interest t fd = none ∨ s'.kern.interest t fd = s.kern.interest t fd
  loop : ∀ u l, s.loop u = some l → ∃ l', s'.loop u = some l' ∧ l'.wakeFd = l.wakeFd

variable {s s' : Io} {loc : McoRef → Option EvRef} {t : Tid} {fd g : Fd} {e : EvRef} {ok : Bool}

/-- What the object at `e` asks for, and its state. -/
def cellAsks (s : Io) (e : EvRef) : Option (UInt32 × EventsState) :=
  (s.ev e).map (fun c => (c.obj.eorigin, c.obj.state))

theorem asks_of_entry (h : s.entry t fd = some e) : s.asks t fd = s.cellAsks e := by
  rw [asks, h, Option.bind_some]
  rfl

/-- What is asked for comes from an object in the table. -/
theorem asks_some {i : UInt32} {st : EventsState} (h : s.asks t fd = some (i, st)) :
    ∃ e x, s.entry t fd = some e ∧ s.ev e = some x ∧ x.obj.eorigin = i ∧ x.obj.state = st := by
  rcases Option.bind_eq_some_iff.mp h with ⟨e, he, h1⟩
  rcases Option.map_eq_some_iff.mp h1 with ⟨x, hx, h2⟩
  injection h2 with hi hst
  exact ⟨e, x, he, hx, hi, hst⟩

theorem asks_of_none (h : s.entry t fd = none) : s.asks t fd = none := by
  rw [asks, h, Option.bind_none]

/-- The view of a descriptor depends on its own entries, and on its own
    object. -/
theorem view_congr (hp : s'.getMcoRoutine t g = s.getMcoRoutine t g)
    (he : s'.entry t g = s.entry t g)
    (ho : ∀ d, s.entry t g = some d → s'.cellAsks d = s.cellAsks d)
    (hk : s'.kern.view t g = s.kern.view t g) : s'.view t g = s.view t g := by
  have hasks : s'.asks t g = s.asks t g := by
    cases hd : s.entry t g with
    | none => rw [asks_of_none hd, asks_of_none (by rw [he, hd])]
    | some d => rw [asks_of_entry hd, asks_of_entry (by rw [he, hd]), ho d hd]
  simp only [view, hp, he, hasks, hk]

theorem cellAsks_congr (h : s'.ev = s.ev) (d : EvRef) : s'.cellAsks d = s.cellAsks d := by
  rw [cellAsks, cellAsks, h]

theorem cellAsks_update {y : Option EventsCell} (h : s'.ev = Function.update s.ev e y) {d : EvRef}
    (hd : d ≠ e) : s'.cellAsks d = s.cellAsks d := by
  rw [cellAsks, cellAsks, h, Function.update_of_ne hd]

/-- After an update of its object a descriptor asks for what the object says. -/
theorem asks_self {y : EventsCell} (he : s'.entry t fd = some e)
    (hev : s'.ev = Function.update s.ev e (some y)) :
    s'.asks t fd = some (y.obj.eorigin, y.obj.state) := by
  rw [asks_of_entry he, cellAsks, hev, Function.update_self, Option.map_some]

-- The objects of two descriptors of a table are different.
theorem entry_ne {x : EventsCell} (ht : s.Tidy loc) (hx : s.ev e = some x) (hfd : x.obj.fd = fd)
    (hg : g ≠ fd) {d : EvRef} (hd : s.entry t g = some d) : d ≠ e := by
  rintro rfl
  exact hg (by rw [← (ht.tagged t g d x hd hx).1, hfd])

-- An object in a table is not one that is still to be made.
theorem entry_ne_next (ht : s.Tidy loc) {d : EvRef} (hd : s.entry t g = some d) :
    d ≠ s.nextEv := by
  rintro rfl
  rcases ht.live (k := .table t g) hd with ⟨x, hx, _⟩
  rw [ht.unused s.nextEv (Nat.le_refl _)] at hx
  cases hx

theorem setMcoRoutine_ne (hg : g ≠ fd) (mco : McoRef) :
    (s.setMcoRoutine t fd mco).getMcoRoutine t g = s.getMcoRoutine t g := by
  simp only [getMcoRoutine, setMcoRoutine, Function.update_self, Function.update_of_ne hg]

theorem setMcoRoutine_self (mco : McoRef) :
    (s.setMcoRoutine t fd mco).getMcoRoutine t fd = some mco := by
  simp only [getMcoRoutine, setMcoRoutine, Function.update_self]

theorem setMcoRoutine_cur (mco : McoRef) :
    (s.setMcoRoutine t fd mco).getCurMco t = s.getCurMco t := by
  simp only [getCurMco, setMcoRoutine, Function.update_self]

theorem setCurMco_view {u : Tid} {c : Option McoRef} : (s.setCurMco u c).view t g = s.view t g := by
  refine view_congr ?_ rfl (fun _ _ => rfl) rfl
  by_cases hu : t = u
  · rw [hu]
    simp [getMcoRoutine, setCurMco]
  · simp [getMcoRoutine, setCurMco, Function.update_of_ne hu]

/-- The object in the table has been asked for reading. -/
theorem Found.view (ht : s.Tidy loc) (h : Found s s' t fd ok e) :
    (∀ g, g ≠ fd → s'.view t g = s.view t g) ∧ s'.entry t fd = some e ∧
      s'.asks t fd = some (kReadEvent, .MOD) ∧ s'.kern = (s.askCtl t fd ok).1 := by
  rcases h.eq with ⟨x, hx, hfd, _, rfl⟩
  refine ⟨fun g hg => view_congr rfl rfl (fun d hd => ?_) (Kernel.eventMod_view hg),
    h.entry, ?_, ?_⟩
  · exact cellAsks_update rfl (entry_ne ht hx hfd hg hd)
  · exact asks_self (y := { obj := x.obj.updateEvents kReadEvent, useCount := x.useCount + 1 })
      h.entry rfl
  · simp only [askCtl, h.entry]

/-- A new object has been put into the table. -/
theorem Added.view {st : EventsState} (ht : s.Tidy loc) (h : Added s s' t fd ok st) :
    (∀ g, g ≠ fd → s'.view t g = s.view t g) ∧ s'.entry t fd = some s.nextEv ∧
      s'.asks t fd = some (kReadEvent, st) ∧ s'.kern = (s.askCtl t fd ok).1 := by
  rcases h.eq with ⟨l, hl, rfl⟩
  have hent := setTable_entry s t l fd (some s.nextEv) hl
  have hself : (s.setTable t l fd (some s.nextEv)).entry t fd = some s.nextEv := by
    rw [hent, if_pos ⟨rfl, rfl⟩]
  refine ⟨fun g hg => view_congr rfl ?_ (fun d hd => ?_) (Kernel.eventAdd_view hg), hself, ?_, ?_⟩
  · exact (hent t g).trans (if_neg (fun hc => hg hc.2))
  · exact cellAsks_update rfl (entry_ne_next ht hd)
  · exact asks_self (y := { obj := (Events.make fd kReadEvent t).setState st, useCount := 2 })
      hself rfl
  · simp only [askCtl, h.entry]

theorem Added.loop {st : EventsState} (h : Added s s' t fd ok st) {u : Tid} {l : EventLoop}
    (hl : s.loop u = some l) : ∃ l', s'.loop u = some l' ∧ l'.wakeFd = l.wakeFd := by
  rcases h.eq with ⟨l0, hl0, rfl⟩
  by_cases hu : u = t
  · rw [hu, hl0] at hl
    injection hl with hl
    rw [hu, ← hl]
    exact ⟨_, Function.update_self _ _ _, rfl⟩
  · exact ⟨l, (Function.update_of_ne hu _ _).trans hl, rfl⟩

/-- A hooked call on a thread with a loop goes straight to the system call, or
    is entered. -/
theorem entered {r : Option EvRef} (ht : s.Tidy loc)
    (hloop : s.Straight t fd ∨ (s.loop t).isSome) (h : s.hookEnter t fd ok = .ok (s', r)) :
    (r = none ∧ s' = s) ∨ ∃ mco e, r = some e ∧ Entered s s' t fd ok mco e := by
  rcases hookEnter_cases ht h with ⟨hr, hs, _⟩ | ⟨hblock, hh, mco, e, hr, hcur, hcase⟩
  · exact Or.inl ⟨hr, hs⟩
  · right
    refine ⟨mco, e, hr, ?_⟩
    have hno := loop_of_not_straight hblock hh hcur hloop
    rcases hcase with ⟨hmap, hf | ⟨rfl, had | hst⟩⟩ | ⟨hmap, rfl, had | hst⟩
    · rcases hf.view ht with ⟨hother, hent, hasks, hkern⟩
      rcases hf.eq with ⟨x, _, _, _, rfl⟩
      exact ⟨hblock, hh, rfl, hcur, hcur, Or.inr hmap, hother, hmap, hent, ⟨_, hasks, by decide⟩,
        hkern,
        fun u l hl => ⟨l, hl, rfl⟩⟩
    · rcases had.view ht with ⟨hother, hent, hasks, hkern⟩
      have hl := fun u l => had.loop (u := u) (l := l)
      rcases had.eq with ⟨l, _, rfl⟩
      exact ⟨hblock, hh, rfl, hcur, hcur, Or.inr hmap, hother, hmap, hent, ⟨_, hasks, by decide⟩,
        hkern, hl⟩
    · exact absurd hst.loop hno
    · -- The pool is told of the coroutine first.
      rcases had.view (ht.mapped mco) with ⟨hother, hent, hasks, hkern⟩
      have hl := fun u l => had.loop (u := u) (l := l)
      rcases had.eq with ⟨l, _, rfl⟩
      refine ⟨hblock, hh, rfl, hcur, ?_, Or.inl hmap, fun g hg => (hother g hg).trans ?_, ?_, hent,
        ⟨_, hasks, by decide⟩, hkern, hl⟩
      · exact (setMcoRoutine_cur mco).trans hcur
      · exact view_congr (setMcoRoutine_ne hg mco) rfl (fun _ _ => rfl) rfl
      · exact setMcoRoutine_self mco
    · exact absurd hst.loop hno

theorem Entered.not_straight {mco : McoRef} (h : Entered s s' t fd ok mco e) :
    ¬ s.Straight t fd := by
  rintro (h1 | h1 | h1)
  · rw [h.blocking] at h1
    cases h1
  · rw [h.hooks] at h1
    cases h1
  · rw [h.current] at h1
    cases h1.2

/-- A hooked call whose object is in the table goes on. -/
theorem left {c : McoRef} (ht : s.Tidy loc) (hloc : loc c = some e)
    (hent : s.entry t fd = some e) (h : s.hookLeave e ok = .ok s') : Left s s' t fd ok := by
  have hk : s.held loc (.call c) = some e := hloc
  rcases ht.live hk with ⟨x, hx, hpos⟩
  rcases ht.tagged t fd e x hent hx with ⟨hfd, htid⟩
  -- The table and the call both hold the object.
  have htwo := ht.counted.two (j := .table t fd) (by intro hc; cases hc) hent hk
    (show s.count e = some x.useCount by rw [count, hx, Option.map_some])
  rcases hookLeave_cases hx hpos h with ⟨l, _, hno, _⟩ | ⟨k, rfl, hkern⟩
  · rw [hfd, htid, hent] at hno
    cases hno
  · have hk' : k = (s.kern.eventMod t fd (x.obj.eorigin &&& ~~~kReadEvent) ok).1 := by
      rcases hkern with ⟨hno, _⟩ | ⟨_, _, hk⟩
      · rcases loop_of_entry hent with ⟨l, hl, _⟩
        rw [htid, hl] at hno
        cases hno
      · rw [hk, hfd, htid]
        rfl
    rw [dropped, if_neg (by omega)]
    refine ⟨rfl, rfl, fun g hg => view_congr rfl rfl (fun d hd => ?_) ?_, rfl,
      ⟨x.obj.eorigin, x.obj.state, ?_, ?_, hk'⟩, rfl⟩
    · exact cellAsks_update rfl (entry_ne ht hx hfd hg hd)
    · rw [hk']
      exact Kernel.eventMod_view hg
    · rw [asks_of_entry hent, cellAsks, hx, Option.map_some]
    · exact asks_self
        (y := { obj := x.obj.deleteEvent kReadEvent, useCount := x.useCount - 1 }) hent rfl

/-- The pool after the first lines of `close`. -/
theorem unmapped_pool (s : Io) (t : Tid) (fd : Fd) :
    (∀ g, g ≠ fd → (s.unmapped t fd).getMcoRoutine t g = s.getMcoRoutine t g) ∧
    (s.unmapped t fd).getMcoRoutine t fd = none ∧
    (s.unmapped t fd).getCurMco t
      = if s.getCurMco t = s.getMcoRoutine t fd then none else s.getCurMco t := by
  unfold unmapped
  by_cases h : s.getCurMco t = s.getMcoRoutine t fd
  · rw [if_pos h, if_pos h]
    refine ⟨fun g hg => ?_, ?_, ?_⟩
    · simp [getMcoRoutine, removeMcoRoutine, setCurMco, Function.update_of_ne hg]
    · simp [getMcoRoutine, removeMcoRoutine]
    · simp [getCurMco, removeMcoRoutine, setCurMco]
  · rw [if_neg h, if_neg h]
    refine ⟨fun g hg => ?_, ?_, ?_⟩
    · simp [getMcoRoutine, removeMcoRoutine, Function.update_of_ne hg]
    · simp [getMcoRoutine, removeMcoRoutine]
    · simp [getCurMco, removeMcoRoutine]

/-- What may change when a pointer to an object of `obj.fd` goes. -/
theorem dropped_parts (s : Io) (e : EvRef) (obj : Events) (n : Nat) (k : Kernel) :
    (∃ y, (s.dropped e obj n k).ev = Function.update s.ev e y) ∧
      (s.dropped e obj n k).pool = s.pool ∧ (s.dropped e obj n k).loop = s.loop ∧
      (s.dropped e obj n k).hookable = s.hookable ∧
      ((s.dropped e obj n k).kern = k ∨ (s.dropped e obj n k).kern = k.uniClose obj.fd) := by
  unfold dropped
  by_cases hn : n ≤ 1
  · rw [if_pos hn]
    exact ⟨⟨_, rfl⟩, rfl, rfl, rfl, Or.inr rfl⟩
  · rw [if_neg hn]
    exact ⟨⟨_, rfl⟩, rfl, rfl, rfl, Or.inl rfl⟩

/-- What the kernel is left with when a descriptor has been closed, or has been
    taken out of an epoll set and closed later. -/
theorem closing_view (k k' : Kernel) (t : Tid) (fd : Fd) (ok : Bool)
    (hk : k' = (k.request fd).uniClose fd ∨ k' = ((k.request fd).eventDel t fd ok).1 ∨
    k' = ((k.request fd).eventDel t fd ok).1.uniClose fd) :
    (∀ g, g ≠ fd → k'.view t g = k.view t g) ∧ k'.opening fd = k.opening fd ∧
      k'.user fd = k.user fd ∧ (k'.interest t fd = none ∨ k'.interest t fd = k.interest t fd) := by
  have hdel := @Kernel.eventDel_view_self (k.request fd) t fd ok
  have h1 : ((k.request fd).eventDel t fd ok).1.opening fd = k.opening fd :=
    congrArg KernView.opening hdel
  have h2 : ((k.request fd).eventDel t fd ok).1.user fd = k.user fd := congrArg KernView.user hdel
  rcases hk with rfl | rfl | rfl
  · refine ⟨fun g hg => Kernel.uniClose_view hg, rfl, rfl, Or.inl ?_⟩
    simp [Kernel.uniClose]
  · refine ⟨fun g hg => Kernel.eventDel_view hg, h1, h2, ?_⟩
    have h3 : ((k.request fd).eventDel t fd ok).1.interest t fd = _ :=
      congrArg KernView.interest hdel
    by_cases hd : ((k.request fd).eventDel t fd ok).2 = true
    · rw [h3]
      exact Or.inl (if_pos hd)
    · rw [h3]
      exact Or.inr (if_neg hd)
  · refine ⟨fun g hg => (Kernel.uniClose_view hg).trans (Kernel.eventDel_view hg), h1, h2,
      Or.inl ?_⟩
    simp [Kernel.uniClose]

theorem closed (ht : s.Tidy loc) (hh : s.hookable = true) (h : s.close t fd ok = .ok s') :
    Closed s s' t fd := by
  rcases unmapped_pool s t fd with ⟨hp, hself, hcur⟩
  rcases close_cases ht h with ⟨hoff, _⟩ | ⟨_, hent, rfl⟩ |
    ⟨_, l, e, x, hl, hent, hx, hfd, htid, rfl⟩
  · rw [hh] at hoff
    cases hoff
  · rcases closing_view s.kern _ t fd ok (Or.inl rfl) with ⟨hk, ho, hu, hi⟩
    refine ⟨(unmapped_rest s t fd).2, fun g hg => view_congr (hp g hg) (unmapped_entry s t fd t g)
      (fun d _ => cellAsks_congr (unmapped_ev s t fd) d) (hk g hg), hself,
      (unmapped_entry s t fd t fd).trans hent, hcur, ho, hu, hi, fun u l hl => ⟨l, ?_, rfl⟩⟩
    · exact (congrFun (unmapped_loop s t fd) u).trans hl
  · rcases dropped_parts ((s.unmapped t fd).setTable t l fd none) e (x.obj.setState .DEL) x.useCount
      ((s.kern.request fd).eventDel t fd ok).1 with ⟨⟨y, hev⟩, hpool, hloop, hhook, hkern⟩
    have hl' : (s.unmapped t fd).loop t = some l := by rw [unmapped_loop, hl]
    have htab := setTable_entry (s.unmapped t fd) t l fd none hl'
    have hent' : ∀ g, Io.entry (Io.dropped ((s.unmapped t fd).setTable t l fd none) e
        (x.obj.setState .DEL) x.useCount ((s.kern.request fd).eventDel t fd ok).1) t g
        = if g = fd then none else s.entry t g := by
      intro g
      rw [entry, hloop]
      refine (htab t g).trans ?_
      simp only [unmapped_entry, true_and]
    have hdel : (x.obj.setState .DEL).fd = fd := hfd
    rw [hdel] at hkern
    rcases closing_view s.kern _ t fd ok (Or.inr hkern) with ⟨hk, ho, hu, hi⟩
    have hmap : ∀ g, Io.getMcoRoutine (Io.dropped ((s.unmapped t fd).setTable t l fd none) e
        (x.obj.setState .DEL) x.useCount ((s.kern.request fd).eventDel t fd ok).1) t g
        = (s.unmapped t fd).getMcoRoutine t g := by
      intro g
      rw [getMcoRoutine, hpool]
      rfl
    refine ⟨hhook.trans (unmapped_rest s t fd).2, fun g hg => view_congr ?_ ?_ (fun d hd => ?_)
      (hk g hg), (hmap fd).trans hself, ?_, ?_, ho, hu, hi, fun u m hm => ?_⟩
    · exact (hmap g).trans (hp g hg)
    · rw [hent', if_neg hg]
    · refine (cellAsks_update hev (entry_ne ht hx hfd hg hd)).trans ?_
      exact cellAsks_congr (unmapped_ev s t fd) d
    · rw [hent', if_pos rfl]
    · rw [getCurMco, hpool]
      exact hcur
    · rw [hloop]
      by_cases hut : u = t
      · rw [hut, hl] at hm
        injection hm with hm
        rw [hut, ← hm]
        exact ⟨_, Function.update_self _ _ _, rfl⟩
      · refine ⟨m, ?_, rfl⟩
        refine (Function.update_of_ne hut _ _).trans ?_
        rw [unmapped_loop, hm]

/-- `close` leaves the thread's current coroutine as it is, or without one. -/
theorem close_cur (ht : s.Tidy loc) (h : s.close t fd ok = .ok s') :
    s'.getCurMco t = s.getCurMco t ∨ s'.getCurMco t = none := by
  cases hh : s.hookable with
  | true =>
      rw [(closed ht hh h).current]
      by_cases hc : s.getCurMco t = s.getMcoRoutine t fd
      · exact Or.inr (if_pos hc)
      · exact Or.inl (if_neg hc)
  | false =>
      rcases close_cases ht h with ⟨_, rfl⟩ | ⟨hh', _⟩ | ⟨hh', _⟩
      · exact Or.inl rfl
      · rw [hh] at hh'
        cases hh'
      · rw [hh] at hh'
        cases hh'

theorem close_view (ht : s.Tidy loc) (h : s.close t fd ok = .ok s') (hg : g ≠ fd) :
    s'.view t g = s.view t g := by
  cases hh : s.hookable with
  | true => exact (closed ht hh h).other g hg
  | false =>
      rcases close_cases ht h with ⟨_, rfl⟩ | ⟨hh', _⟩ | ⟨hh', _⟩
      · exact view_congr rfl rfl (fun _ _ => rfl)
          ((closing_view s.kern _ t fd ok (Or.inl rfl)).1 g hg)
      · rw [hh] at hh'
        cases hh'
      · rw [hh] at hh'
        cases hh'

/-- Leaving a hooked call does not concern the pools. -/
theorem hookLeave_pool {x : EventsCell} (hx : s.ev e = some x) (hn : 1 ≤ x.useCount)
    (h : s.hookLeave e ok = .ok s') : s'.pool = s.pool := by
  rcases hookLeave_cases hx hn h with ⟨_, _, _, rfl⟩ | ⟨k, rfl, _⟩
  · rfl
  · exact (dropped_parts s e _ _ k).2.1

/-- A reported event changes what has been reported, and nothing else. -/
theorem loopEntry_view {p : PollerEvent} {r : Option McoRef} (ht : s.Tidy loc)
    (h : s.loopEntry t p = .ok (s', r)) : (∀ g, s'.view t g = s.view t g) ∧ s'.pool = s.pool ∧
      s'.loop = s.loop ∧ s'.kern = s.kern ∧ s'.hookable = s.hookable := by
  rcases loopEntry_cases ht h with ⟨_, rfl, _⟩ | ⟨l, e, x, _, _, hx, _, _, rfl, _⟩
  · exact ⟨fun _ => rfl, rfl, rfl, rfl, rfl⟩
  · refine ⟨fun g => view_congr rfl rfl (fun d _ => ?_) rfl, rfl, rfl, rfl, rfl⟩
    have hkeep := (x.obj.setMutable p.event).eventHandleAble_keeps
    by_cases hd : d = e
    · rw [hd]
      simp only [cellAsks, setEv, Function.update_self, hx, Option.map_some, hkeep.2.2.1,
        hkeep.2.2.2]
      rfl
    · exact cellAsks_update rfl hd

end Io

end Fasco
