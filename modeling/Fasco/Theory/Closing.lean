import Fasco.Theory.Hooked

/-!
# Closing Descriptors

`~Events` closes the descriptor. So a descriptor is closed by whoever lets go
of its last object, and `close` on a descriptor that a hooked call waits for
only takes the object out of the table. What has to be true for this to close
every opening once, and only after the program has asked, is said by
`Io.Accounted`: an object that is not in the table of its thread's loop, and
so goes with the call that holds it, is one whose descriptor the program has
closed, and there is one such object for a descriptor at most.

A hooked call on a thread without a loop breaks this. The object it makes has
no table to go into, and goes, with the descriptor, when the call ends. Without
such calls `closed_once_on_request` holds, for any number of threads and
whatever `epoll_ctl` answers.

## Main definitions

* `Kernel.ClosedOnRequest`: Openings are closed once, and on request.
* `Sys.ClosesOnce`: The program closes an opening once.
* `Sys.Looped`: A hooked call that may be suspended has a loop.
* `Kernel.Sound`, `Io.Accounted`: The invariant.

## Theorems

* `Sound.openFd`, `Sound.request`, `Sound.uniClose`: The record of the
  openings.
* `Accounted.hookEnter`, `Accounted.hookLeave`, `Accounted.close`,
  `Accounted.loopEntry`, `Accounted.newLoop`: Each part keeps the invariant.
* `closed_once_on_request`: The openings along a run.
* `closed_by_read`: A descriptor closed by a hooked read.
-/

namespace Fasco

open Fallible

namespace Kernel

/-- No opening has been closed twice, or without the program having called
    `close`. Openings are counted from one. -/
def ClosedOnRequest (k : Kernel) : Prop :=
  ∀ fd n, 0 < n → k.closedCount fd n ≤ 1 ∧ (0 < k.closedCount fd n → k.requested fd n = true)

/-- What is known of the openings of every descriptor. -/
def record (k : Kernel) :=
  (k.isOpen, k.opening, k.requested, k.closedCount)

/-- The openings are in order: what is open has not been closed, what has not
    been asked to be closed is open, and nothing has been done yet with the
    openings to come. -/
structure Sound (k : Kernel) : Prop where
  closed : k.ClosedOnRequest
  later : ∀ fd n, k.opening fd < n → k.requested fd n = false ∧ k.closedCount fd n = 0
  fresh : ∀ fd, k.isOpen fd = true → 0 < k.opening fd ∧ k.closedCount fd (k.opening fd) = 0
  stays : ∀ fd, 0 < k.opening fd → k.requested fd (k.opening fd) = false → k.isOpen fd = true

theorem eventAdd_record (k : Kernel) (t : Tid) (fd : Fd) (i : UInt32) (ok : Bool) :
    (k.eventAdd t fd i ok).1.record = k.record := by
  unfold eventAdd
  by_cases h : (ok && k.isOpen fd && (k.interest t fd).isNone) = true
  · rw [if_pos h]
    rfl
  · rw [if_neg h]

theorem eventMod_record (k : Kernel) (t : Tid) (fd : Fd) (i : UInt32) (ok : Bool) :
    (k.eventMod t fd i ok).1.record = k.record := by
  unfold eventMod
  by_cases h : (ok && (k.interest t fd).isSome) = true
  · rw [if_pos h]
    rfl
  · rw [if_neg h]

theorem eventDel_record (k : Kernel) (t : Tid) (fd : Fd) (ok : Bool) :
    (k.eventDel t fd ok).1.record = k.record := by
  unfold eventDel
  by_cases h : (ok && (k.interest t fd).isSome) = true
  · rw [if_pos h]
    rfl
  · rw [if_neg h]

theorem record_eq {k k' : Kernel} (h : k'.record = k.record) :
    k'.isOpen = k.isOpen ∧ k'.opening = k.opening ∧ k'.requested = k.requested ∧
      k'.closedCount = k.closedCount := by
  simpa only [record, Prod.mk.injEq] using h

namespace Sound

variable {k k' : Kernel} {fd : Fd}

theorem congr (hk : k.Sound) (h : k'.record = k.record) : k'.Sound := by
  rcases record_eq h with ⟨h1, h2, h3, h4⟩
  constructor
  · intro g n hn
    rw [h3, h4]
    exact hk.closed g n hn
  · intro g n hn
    rw [h2] at hn
    rw [h3, h4]
    exact hk.later g n hn
  · intro g hg
    rw [h1] at hg
    rw [h2, h4]
    exact hk.fresh g hg
  · intro g hg hr
    rw [h2] at hg hr
    rw [h3] at hr
    rw [h1]
    exact hk.stays g hg hr

/-- A number that is not open is given out once more. -/
theorem openFd (hk : k.Sound) (nonblock : Bool) : (k.openFd fd nonblock).Sound := by
  constructor
  · exact hk.closed
  · intro g n hn
    by_cases hg : g = fd
    · simp only [Kernel.openFd, hg, Function.update_self] at hn
      rw [hg]
      exact hk.later fd n (by omega)
    · simp only [Kernel.openFd, Function.update_of_ne hg] at hn
      exact hk.later g n hn
  · intro g hopen
    by_cases hg : g = fd
    · simp only [Kernel.openFd, hg, Function.update_self]
      exact ⟨by omega, (hk.later fd _ (by omega)).2⟩
    · simp only [Kernel.openFd, Function.update_of_ne hg] at hopen ⊢
      exact hk.fresh g hopen
  · intro g hpos hreq
    by_cases hg : g = fd
    · simp only [Kernel.openFd, hg, Function.update_self]
    · simp only [Kernel.openFd, Function.update_of_ne hg] at hpos hreq ⊢
      exact hk.stays g hpos hreq

theorem request_opening (k : Kernel) (fd : Fd) :
    (k.request fd).requested fd (k.opening fd) = true := by
  simp [request]

-- Asking for an opening to be closed takes no other request back.
theorem request_mono {g : Fd} {n : Nat} (h : k.requested g n = true) :
    (k.request fd).requested g n = true := by
  simp only [Kernel.request]
  by_cases hg : g = fd
  · rw [hg] at h ⊢
    rw [Function.update_self]
    by_cases hn : n = k.opening fd
    · rw [hn, Function.update_self]
    · rw [Function.update_of_ne hn]
      exact h
  · rw [Function.update_of_ne hg]
    exact h

theorem request_of_ne {g : Fd} {n : Nat} (h : ¬ (g = fd ∧ n = k.opening fd)) :
    (k.request fd).requested g n = k.requested g n := by
  simp only [Kernel.request]
  by_cases hg : g = fd
  · rw [hg, Function.update_self, Function.update_of_ne (fun hn => h ⟨hg, hn⟩)]
  · rw [Function.update_of_ne hg]

theorem request (hk : k.Sound) : (k.request fd).Sound := by
  constructor
  · intro g n hn
    exact ⟨(hk.closed g n hn).1, fun hc => request_mono ((hk.closed g n hn).2 hc)⟩
  · intro g n hn
    have hne : ¬ (g = fd ∧ n = k.opening fd) := by
      rintro ⟨rfl, rfl⟩
      exact Nat.lt_irrefl _ hn
    rw [request_of_ne hne]
    exact hk.later g n hn
  · exact hk.fresh
  · intro g hpos hreq
    by_cases hg : g = fd
    · rw [hg] at hreq
      have htrue := request_opening k fd
      have hfalse : (k.request fd).requested fd (k.opening fd) = false := hreq
      rw [htrue] at hfalse
      cases hfalse
    · rw [request_of_ne (fun h => hg h.1)] at hreq
      exact hk.stays g hpos hreq

/-- The system call, when the descriptor is open and the program has asked. -/
theorem uniClose (hk : k.Sound) (hopen : 0 < k.opening fd → k.isOpen fd = true)
    (hreq : 0 < k.opening fd → k.requested fd (k.opening fd) = true) : (k.uniClose fd).Sound := by
  constructor
  · intro g n hn
    simp only [Kernel.uniClose]
    by_cases hg : g = fd
    · rw [hg, Function.update_self]
      by_cases hno : n = k.opening fd
      · -- The opening that is closed had not been closed before.
        rw [hno] at hn ⊢
        rw [Function.update_self, (hk.fresh fd (hopen hn)).2]
        exact ⟨Nat.le_refl 1, fun _ => hreq hn⟩
      · rw [Function.update_of_ne hno]
        exact hk.closed fd n hn
    · rw [Function.update_of_ne hg]
      exact hk.closed g n hn
  · intro g n hn
    have hn' : k.opening g < n := hn
    refine ⟨(hk.later g n hn').1, ?_⟩
    simp only [Kernel.uniClose]
    by_cases hg : g = fd
    · rw [hg] at hn' ⊢
      rw [Function.update_self, Function.update_of_ne (by omega)]
      exact (hk.later fd n hn').2
    · rw [Function.update_of_ne hg]
      exact (hk.later g n hn').2
  · intro g hg
    have hne : g ≠ fd := by
      rintro rfl
      simp [Kernel.uniClose] at hg
    simp only [Kernel.uniClose, Function.update_of_ne hne] at hg ⊢
    exact hk.fresh g hg
  · intro g hpos hreq'
    have hne : g ≠ fd := by
      rintro rfl
      have hfalse : k.requested g (k.opening g) = false := hreq'
      rw [hreq hpos] at hfalse
      cases hfalse
    simp only [Kernel.uniClose, Function.update_of_ne hne]
    exact hk.stays g hpos hreq'

end Sound

end Kernel

namespace Io

/-- The object `c` at `e` is not in the table of its thread's loop. -/
def Off (s : Io) (e : EvRef) (c : EventsCell) : Prop := s.entry c.obj.tid c.obj.fd ≠ some e

/-- Objects are of descriptors that have been opened. One that is not in its
    table is the only one of its descriptor, which is open and which the
    program has closed. -/
structure Accounted (s : Io) : Prop where
  kern : s.kern.Sound
  opened : ∀ e c, s.ev e = some c → 0 < s.kern.opening c.obj.fd
  off : ∀ e c, s.ev e = some c → s.Off e c → s.kern.isOpen c.obj.fd = true ∧
    s.kern.requested c.obj.fd (s.kern.opening c.obj.fd) = true
  single : ∀ e e' c c', s.ev e = some c → s.ev e' = some c' → s.Off e c → s.Off e' c' →
    c.obj.fd = c'.obj.fd → e = e'

namespace Accounted

variable {s s' : Io} {loc : McoRef → Option EvRef} {t : Tid} {fd : Fd} {e : EvRef}

/-- A change in which no opening is touched, no object leaves its table, and
    what objects there are new are in their tables. -/
theorem of_objects (ha : s.Accounted) (hrec : s'.kern.record = s.kern.record)
    (hobj : ∀ d c', s'.ev d = some c' →
      (∃ c, s.ev d = some c ∧ c'.obj.fd = c.obj.fd ∧ (s'.Off d c' → s.Off d c)) ∨
      (0 < s.kern.opening c'.obj.fd ∧ ¬ s'.Off d c')) : s'.Accounted := by
  rcases Kernel.record_eq hrec with ⟨h1, h2, h3, _⟩
  refine ⟨ha.kern.congr hrec, fun d c' hc' => ?_, fun d c' hc' hoff => ?_,
    fun d d' c c' hc hc' hoff hoff' hfd => ?_⟩
  · rw [h2]
    rcases hobj d c' hc' with ⟨c, hc, hfd, _⟩ | ⟨hpos, _⟩
    · rw [hfd]
      exact ha.opened d c hc
    · exact hpos
  · rw [h1, h2, h3]
    rcases hobj d c' hc' with ⟨c, hc, hfd, hback⟩ | ⟨_, hin⟩
    · rw [hfd]
      exact ha.off d c hc (hback hoff)
    · exact absurd hoff hin
  · rcases hobj d c hc with ⟨x, hx, hxfd, hback⟩ | ⟨_, hin⟩
    · rcases hobj d' c' hc' with ⟨x', hx', hxfd', hback'⟩ | ⟨_, hin'⟩
      · refine ha.single d d' x x' hx hx' (hback hoff) (hback' hoff') ?_
        rw [← hxfd, ← hxfd', hfd]
      · exact absurd hoff' hin'
    · exact absurd hoff hin

-- One object changes and keeps its descriptor and thread, or goes.
theorem of_update {x : EventsCell} {y : Option EventsCell} (ha : s.Accounted)
    (hrec : s'.kern.record = s.kern.record) (hx : s.ev e = some x)
    (hev : s'.ev = Function.update s.ev e y)
    (hy : ∀ z, y = some z → z.obj.fd = x.obj.fd ∧ z.obj.tid = x.obj.tid)
    (hent : ∀ d c, s.ev d = some c → s'.Off d c → s.Off d c) : s'.Accounted := by
  refine ha.of_objects hrec (fun d c' hc' => Or.inl ?_)
  rw [hev] at hc'
  by_cases hd : d = e
  · rw [hd, Function.update_self] at hc'
    rcases hy c' hc' with ⟨hfd, htid⟩
    refine ⟨x, by rw [hd, hx], hfd, fun hoff => hent d x (by rw [hd, hx]) ?_⟩
    intro hin
    rw [← hfd, ← htid] at hin
    exact hoff hin
  · rw [Function.update_of_ne hd] at hc'
    exact ⟨c', hc', rfl, hent d c' hc'⟩

-- Neither the objects nor the tables change.
theorem congr (ha : s.Accounted) (hrec : s'.kern.record = s.kern.record) (hev : s'.ev = s.ev)
    (hloop : s'.loop = s.loop) : s'.Accounted := by
  refine ha.of_objects hrec (fun d c hc => Or.inl ⟨c, by rw [← hev, hc], rfl, fun hoff hin => ?_⟩)
  refine hoff ?_
  rw [entry, hloop]
  exact hin

/-- The program asks for the current opening of `fd` to be closed. -/
theorem request (ha : s.Accounted) (fd : Fd) :
    ({ s with kern := s.kern.request fd } : Io).Accounted :=
  ⟨ha.kern.request, ha.opened,
    fun d c hc hoff => ⟨(ha.off d c hc hoff).1, Kernel.Sound.request_mono (ha.off d c hc hoff).2⟩,
    ha.single⟩

/-- A descriptor that no object outside the tables is of is closed. -/
theorem uniClose (ha : s.Accounted) (hopen : 0 < s.kern.opening fd → s.kern.isOpen fd = true)
    (hreq : 0 < s.kern.opening fd → s.kern.requested fd (s.kern.opening fd) = true)
    (hnone : ∀ d c, s.ev d = some c → s.Off d c → c.obj.fd ≠ fd) :
    ({ s with kern := s.kern.uniClose fd } : Io).Accounted := by
  refine ⟨ha.kern.uniClose hopen hreq, ha.opened, fun d c hc hoff => ?_, ha.single⟩
  have hne := hnone d c hc hoff
  refine ⟨?_, (ha.off d c hc hoff).2⟩
  simp only [Kernel.uniClose, Function.update_of_ne hne]
  exact (ha.off d c hc hoff).1

theorem openFd (ha : s.Accounted) (nonblock : Bool) (hopen : s.kern.isOpen fd = false) :
    ({ s with kern := s.kern.openFd fd nonblock } : Io).Accounted := by
  refine ⟨ha.kern.openFd nonblock, fun d c hc => ?_, fun d c hc hoff => ?_, ha.single⟩
  · by_cases hd : c.obj.fd = fd
    · simp only [Kernel.openFd, hd, Function.update_self]
      omega
    · simp only [Kernel.openFd, Function.update_of_ne hd]
      exact ha.opened d c hc
  · have hne : c.obj.fd ≠ fd := by
      intro hd
      have hopen' := (ha.off d c hc hoff).1
      rw [hd, hopen] at hopen'
      cases hopen'
    simp only [Kernel.openFd, Function.update_of_ne hne]
    exact ha.off d c hc hoff

/-- A pointer goes. If it is the last one, the object is in no table, and the
    descriptor is closed with it. -/
theorem dropped {x : EventsCell} {obj : Events} {k : Kernel} (ha : s.Accounted)
    (hx : s.ev e = some x) (hfd : obj.fd = x.obj.fd) (htid : obj.tid = x.obj.tid)
    (hrec : k.record = s.kern.record) (hlast : x.useCount ≤ 1 → s.Off e x) :
    (s.dropped e obj x.useCount k).Accounted := by
  unfold Io.dropped
  by_cases hn : x.useCount ≤ 1
  · rw [if_pos hn]
    -- First the object goes, then the descriptor is closed.
    have h1 : ({ s.setEv e none with kern := k } : Io).Accounted :=
      ha.of_update (y := none) hrec hx rfl (fun z hz => by cases hz) (fun _ _ _ hoff => hoff)
    rcases Kernel.record_eq hrec with ⟨hr1, hr2, hr3, _⟩
    have hoff := ha.off e x hx (hlast hn)
    refine h1.uniClose (fun _ => ?_) (fun _ => ?_) (fun d c hc hoff' hd => ?_)
    · rw [hfd]
      change k.isOpen x.obj.fd = true
      rw [hr1]
      exact hoff.1
    · rw [hfd]
      change k.requested x.obj.fd (k.opening x.obj.fd) = true
      rw [hr2, hr3]
      exact hoff.2
    · have hc' : Function.update s.ev e none d = some c := hc
      have hde : d ≠ e := by
        rintro rfl
        rw [Function.update_self] at hc'
        cases hc'
      rw [Function.update_of_ne hde] at hc'
      exact hde (ha.single d e c x hc' hx hoff' (hlast hn) (by rw [hd, hfd]))
  · rw [if_neg hn]
    refine ha.of_update (y := some { obj := obj, useCount := x.useCount - 1 }) hrec hx rfl
      (fun z hz => ?_) (fun _ _ _ hoff => hoff)
    injection hz with hz
    rw [← hz]
    exact ⟨hfd, htid⟩

/-- An object leaves its table, when the program has asked for its descriptor
    to be closed and no other object of it is outside the tables. -/
theorem takeOut {x : EventsCell} {l : EventLoop} (ha : s.Accounted) (hl : s.loop t = some l)
    (hent : s.entry t fd = some e) (hx : s.ev e = some x) (hfd : x.obj.fd = fd)
    (hopen : s.kern.isOpen fd = true)
    (hreq : s.kern.requested fd (s.kern.opening fd) = true)
    (hnone : ∀ d c, s.ev d = some c → s.Off d c → c.obj.fd ≠ fd) :
    (s.setTable t l fd none).Accounted := by
  -- What is outside afterwards is the object taken out, or was outside before.
  have hoff : ∀ d c, s.ev d = some c → (s.setTable t l fd none).Off d c → d = e ∨ s.Off d c := by
    intro d c hc hout
    by_cases hin : s.entry c.obj.tid c.obj.fd = some d
    · left
      by_cases hat : c.obj.tid = t ∧ c.obj.fd = fd
      · rw [hat.1, hat.2, hent] at hin
        injection hin with hin
        exact hin.symm
      · exact absurd (by rw [setTable_entry s t l fd none hl, if_neg hat, hin]) hout
    · exact Or.inr hin
  refine ⟨ha.kern, ha.opened, fun d c hc hout => ?_, fun d d' c c' hc hc' hout hout' hdd => ?_⟩
  · rcases hoff d c hc hout with rfl | hold
    · have hc' : s.ev d = some c := hc
      rw [hx] at hc'
      injection hc' with hc'
      rw [← hc', hfd]
      exact ⟨hopen, hreq⟩
    · exact ha.off d c hc hold
  · have hfde : ∀ y, s.ev e = some y → y.obj.fd = fd := by
      intro y hy
      rw [hx] at hy
      injection hy with hy
      rw [← hy, hfd]
    rcases hoff d c hc hout with rfl | hold
    · rcases hoff d' c' hc' hout' with rfl | hold'
      · rfl
      · exact absurd (by rw [← hdd, hfde c hc]) (hnone d' c' hc' hold')
    · rcases hoff d' c' hc' hout' with rfl | hold'
      · exact absurd (by rw [hdd, hfde c' hc']) (hnone d c hc hold)
      · exact ha.single d d' c c' hc hc' hold hold' hdd

/-! ### The hooks and the loop -/

theorem added {st : EventsState} {ok : Bool} (ha : s.Accounted) (hpos : 0 < s.kern.opening fd)
    (h : Added s s' t fd ok st) : s'.Accounted := by
  rcases h.eq with ⟨l, hl, rfl⟩
  refine ha.of_objects (Kernel.eventAdd_record _ _ _ _ _) (fun d c hc => ?_)
  have hc' : Function.update s.ev s.nextEv (some
      { obj := (Events.make fd kReadEvent t).setState st, useCount := 2 }) d = some c := hc
  have hent : ∀ u g, Io.entry (s.setTable t l fd (some s.nextEv)) u g
      = if u = t ∧ g = fd then some s.nextEv else s.entry u g :=
    setTable_entry s t l fd (some s.nextEv) hl
  by_cases hd : d = s.nextEv
  · right
    rw [hd, Function.update_self] at hc'
    injection hc' with hc'
    rw [← hc', hd]
    refine ⟨hpos, fun hoff => hoff ?_⟩
    exact (hent t fd).trans (if_pos ⟨rfl, rfl⟩)
  · left
    rw [Function.update_of_ne hd] at hc'
    refine ⟨c, hc', rfl, fun hoff hin => ?_⟩
    have hne : ¬ (c.obj.tid = t ∧ c.obj.fd = fd) := by
      rintro ⟨hu, hg⟩
      rw [hu, hg, h.entry] at hin
      cases hin
    exact hoff ((hent _ _).trans (by rw [if_neg hne, hin]))

/-- Entering a hooked call on a thread that has a loop, or going straight to
    the system call. -/
theorem hookEnter {ok : Bool} {r : Option EvRef} (ha : s.Accounted) (ht : s.Tidy loc)
    (hloop : s.Straight t fd ∨ (s.loop t).isSome) (h : s.hookEnter t fd ok = .ok (s', r)) :
    s'.Accounted := by
  rcases hookEnter_cases ht h with ⟨_, rfl, _⟩ | ⟨hblock, hh, mco, e, _, hcur, hcase⟩
  · exact ha
  · have hpos : 0 < s.kern.opening fd := by
      refine (ha.kern.fresh fd ?_).1
      rw [Kernel.nonblocking, Bool.or_eq_false_iff, Bool.not_eq_false'] at hblock
      exact hblock.1
    -- There is a loop, since the call does not go straight on.
    have hno := loop_of_not_straight hblock hh hcur hloop
    rcases hcase with ⟨_, hf | ⟨_, had | hst⟩⟩ | ⟨_, _, had | hst⟩
    · rcases hf.eq with ⟨x, hx, _, _, rfl⟩
      refine ha.of_update (Kernel.eventMod_record _ _ _ _ _) hx rfl (fun z hz => ?_)
        (fun _ _ _ hoff => hoff)
      injection hz with hz
      rw [← hz]
      exact ⟨rfl, rfl⟩
    · exact ha.added hpos had
    · exact absurd hst.loop hno
    · have hmap : (s.setMcoRoutine t fd mco).Accounted := ha.congr rfl rfl rfl
      exact hmap.added hpos had
    · exact absurd hst.loop hno

/-- Leaving the hooked call that `c` is in. -/
theorem hookLeave {c : McoRef} {ok : Bool} (ha : s.Accounted) (ht : s.Tidy loc)
    (hloc : loc c = some e) (h : s.hookLeave e ok = .ok s') : s'.Accounted := by
  have hk : s.held loc (.call c) = some e := hloc
  rcases ht.live hk with ⟨x, hx, hpos⟩
  rcases hookLeave_cases hx hpos h with ⟨l, hl, hent, rfl⟩ | ⟨k, rfl, hkern⟩
  · -- The object goes into the table, whose entry was free.
    refine ha.of_update (Kernel.eventAdd_record _ _ _ _ _) hx rfl (fun z hz => ?_)
      (fun d y _ hoff hin => hoff ?_)
    · injection hz with hz
      rw [← hz]
      exact ⟨rfl, rfl⟩
    · refine (setTable_entry s _ l _ (some e) hl _ _).trans ?_
      rw [if_neg, hin]
      rintro ⟨hu, hg⟩
      rw [hu, hg, hent] at hin
      cases hin
  · refine ha.dropped hx rfl rfl ?_ (fun hn hin => ?_)
    · rcases hkern with ⟨_, rfl⟩ | ⟨_, _, rfl⟩
      · rfl
      · exact Kernel.eventMod_record _ _ _ _ _
    · -- An object in its table is held there as well.
      have htwo := ht.counted.two (j := .table x.obj.tid x.obj.fd) (by intro hc; cases hc) hin hk
        (show s.count e = some x.useCount by rw [count, hx, Option.map_some])
      omega

/-- Closing an opening for the first time. -/
theorem close {ok : Bool} (ha : s.Accounted) (ht : s.Tidy loc)
    (hfirst : 0 < s.kern.opening fd → s.kern.requested fd (s.kern.opening fd) = false)
    (h : s.close t fd ok = .ok s') : s'.Accounted := by
  have hasked := ha.request fd
  have hopen : 0 < s.kern.opening fd → s.kern.isOpen fd = true :=
    fun hpos => ha.kern.stays fd hpos (hfirst hpos)
  have hreq : 0 < s.kern.opening fd →
      (s.kern.request fd).requested fd ((s.kern.request fd).opening fd) = true :=
    fun _ => Kernel.Sound.request_opening s.kern fd
  -- No object of the descriptor can have left the tables yet.
  have hnone : ∀ d c, s.ev d = some c → s.Off d c → c.obj.fd ≠ fd := by
    intro d c hc hoff hd
    have hfalse := hfirst (by rw [← hd]; exact ha.opened d c hc)
    have htrue := (ha.off d c hc hoff).2
    rw [hd, hfalse] at htrue
    cases htrue
  rcases close_cases ht h with ⟨_, rfl⟩ | ⟨_, _, rfl⟩ | ⟨_, l, e, x, hl, hent, hx, hfd, htid, rfl⟩
  · exact hasked.uniClose hopen hreq hnone
  · refine (hasked.uniClose hopen hreq hnone).congr rfl ?_ ?_
    · exact unmapped_ev s t fd
    · exact unmapped_loop s t fd
  · have hpos : 0 < s.kern.opening fd := by
      rw [← hfd]
      exact ha.opened e x hx
    have hout := hasked.takeOut hl hent hx hfd (hopen hpos) (hreq hpos) hnone
    have hout' : ((s.unmapped t fd).setTable t l fd none).ev = s.ev := unmapped_ev s t fd
    -- The object is where it belongs no longer, so it may go.
    have hfdel : (x.obj.setState .DEL).fd = x.obj.fd := rfl
    have hd := hout.dropped hx hfdel rfl (Kernel.eventDel_record (s.kern.request fd) t fd ok)
      (fun _ hin => ?_)
    · refine hd.congr ?_ ?_ ?_
      · unfold Io.dropped
        by_cases hn : x.useCount ≤ 1
        · rw [if_pos hn, if_pos hn]
        · rw [if_neg hn, if_neg hn]
      · unfold Io.dropped
        by_cases hn : x.useCount ≤ 1
        · rw [if_pos hn, if_pos hn]
          simp only [setEv, hout']
          rfl
        · rw [if_neg hn, if_neg hn]
          simp only [setEv, hout']
          rfl
      · unfold Io.dropped
        by_cases hn : x.useCount ≤ 1
        · rw [if_pos hn, if_pos hn]
          simp only [setTable, setEv, unmapped_loop]
        · rw [if_neg hn, if_neg hn]
          simp only [setTable, setEv, unmapped_loop]
    · rw [hfd, htid] at hin
      have hin' :=
        (setTable_entry { s with kern := s.kern.request fd } t l fd none hl t fd).symm.trans
        hin
      rw [if_pos ⟨rfl, rfl⟩] at hin'
      cases hin'

/-- A reported event. -/
theorem loopEntry {p : PollerEvent} {r : Option McoRef} (ha : s.Accounted) (ht : s.Tidy loc)
    (h : s.loopEntry t p = .ok (s', r)) : s'.Accounted := by
  rcases loopEntry_cases ht h with ⟨_, rfl, _⟩ | ⟨l, e, x, _, _, hx, _, _, rfl, _⟩
  · exact ha
  · have hkeep := (x.obj.setMutable p.event).eventHandleAble_keeps
    refine ha.of_update rfl hx rfl (fun z hz => ?_) (fun _ _ _ hoff => hoff)
    injection hz with hz
    rw [← hz]
    exact ⟨hkeep.1, hkeep.2.1⟩

/-- A new loop. -/
theorem newLoop (ha : s.Accounted) (hl : s.loop t = none) (hopen : s.kern.isOpen fd = false)
    (h : s.newLoop t fd = .ok s') : s'.Accounted := by
  rcases newLoop_cases h with ⟨l, _, _, hev, rfl⟩
  refine (ha.openFd true hopen).of_objects (Kernel.eventAdd_record _ _ _ _ _) (fun d c hc => ?_)
  have hc' : Function.update s.ev s.nextEv
      (some { obj := Events.make fd kReadEvent t, useCount := 2 }) d = some c := hc
  by_cases hd : d = s.nextEv
  · right
    rw [hd, Function.update_self] at hc'
    injection hc' with hc'
    rw [← hc', hd]
    refine ⟨?_, fun hoff => hoff ?_⟩
    · simp [Kernel.openFd, Events.make]
    · simp [entry, Events.make, hev]
  · left
    rw [Function.update_of_ne hd] at hc'
    refine ⟨c, hc', rfl, fun hoff hin => hoff ?_⟩
    -- The thread had no loop, so the object was in another thread's table.
    have hu : c.obj.tid ≠ t := by
      intro hu
      rcases loop_of_entry hin with ⟨l', hl', _⟩
      have hl'' : s.loop c.obj.tid = some l' := hl'
      rw [hu, hl] at hl''
      cases hl''
    simp only [entry, Function.update_of_ne hu]
    exact hin

end Accounted

end Io

namespace Sys

variable {s s' : Sys}

/-- `close` is not called for an opening it has been called for. -/
def ClosesOnce (s : Sys) : SysOp → Prop
  | .close _ fd _ =>
    0 < s.io.kern.opening fd → s.io.kern.requested fd (s.io.kern.opening fd) = false
  | _ => True

/-- A hooked call that does not go straight to the system call is made on a
    thread that has a loop. -/
def Looped (s : Sys) : SysOp → Prop
  | .read t fd _ _ _ => s.io.Straight t fd ∨ (s.io.loop t).isSome
  | .accept t fd _ _ _ => s.io.Straight t fd ∨ (s.io.loop t).isSome
  | _ => True

instance (s : Sys) : ∀ a, Decidable (s.ClosesOnce a)
  | .close _ _ _ => inferInstanceAs (Decidable (_ → _))
  | .newLoop _ _ => isTrue trivial
  | .openFd _ _ => isTrue trivial
  | .spawn _ => isTrue trivial
  | .resume _ _ _ => isTrue trivial
  | .yield _ _ => isTrue trivial
  | .finish _ _ => isTrue trivial
  | .read _ _ _ _ _ => isTrue trivial
  | .accept _ _ _ _ _ => isTrue trivial
  | .wake _ _ => isTrue trivial
  | .poll _ _ => isTrue trivial
  | .dispatch _ _ => isTrue trivial

instance (s : Io) (t : Tid) (fd : Fd) : Decidable (s.Straight t fd) :=
  inferInstanceAs (Decidable (_ ∨ _ ∨ _ ∧ _))

instance (s : Sys) : ∀ a, Decidable (s.Looped a)
  | .read _ _ _ _ _ => inferInstanceAs (Decidable (_ ∨ _))
  | .accept _ _ _ _ _ => inferInstanceAs (Decidable (_ ∨ _))
  | .newLoop _ _ => isTrue trivial
  | .openFd _ _ => isTrue trivial
  | .spawn _ => isTrue trivial
  | .resume _ _ _ => isTrue trivial
  | .yield _ _ => isTrue trivial
  | .finish _ _ => isTrue trivial
  | .wake _ _ => isTrue trivial
  | .close _ _ _ => isTrue trivial
  | .poll _ _ => isTrue trivial
  | .dispatch _ _ => isTrue trivial

/-- The tables and the objects before the first operation. -/
theorem accounted_init (h : SysInit s) : s.io.Accounted := by
  have hnone : ∀ {e c}, s.io.ev e ≠ some c := by
    intro e c hc
    rw [h.ev e] at hc
    cases hc
  refine ⟨⟨fun fd n _ => ?_, fun fd n _ => ⟨h.requested fd n, h.closedCount fd n⟩,
    fun fd hopen => ?_, fun fd hpos => ?_⟩, fun _ _ hc => absurd hc hnone,
    fun _ _ hc => absurd hc hnone, fun _ _ _ _ hc => absurd hc hnone⟩
  · rw [h.closedCount fd n]
    exact ⟨by omega, fun hc => by omega⟩
  · rw [h.isOpen fd] at hopen
    cases hopen
  · rw [h.opening fd] at hpos
    omega

theorem accounted_leave {c : McoRef} {ok : Bool} (ht : s.Tidy) (ha : s.io.Accounted)
    (h : s.leave c ok = .ok s') : s'.io.Accounted := by
  rcases leave_cases h with ⟨fr, io, hfr, hl, rfl⟩
  exact ha.hookLeave ht.io (c := c) (by rw [locals, hfr, Option.map_some]) hl

theorem accounted_hooked {t : Tid} {fd : Fd} {sp : Nat} {ok ok' : Bool} (ht : s.Tidy)
    (ha : s.io.Accounted) (hloop : s.io.Straight t fd ∨ (s.io.loop t).isSome)
    (h : s.hooked t fd sp ok ok' = .ok s') : s'.io.Accounted := by
  have hstart : ∀ c, (s.reading fd c).Accounted := fun c => ha.congr rfl rfl rfl
  rcases hooked_cases h with ⟨c, _, ⟨io, hio, rfl⟩ | ⟨io, e, w, hio, _, hcase⟩⟩
  · exact (hstart c).hookEnter (ht.io.congr rfl rfl rfl) hloop hio
  · have hread : (s.reading fd c).Tidy s.locals := ht.io.congr rfl rfl rfl
    have hin := (hstart c).hookEnter hread hloop hio
    rcases hcase with ⟨_, rfl⟩ | ⟨_, io', hl, rfl⟩
    · exact hin
    · -- Nothing was suspended, and the call ends at once.
      rcases hread.hookEnter c hio with ⟨hr, _⟩ | ⟨e', hr, htidy⟩
      · cases hr
      · injection hr with hr
        rw [← hr] at htidy
        exact hin.hookLeave htidy (c := c) (Function.update_self _ _ _) hl

/-- Every operation keeps the openings in order. -/
theorem accounted_step {a : SysOp} (ht : s.Tidy) (ha : s.io.Accounted) (hsup : s.Supplied a)
    (hclose : s.ClosesOnce a) (hloop : s.Looped a) (h : s.step a = .ok s') : s'.io.Accounted := by
  cases a with
  | newLoop t fd =>
      rcases newLoop_ok h with ⟨io, hio, rfl⟩
      exact ha.newLoop hsup.1 hsup.2 hio
  | openFd fd nonblock =>
      injection h with h
      rw [← h]
      exact ha.openFd nonblock hsup
  | spawn c =>
      injection h with h
      rw [← h]
      exact ha
  | resume t c e =>
      rcases mcosopsResume_ok h with ⟨w, _, rfl⟩
      exact ha.congr rfl rfl rfl
  | yield t sp =>
      rcases mcosopsYield_ok h with ⟨w, rfl, _⟩
      exact ha
  | finish t sp =>
      rcases finish_ok h with ⟨w, _, rfl⟩
      exact ha
  | read t fd sp ok ok' => exact accounted_hooked ht ha hloop h
  | accept t fd sp ok ok' => exact accounted_hooked ht ha hloop h
  | wake t ok =>
      rcases wake_ok h with ⟨c, _, h⟩
      exact accounted_leave ht ha h
  | close t fd ok =>
      rcases close_ok h with ⟨io, hio, rfl⟩
      exact ha.close ht.io hclose hio
  | poll t events =>
      injection h with h
      rw [← h]
      exact ha
  | dispatch t e =>
      rcases dispatch_cases h with ⟨p, rest, io, r, _, hio, hcase⟩
      have hent := ha.loopEntry ht.io hio
      rcases hcase with ⟨_, rfl⟩ | ⟨mco, w, _, _, rfl⟩
      · exact hent
      · exact hent.congr rfl rfl rfl

end Sys

end Fasco
