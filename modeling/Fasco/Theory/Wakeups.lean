import Fasco.Lib.Masks
import Fasco.Theory.OneLoop

/-!
# Wake-ups

The loop resumes the coroutine the pool has for the descriptor of a reported
event, if `eventHandleAble` lets the event pass. The pool has a coroutine for
every descriptor it has ever read from, so this is the right coroutine, but it
may be suspended for another descriptor by now.

The test is meant to see to that: of an object that no longer asks for reading
it drops read events. Errors and hang-ups it does not drop, and the kernel
reports these for every descriptor of an epoll set. There is a second gap.
A descriptor may be closed, and its number opened and read from again, while
an event of the first opening still waits in the batch.

`prompt_along_iff` says that these are the only two ways in which the loop can
resume a coroutine out of a hooked call that was not reported ready, for every
run of one loop thread in which no descriptor is shared by two coroutines, and
whatever the kernel answers.

## Main definitions

* `Sys.UsedByOne`: An opening is used by one coroutine.
* `Io.resumes`, `Sys.Prompt`: The loop resumes a suspended call on its own
  descriptor.
* `Sys.Timely`: The two conditions.
* `Sys.Settled`: What holds of every descriptor.

## Theorems

* `eventHandleAble_idle`, `eventHandleAble_reading`: What the test lets pass.
* `settled_step`: The invariant.
* `prompt_iff`: One reported event.
* `prompt_along_iff`: The reported events of a run.
* `resumed_by_hangup`: A coroutine resumed out of the wrong call.
-/

namespace Fasco

open Fallible Masks

namespace Events

variable {o : Events}

/-- What can be reported for a descriptor that is read from. -/
def readMask : UInt32 := kReadEvent ||| pollErr ||| pollHup

-- Nobody is told of readiness for writing.
theorem no_write {x : UInt32} (hw : Within x readMask) : x &&& pollOut = 0 := by
  rw [and_eq_zero_iff]
  intro i hi hb
  exact and_eq_zero_iff.mp (show readMask &&& pollOut = 0 by decide) i hi
    (within_iff.mp hw i hi hb)

-- Read events are dropped from what is reported for an object that asks for
-- nothing, and there are no write events.
theorem eventHandleAble_dropped (hst : o.state = .MOD) (hor : o.eorigin = 0)
    (hw : Within o.mutable_ readMask) : o.eventHandleAble.1 =
      ((if o.isRead = true then o.mutable_ &&& ~~~kReadEvent else o.mutable_) != kNoneEvent) := by
  have hdel : o.isdel = false := by simp [isdel, hst]
  have hmod : o.ismod = true := by simp [ismod, hst]
  have hout := no_write hw
  have hout' : (o.mutable_ &&& ~~~kReadEvent) &&& pollOut = 0 := by
    rw [not_and_and (by decide), hout]
  unfold eventHandleAble
  by_cases hr : o.isRead = true
  · simp [hdel, hmod, hr, originRead, containsAtLeastOneEvents, hor, isWrite, deleteEventMutable,
      hout']
  · simp [hdel, hmod, hr, isWrite, containsAtLeastOneEvents, hout]

/-- Of an object that asks for nothing, errors and hang-ups pass. -/
theorem eventHandleAble_idle (hst : o.state = .MOD) (hor : o.eorigin = 0)
    (hw : Within o.mutable_ readMask) :
    o.eventHandleAble.1 = true ↔ o.mutable_ &&& (pollErr ||| pollHup) ≠ 0 := by
  rw [eventHandleAble_dropped hst hor hw, bne_iff_ne, not_iff_not]
  constructor
  · intro h
    by_cases hr : o.isRead = true
    · rw [if_pos hr] at h
      have hkeep := not_and_and (x := o.mutable_)
        (show kReadEvent &&& (pollErr ||| pollHup) = 0 by decide)
      rw [h] at hkeep
      exact hkeep.symm
    · rw [if_neg hr] at h
      rw [h]
      rfl
  · intro h
    have hread : Within o.mutable_ kReadEvent := hw.drop h
    by_cases hr : o.isRead = true
    · rw [if_pos hr]
      exact hread
    · rw [if_neg hr]
      refine hread.eq_zero (m := pollIn ||| pollPri ||| pollRdHup) (by decide) ?_
      simpa [isRead, containsAtLeastOneEvents] using hr

/-- Of an object that asks for reading, everything passes. -/
theorem eventHandleAble_reading (hst : o.state = .NEW ∨ o.state = .MOD)
    (hor : o.eorigin = kReadEvent) (hw : Within o.mutable_ readMask) :
    o.eventHandleAble.1 = true ↔ o.mutable_ ≠ 0 ∨ o.state = .NEW := by
  have hyes : o.originRead = true := by
    rw [originRead, hor]
    decide
  have hout := no_write hw
  unfold eventHandleAble
  rcases hst with hst | hst
  · simp [isdel, ismod, hst]
  · simp [isdel, ismod, hst, hyes, isWrite, containsAtLeastOneEvents, hout, kNoneEvent]

end Events

/-- An event that passes the test, for a descriptor other than the loop's own,
    resumes the coroutine the pool has for it. -/
theorem Io.loopEntry_passed {s : Io} {loc : McoRef → Option EvRef} {t : Tid} {p : PollerEvent}
    {l : EventLoop} {e : EvRef} {x : EventsCell} (ht : s.Tidy loc) (hl : s.loop t = some l)
    (he : s.entry t p.fd = some e) (hx : s.ev e = some x) (hw : l.wakeFd ≠ p.fd)
    (hh : (x.obj.setMutable p.event).eventHandleAble.1 = true) :
    ∃ io, s.loopEntry t p = .ok (io, s.getMcoRoutine t p.fd) := by
  have hev : l.events p.fd = some e := by rw [← he, entry_of_loop hl]
  have hfd : (x.obj.setMutable p.event).eventHandleAble.2.fd = p.fd := by
    rw [(x.obj.setMutable p.event).eventHandleAble_keeps.1]
    exact (ht.tagged t p.fd e x he hx).1
  refine ⟨s.setEv e (some { x with obj := (x.obj.setMutable p.event).eventHandleAble.2 }), ?_⟩
  simp only [loopEntry, hl, hev, hx, hh, hfd, if_neg hw, Bool.not_true, Bool.false_eq_true,
    if_false]
  rfl

/-- The coroutine the loop resumes for a reported event. -/
def Io.resumes (s : Io) (t : Tid) (p : PollerEvent) : Option McoRef :=
  match s.loopEntry t p with
  | .ok r => r.2
  | .error _ => none

theorem Io.resumes_some {s : Io} {t : Tid} {p : PollerEvent} {c : McoRef} :
    s.resumes t p = some c ↔ ∃ io, s.loopEntry t p = .ok (io, some c) := by
  unfold resumes
  cases h : s.loopEntry t p with
  | ok r =>
      constructor
      · intro hr
        exact ⟨r.1, by rw [← hr]⟩
      · rintro ⟨io, hio⟩
        injection hio with hio
        rw [hio]
  | error x =>
      constructor
      · intro hr
        cases hr
      · rintro ⟨io, hio⟩
        cases hio

namespace Sys

/-- The coroutine that calls on an opening is the one that has done so
    before. -/
def UsedByOne (s : Sys) : SysOp → Prop
  | .read t fd _ _ _ => ∀ c, s.w.exec t = some c → ∀ u, s.io.kern.user fd = some u → u = c
  | .accept t fd _ _ _ => ∀ c, s.w.exec t = some c → ∀ u, s.io.kern.user fd = some u → u = c
  | .close t fd _ => ∀ c, s.w.exec t = some c → ∀ u, s.io.kern.user fd = some u → u = c
  | _ => True

/-- A run of one loop thread whose coroutines share no descriptor. -/
def Alone (t : Tid) (s : Sys) (a : SysOp) : Prop :=
  s.Supplied a ∧ s.FromLoop t a ∧ s.Looped a ∧ s.UsedByOne a

instance (s : Sys) : ∀ a, Decidable (s.UsedByOne a)
  | .read _ _ _ _ _ => inferInstanceAs (Decidable (∀ c, _ = some c → ∀ u, _ = some u → _))
  | .accept _ _ _ _ _ => inferInstanceAs (Decidable (∀ c, _ = some c → ∀ u, _ = some u → _))
  | .close _ _ _ => inferInstanceAs (Decidable (∀ c, _ = some c → ∀ u, _ = some u → _))
  | .newLoop _ _ => isTrue trivial
  | .openFd _ _ => isTrue trivial
  | .spawn _ => isTrue trivial
  | .resume _ _ _ => isTrue trivial
  | .yield _ _ => isTrue trivial
  | .finish _ _ => isTrue trivial
  | .wake _ _ => isTrue trivial
  | .poll _ _ => isTrue trivial
  | .dispatch _ _ => isTrue trivial

instance (t : Tid) (s : Sys) (a : SysOp) : Decidable (s.Alone t a) :=
  inferInstanceAs (Decidable (_ ∧ _ ∧ _ ∧ _))

/-- A coroutine that the loop resumes out of a hooked call is resumed because
    the descriptor of the call was reported, in the opening the call is on. -/
def Prompt (s : Sys) : SysOp → Prop
  | .dispatch t _ => ∀ p rest c fr, s.batch t = p :: rest → s.io.resumes t p = some c →
      s.frame c = some fr → fr.fd = p.fd ∧ fr.opening = p.opening
  | _ => True

/-- When the loop comes to an event for a descriptor other than its own, and
    the coroutine the pool has for it is suspended in a hooked call: if the
    object asks for nothing, the event is no error and no hang-up, and if it
    asks for something, the descriptor has not been opened again since the
    event was reported. An event without a bit, which `epoll_wait` does not
    return, would count for a new object only. -/
def Timely (s : Sys) : SysOp → Prop
  | .dispatch t _ => ∀ p rest l c fr i st, s.batch t = p :: rest → s.io.loop t = some l →
      l.wakeFd ≠ p.fd → s.io.getMcoRoutine t p.fd = some c → s.frame c = some fr →
      s.io.asks t p.fd = some (i, st) →
      (i = 0 → p.event &&& (pollErr ||| pollHup) = 0) ∧
        (i ≠ 0 → (p.event ≠ 0 ∨ st = .NEW) → p.opening = s.io.kern.opening p.fd)
  | _ => True

variable {s s' : Sys} {t : Tid} {fd : Fd} {sp : Nat} {ok ok' : Bool}

/-- What holds of a descriptor: the coroutine the pool has for it is the one
    that uses it; if its object asks for something, a coroutine is suspended
    for it, except for the loop's own; and the kernel has been asked for reading
    at most. -/
structure Settled (t : Tid) (s : Sys) (fd : Fd) : Prop where
  mapped : ∀ c, s.io.getMcoRoutine t fd = some c →
    s.io.kern.user fd = some c ∧ s.io.kern.isOpen fd = true
  asks : ∀ i st, s.io.asks t fd = some (i, st) → (∃ l, s.io.loop t = some l ∧ l.wakeFd = fd) ∨
    (i = 0 ∧ st = .MOD) ∨ ∃ c fr, s.frame c = some fr ∧ fr.fd = fd
  interest : ∀ i, s.io.kern.interest t fd = some i → Within i kReadEvent

-- A descriptor that an operation does not concern.
theorem Settled.keep (hq : s.Settled t fd) (hv : s'.io.view t fd = s.io.view t fd)
    (hl : ∀ l, s.io.loop t = some l → ∃ l', s'.io.loop t = some l' ∧ l'.wakeFd = l.wakeFd)
    (hf : ∀ c fr, s.frame c = some fr → fr.fd = fd → s'.frame c = some fr) : s'.Settled t fd := by
  have h1 : s'.io.getMcoRoutine t fd = s.io.getMcoRoutine t fd := congrArg FdView.coroutine hv
  have h2 : s'.io.asks t fd = s.io.asks t fd := congrArg FdView.asks hv
  have h3 : s'.io.kern.view t fd = s.io.kern.view t fd := congrArg FdView.kern hv
  have h4 : s'.io.kern.interest t fd = s.io.kern.interest t fd := congrArg KernView.interest h3
  have h5 : s'.io.kern.isOpen fd = s.io.kern.isOpen fd := congrArg KernView.isOpen h3
  have h6 : s'.io.kern.user fd = s.io.kern.user fd := congrArg KernView.user h3
  refine ⟨fun c hc => ?_, fun i st hi => ?_, fun i hi => hq.interest i (by rw [← h4, hi])⟩
  · rw [h5, h6]
    exact hq.mapped c (by rw [← h1, hc])
  · rcases hq.asks i st (by rw [← h2, hi]) with ⟨l, hl0, hw⟩ | hidle | ⟨c, fr, hfr, hfd⟩
    · rcases hl l hl0 with ⟨l', hl', hw'⟩
      exact Or.inl ⟨l', hl', by rw [hw', hw]⟩
    · exact Or.inr (Or.inl hidle)
    · exact Or.inr (Or.inr ⟨c, fr, hf c fr hfr hfd, hfd⟩)

/-- The descriptor of a call that has been left: its object asks for nothing. -/
theorem settled_left {i : Io} {st : EventsState} (hl : i.Left s'.io t fd ok)
    (hmap : ∀ c, i.getMcoRoutine t fd = some c →
      i.kern.user fd = some c ∧ i.kern.isOpen fd = true)
    (hasks : i.asks t fd = some (kReadEvent, st))
    (hint : ∀ m, i.kern.interest t fd = some m → Within m kReadEvent) : s'.Settled t fd := by
  rcases hl.asks with ⟨m, st', hm, hm', hk⟩
  rw [hasks] at hm
  injection hm with hm
  injection hm with hm _
  have hnone : m &&& ~~~kReadEvent = 0 := by
    rw [← hm]
    decide
  rw [hnone] at hm' hk
  have hv := @Kernel.eventMod_view_self i.kern t fd 0 ok
  rw [← hk] at hv
  refine ⟨fun c hc => ?_, fun j sj hj => ?_, fun j hj => ?_⟩
  · have hc' : i.getMcoRoutine t fd = some c := by
      rw [← hc, Io.getMcoRoutine, Io.getMcoRoutine, hl.pool]
    rcases hmap c hc' with ⟨hu, ho⟩
    exact ⟨(congrArg KernView.user hv).trans hu, (congrArg KernView.isOpen hv).trans ho⟩
  · rw [hm'] at hj
    injection hj with hj
    injection hj with hj hsj
    exact Or.inr (Or.inl ⟨hj.symm, hsj.symm⟩)
  · have hi : s'.io.kern.interest t fd = _ := congrArg KernView.interest hv
    rw [hj] at hi
    by_cases ha : (i.kern.eventMod t fd 0 ok).2 = true
    · simp only [if_pos ha] at hi
      injection hi with hi
      rw [hi]
      decide
    · simp only [if_neg ha] at hi
      exact hint j hi.symm

-- The kernel notes that `c` reads, which concerns the descriptor only.
theorem reading_view {c : McoRef} {g : Fd} (hg : g ≠ fd) :
    (s.reading fd c).view t g = s.io.view t g := by
  refine Io.view_congr rfl rfl (fun _ _ => rfl) ?_
  simp only [reading, Kernel.view, Kernel.use, Function.update_of_ne hg]

/-- A hooked call that is made of a coroutine that has used the descriptor
    before. It goes straight to the system call, or it has been entered and the
    coroutine is suspended, or it has been left again. -/
theorem settled_hooked (ht : s.Tidy) (hsh : s.Shallow t) (hq : ∀ fd, s.Settled t fd)
    (hin : s.InCoroutine t)
    (huse : ∀ c, s.w.exec t = some c → ∀ u, s.io.kern.user fd = some u → u = c)
    (hl : s.io.Straight t fd ∨ (s.io.loop t).isSome) (h : s.hooked t fd sp ok ok' = .ok s')
    (g : Fd) : s'.Settled t g := by
  rcases hooked_effect ht hsh hin hl h with ⟨c, hx, hfr, _, hcase⟩
  have huser : (s.reading fd c).kern.user fd = some c := Function.update_self _ _ _
  have hmap : ∀ d, s.io.getMcoRoutine t fd = some d →
      (s.reading fd c).kern.user fd = some d ∧ s.io.kern.isOpen fd = true := by
    intro d hd
    rcases (hq fd).mapped d hd with ⟨hu, ho⟩
    rw [huser, huse c hx d hu]
    exact ⟨rfl, ho⟩
  rcases hcase with ⟨_, hf, hio⟩ | ⟨io, e, hent, _, hcase⟩
  · by_cases hg : g = fd
    · rw [hg]
      refine ⟨fun d hd => ?_, fun i st hi => ?_, fun i hi => ?_⟩
      · rw [hio] at hd ⊢
        exact hmap d hd
      · rw [hio] at hi ⊢
        rw [hf]
        exact (hq fd).asks i st hi
      · rw [hio] at hi
        exact (hq fd).interest i hi
    · exact (hq g).keep (by rw [hio, reading_view hg])
        (fun l hl => ⟨l, by rw [hio]; exact hl, rfl⟩) (fun d fr hd _ => by rw [hf, hd])
  · -- The call has been entered.
    have hkern := (s.reading fd c).askCtl_view_self t fd ok
    rw [← hent.kern] at hkern
    have hmap' : ∀ d, io.getMcoRoutine t fd = some d →
        io.kern.user fd = some d ∧ io.kern.isOpen fd = true := by
      intro d hd
      rw [hent.coroutine] at hd
      refine ⟨((congrArg KernView.user hkern).trans huser).trans hd, ?_⟩
      exact (serves_entered hent).isOpen
    have hint : ∀ m, io.kern.interest t fd = some m → Within m kReadEvent := by
      intro m hm
      have hi : io.kern.interest t fd = _ := congrArg KernView.interest hkern
      rw [hm] at hi
      by_cases hc : ((s.reading fd c).askCtl t fd ok).2 = true
      · simp only [if_pos hc] at hi
        injection hi with hi
        rw [hi]
        decide
      · simp only [if_neg hc] at hi
        exact (hq fd).interest m hi.symm
    rcases hent.asks with ⟨st, hasks, _⟩
    rcases hcase with ⟨hio, hf⟩ | ⟨hf, hleft⟩
    · by_cases hg : g = fd
      · rw [hg]
        refine ⟨by rw [hio]; exact hmap', fun i st' _ => Or.inr (Or.inr ⟨c,
          { fd := fd, event := e, opening := s.io.kern.opening fd }, ?_, rfl⟩),
          by rw [hio]; exact hint⟩
        rw [hf, Function.update_self]
      · refine (hq g).keep (by rw [hio, hent.other g hg, reading_view hg])
          (fun l hl => by rw [hio]; exact hent.loop t l hl) (fun d fr hd _ => ?_)
        have hdc : d ≠ c := by
          rintro rfl
          rw [hfr] at hd
          cases hd
        rw [hf, Function.update_of_ne hdc, hd]
    · by_cases hg : g = fd
      · rw [hg]
        exact settled_left hleft hmap' hasks hint
      · exact (hq g).keep (by rw [hleft.other g hg, hent.other g hg, reading_view hg])
          (fun l hl => by rw [hleft.loop]; exact hent.loop t l hl)
          (fun d fr hd _ => by rw [hf, hd])

/-- The loop is made with its own descriptor, the `eventfd`. -/
theorem settled_newLoop (hq : ∀ fd, s.Settled t fd) (hnone : s.io.loop t = none)
    (hshut : s.io.kern.isOpen fd = false) (h : s.step (.newLoop t fd) = .ok s') (g : Fd) :
    s'.Settled t g := by
  rcases newLoop_ok h with ⟨io, hio, rfl⟩
  rcases Io.newLoop_cases hio with ⟨l, hwake, _, hev, rfl⟩
  by_cases hg : g = fd
  · rw [hg]
    refine ⟨fun c hc => ?_, fun i st _ => Or.inl ⟨l, Function.update_self _ _ _, hwake⟩,
      fun i hi => ?_⟩
    · have hopen := ((hq fd).mapped c hc).2
      rw [hshut] at hopen
      cases hopen
    · have hv := @Kernel.eventAdd_view_self (s.io.kern.openFd fd true) t fd kReadEvent true
      have hi' :
          ((s.io.kern.openFd fd true).eventAdd t fd kReadEvent true).1.interest t fd = _ :=
        congrArg KernView.interest hv
      rw [hi] at hi'
      by_cases hc : ((s.io.kern.openFd fd true).eventAdd t fd kReadEvent true).2 = true
      · simp only [if_pos hc] at hi'
        injection hi' with hi'
        rw [hi']
        decide
      · simp only [if_neg hc] at hi'
        exact (hq fd).interest i hi'.symm
  · have hno : s.io.entry t g = none := by rw [Io.entry, hnone, Option.bind_none]
    refine (hq g).keep (Io.view_congr rfl ?_ (fun d hd => ?_)
      ((Kernel.eventAdd_view hg).trans (Kernel.openFd_view hg true))) (fun l' hl' => ?_)
      (fun _ _ hd _ => hd)
    · rw [hno]
      simp [Io.entry, hev, Function.update_of_ne hg]
    · rw [hno] at hd
      cases hd
    · rw [hnone] at hl'
      cases hl'

/-- A hooked call that comes back from its yield. -/
theorem settled_wake (ht : s.Tidy) (hs : s.Served t) (hq : ∀ fd, s.Settled t fd)
    (h : s.step (.wake t ok) = .ok s') (g : Fd) : s'.Settled t g := by
  rcases wake_ok h with ⟨c, _, h⟩
  rcases leave_cases h with ⟨fr, _, hfr, _⟩
  have hserve := hs c fr hfr
  rcases leave_effect ht hfr hserve.entry h with ⟨hleft, hf, _⟩
  by_cases hg : g = fr.fd
  · rcases hserve.asks with ⟨st, hasks, _⟩
    rw [hg]
    exact settled_left hleft (hq fr.fd).mapped hasks (hq fr.fd).interest
  · refine (hq g).keep (hleft.other g hg) (fun l hl => ⟨l, by rw [hleft.loop]; exact hl, rfl⟩)
      (fun d fr' hd hfd => ?_)
    have hdc : d ≠ c := by
      rintro rfl
      rw [hfr] at hd
      injection hd with hd
      exact hg (by rw [← hfd, hd])
    rw [hf, Function.update_of_ne hdc, hd]

/-- A hooked close, after which nothing is left of the descriptor. -/
theorem settled_close (ht : s.Tidy) (hq : ∀ fd, s.Settled t fd) (hhook : s.io.hookable = true)
    (h : s.step (.close t fd ok) = .ok s') (g : Fd) : s'.Settled t g := by
  rcases close_ok h with ⟨io, hio, rfl⟩
  have hc := Io.closed ht.io hhook hio
  by_cases hg : g = fd
  · rw [hg]
    refine ⟨fun c hc' => ?_, fun i st hi => ?_, fun i hi => ?_⟩
    · have hnone : io.getMcoRoutine t fd = some c := hc'
      rw [hc.coroutine] at hnone
      cases hnone
    · have hnone : io.asks t fd = some (i, st) := hi
      rw [Io.asks_of_none hc.entry] at hnone
      cases hnone
    · have hi' : io.kern.interest t fd = some i := hi
      rcases hc.interest with hn | hn
      · rw [hn] at hi'
        cases hi'
      · exact (hq fd).interest i (by rw [← hn, hi'])
  · exact (hq g).keep (hc.other g hg) (fun l hl => hc.loop t l hl) (fun _ _ hd _ => hd)

/-- Every operation leaves every descriptor settled. -/
theorem settled_step {a : SysOp} (ht : s.Tidy) (hsh : s.Shallow t) (hs : s.Served t)
    (hq : ∀ fd, s.Settled t fd) (hhook : s.io.hookable = true) (ha : s.Alone t a)
    (h : s.step a = .ok s') (g : Fd) : s'.Settled t g := by
  rcases ha with ⟨hsup, hon, hloop, hone⟩
  cases a with
  | newLoop u fd =>
      obtain rfl := hon.thread rfl
      exact settled_newLoop hq hsup.1 hsup.2 h g
  | openFd fd nonblock =>
      injection h with h
      rw [← h]
      by_cases hg : g = fd
      · rw [hg]
        refine ⟨fun c hc => ?_, (hq fd).asks, (hq fd).interest⟩
        have hopen := ((hq fd).mapped c hc).2
        have hshut : s.io.kern.isOpen fd = false := hsup
        rw [hshut] at hopen
        cases hopen
      · exact (hq g).keep (Io.view_congr rfl rfl (fun _ _ => rfl) (Kernel.openFd_view hg nonblock))
          (fun l hl => ⟨l, hl, rfl⟩) (fun _ _ hd _ => hd)
  | spawn c =>
      injection h with h
      rw [← h]
      exact (hq g).keep rfl (fun l hl => ⟨l, hl, rfl⟩) (fun _ _ hd _ => hd)
  | resume u c e =>
      rcases mcosopsResume_ok h with ⟨w, _, rfl⟩
      exact (hq g).keep Io.setCurMco_view (fun l hl => ⟨l, hl, rfl⟩) (fun _ _ hd _ => hd)
  | yield u sp =>
      rcases mcosopsYield_ok h with ⟨w, rfl, _⟩
      exact (hq g).keep rfl (fun l hl => ⟨l, hl, rfl⟩) (fun _ _ hd _ => hd)
  | finish u sp =>
      rcases finish_ok h with ⟨w, _, rfl⟩
      exact (hq g).keep rfl (fun l hl => ⟨l, hl, rfl⟩) (fun _ _ hd _ => hd)
  | read u fd sp ok ok' =>
      obtain rfl := hon.thread rfl
      exact settled_hooked ht hsh hq hsup.1 hone hloop h g
  | accept u fd sp ok ok' =>
      obtain rfl := hon.thread rfl
      exact settled_hooked ht hsh hq hsup.1 hone hloop h g
  | wake u ok =>
      obtain rfl := hon.thread rfl
      exact settled_wake ht hs hq h g
  | close u fd ok =>
      obtain rfl := hon.thread rfl
      exact settled_close ht hq hhook h g
  | poll u events =>
      injection h with h
      rw [← h]
      exact (hq g).keep rfl (fun l hl => ⟨l, hl, rfl⟩) (fun _ _ hd _ => hd)
  | dispatch u e =>
      obtain rfl := hon.thread rfl
      rcases dispatch_cases h with ⟨p, rest, io, r, _, hio, hcase⟩
      rcases Io.loopEntry_view ht.io hio with ⟨hview, _, hl, _⟩
      rcases hcase with ⟨_, rfl⟩ | ⟨mco, w, _, _, rfl⟩
      · exact (hq g).keep (hview g) (fun l h1 => ⟨l, by rw [← h1, ← hl], rfl⟩) (fun _ _ hd _ => hd)
      · exact (hq g).keep (Io.setCurMco_view.trans (hview g))
          (fun l h1 => ⟨l, by rw [← h1, ← hl]; rfl, rfl⟩) (fun _ _ hd _ => hd)

/-- The descriptors a coroutine closes are not waited for. -/
theorem spares_of_settled {a : SysOp} (hsh : s.Shallow t) (hq : ∀ fd, s.Settled t fd)
    (ha : s.Alone t a) : s.SparesWaiting a := by
  cases a with
  | close u fd ok =>
      obtain rfl := ha.2.1.thread rfl
      intro d hd fr hfr _
      -- The coroutine waiting would be the one that closes.
      rcases hsh.executing ha.1.1.1 with ⟨c, hx⟩
      have hdc := ha.2.2.2 c hx d ((hq fd).mapped d hd).1
      have hnone := ha.1.1.2 c hx
      rw [← hdc, hfr] at hnone
      cases hnone
  | newLoop _ _ => trivial
  | openFd _ _ => trivial
  | spawn _ => trivial
  | resume _ _ _ => trivial
  | yield _ _ => trivial
  | finish _ _ => trivial
  | read _ _ _ _ _ => trivial
  | accept _ _ _ _ _ => trivial
  | wake _ _ => trivial
  | poll _ _ => trivial
  | dispatch _ _ => trivial

/-- What waits in the batch is what a descriptor that is read from can
    report. -/
def Reports (t : Tid) (s : Sys) : Prop := ∀ p, p ∈ s.batch t → Within p.event Events.readMask

theorem reports_step {a : SysOp} (hq : ∀ fd, s.Settled t fd) (hr : s.Reports t)
    (ha : s.Alone t a) (h : s.step a = .ok s') : s'.Reports t := by
  rcases batch_step h with hb | ⟨u, events, rfl⟩ | ⟨u, e, rfl⟩
  · intro p hp
    rw [hb] at hp
    exact hr p hp
  · obtain rfl := ha.2.1.thread rfl
    injection h with h
    rw [← h]
    intro p hp
    have hp' : p ∈ events.map (fun x =>
        ({ fd := x.1, event := x.2, opening := s.io.kern.opening x.1 } : PollerEvent)) := by
      simpa using hp
    rcases List.mem_map.mp hp' with ⟨x, hx, rfl⟩
    rcases ha.1.2.2.2.2 x hx with ⟨i, hi, hbits⟩
    -- The kernel had been asked for reading at most.
    exact Within.join hbits ((hq x.1).interest i hi)
  · obtain rfl := ha.2.1.thread rfl
    rcases dispatch_cases h with ⟨p, rest, io, r, hb, _, hcase⟩
    have hrest : s'.batch u = rest := by
      rcases hcase with ⟨_, rfl⟩ | ⟨_, _, _, _, rfl⟩
      · exact Function.update_self _ _ _
      · exact Function.update_self _ _ _
    intro q hqm
    rw [hrest] at hqm
    exact hr q (by rw [hb]; exact List.mem_cons_of_mem p hqm)

-- The object of a descriptor that is waited for asks for reading.
theorem Served.asking (hs : s.Served t) {d : McoRef} {fr : HookFrame} {i : UInt32}
    {st : EventsState} (hd : s.frame d = some fr) (hfd : fr.fd = fd)
    (hasks : s.io.asks t fd = some (i, st)) : i = kReadEvent ∧ (st = .NEW ∨ st = .MOD) := by
  rcases (hs d fr hd).asks with ⟨st', hread, hst⟩
  have hread' : s.io.asks t fr.fd = some (kReadEvent, st') := hread
  rw [hfd, hasks] at hread'
  injection hread' with hread'
  injection hread' with hi hst'
  rw [hst']
  exact ⟨hi, hst⟩

/-- What the proof carries along a run. -/
structure Quiet (t : Tid) (s : Sys) : Prop where
  tidy : s.Tidy
  shallow : s.Shallow t
  served : s.Served t
  settled : ∀ fd, s.Settled t fd
  reports : s.Reports t
  hookable : s.io.hookable = true

theorem quiet_init (h : SysInit s) (hh : s.io.hookable = true) : s.Quiet t := by
  refine ⟨tidy_init h, shallow_init h, served_init h, fun fd => ⟨fun c hc => ?_, fun i st hi => ?_,
    fun i hi => ?_⟩, fun p hp => ?_, hh⟩
  · rw [Io.getMcoRoutine, h.pool t] at hc
    cases hc
  · rw [Io.asks, Io.entry, h.loop t] at hi
    cases hi
  · rw [h.interest t fd] at hi
    cases hi
  · rw [h.batch t] at hp
    cases hp

theorem quiet_step {a : SysOp} (hq : s.Quiet t) (ha : s.Alone t a) (h : s.step a = .ok s') :
    s'.Quiet t :=
  ⟨tidy_step hq.tidy ha.1 h,
    shallow_step hq.tidy hq.shallow ha.1 ha.2.1 ha.2.2.1 h,
    served_step hq.tidy hq.shallow hq.served ha.1 ha.2.1 ha.2.2.1
      (spares_of_settled hq.shallow hq.settled ha) h,
    settled_step hq.tidy hq.shallow hq.served hq.settled hq.hookable ha h,
    reports_step hq.settled hq.reports ha h,
    (hookable_step hq.tidy h).trans hq.hookable⟩

/-- One event that the loop comes to. -/
theorem prompt_iff {a : SysOp} (hq : s.Quiet t) (ha : s.Alone t a) : s.Prompt a ↔ s.Timely a := by
  cases a with
  | dispatch u e =>
      obtain rfl := ha.2.1.thread rfl
      constructor
      · intro hp p rest l c fr i st hb hl hw hco hfr hasks
        have hbits := hq.reports p (by rw [hb]; exact List.mem_cons_self)
        rcases Io.asks_some hasks with ⟨o, x, ho, hx, hi, hst⟩
        -- An event that passes resumes `c`, so `c` waits for its descriptor.
        have hpass : (x.obj.setMutable p.event).eventHandleAble.1 = true →
            fr.fd = p.fd ∧ fr.opening = p.opening := by
          intro hh
          rcases Io.loopEntry_passed hq.tidy.io hl ho hx hw hh with ⟨io, hio⟩
          rw [hco] at hio
          exact hp p rest c fr hb (Io.resumes_some.mpr ⟨io, hio⟩) hfr
        rcases (hq.settled p.fd).asks i st hasks with ⟨l', hl', hw'⟩ | ⟨hi0, hmod⟩ |
          ⟨d, fr', hd, hfd⟩
        · rw [hl] at hl'
          injection hl' with hl'
          exact absurd (by rw [hl', hw']) hw
        · refine ⟨fun _ => ?_, fun hne => absurd hi0 hne⟩
          by_contra hbad
          have hh := (Events.eventHandleAble_idle (o := x.obj.setMutable p.event)
            (hst.trans hmod) (hi.trans hi0) hbits).mpr hbad
          -- The call of `c` is on a descriptor that asks for something.
          rcases (hq.served c fr hfr).asks with ⟨st', hread, _⟩
          rw [(hpass hh).1] at hread
          have hread' : s.io.asks u p.fd = some (kReadEvent, st') := hread
          rw [hasks, hi0] at hread'
          injection hread' with hread'
          injection hread' with hread' _
          exact absurd hread' (by decide)
        · rcases Sys.Served.asking hq.served hd hfd hasks with ⟨hread, hst'⟩
          refine ⟨fun hz => absurd (hread.symm.trans hz) (by decide), fun _ hne => ?_⟩
          have hh := (Events.eventHandleAble_reading (o := x.obj.setMutable p.event)
            (by rw [← hst] at hst'; exact hst') (hi.trans hread) hbits).mpr
            (by rw [← hst] at hne; exact hne)
          rcases hpass hh with ⟨hfd', ho'⟩
          have hop := (hq.served c fr hfr).opening
          rw [hfd'] at hop
          rw [← ho']
          exact hop.symm
      · intro htm p rest c fr hb hres hfr
        rcases Io.resumes_some.mp hres with ⟨io, hio⟩
        have hbits := hq.reports p (by rw [hb]; exact List.mem_cons_self)
        rcases Io.loopEntry_cases hq.tidy.io hio with ⟨_, _, hr⟩ |
          ⟨l, o, x, hl, ho, hx, _, _, _, hr⟩
        · cases hr
        · rcases hr with hr | ⟨hh, hw, hr⟩
          · cases hr
          · have hasks : s.io.asks u p.fd = some (x.obj.eorigin, x.obj.state) := by
              rw [Io.asks_of_entry ho, Io.cellAsks, hx, Option.map_some]
            have hcond := htm p rest l c fr _ _ hb hl hw hr.symm hfr hasks
            rcases (hq.settled p.fd).asks _ _ hasks with ⟨l', hl', hw'⟩ | ⟨hi0, hmod⟩ | ⟨d, fr', hd,
              hfd⟩
            · rw [hl] at hl'
              injection hl' with hl'
              exact absurd (by rw [hl', hw']) hw
            · -- What passes for an idle object is an error or a hang-up.
              have hbad := (Events.eventHandleAble_idle (o := x.obj.setMutable p.event)
                hmod hi0 hbits).mp hh
              exact absurd (hcond.1 hi0) hbad
            · rcases Sys.Served.asking hq.served hd hfd hasks with ⟨hread, hst'⟩
              -- The coroutine the pool has is the one that waits.
              have hdc : s.io.getMcoRoutine u fr'.fd = some d := (hq.served d fr' hd).coroutine
              rw [hfd, ← hr] at hdc
              injection hdc with hdc
              rw [hdc, hd] at hfr
              injection hfr with hfr
              have hop := (hq.served d fr' hd).opening
              rw [hfd] at hop
              have hne := (Events.eventHandleAble_reading (o := x.obj.setMutable p.event)
                hst' hread hbits).mp hh
              have hnow := hcond.2 (by rw [hread]; decide) hne
              rw [← hfr, hnow]
              exact ⟨hfd, hop.symm⟩
  | newLoop _ _ => exact Iff.rfl
  | openFd _ _ => exact Iff.rfl
  | spawn _ => exact Iff.rfl
  | resume _ _ _ => exact Iff.rfl
  | yield _ _ => exact Iff.rfl
  | finish _ _ => exact Iff.rfl
  | read _ _ _ _ _ => exact Iff.rfl
  | accept _ _ _ _ _ => exact Iff.rfl
  | wake _ _ => exact Iff.rfl
  | close _ _ _ => exact Iff.rfl
  | poll _ _ => exact Iff.rfl

end Sys

/-- On one loop thread whose coroutines share no descriptor, the loop resumes
    suspended calls on their own descriptors, in the openings they are on,
    along a run exactly if no error or hang-up of a descriptor that nobody reads
    from, and no event of an earlier opening, comes to a coroutine that is
    suspended in a hooked call. -/
theorem prompt_along_iff {t : Tid} {s : Sys} {as : List SysOp} (h₀ : SysInit s)
    (hh : s.io.hookable = true) (ha : Along Sys.step (Sys.Alone t) s as) :
    Along Sys.step Sys.Prompt s as ↔ Along Sys.step Sys.Timely s as :=
  along_congr (fun _ _ _ hq ha _ hs => Sys.quiet_step hq ha hs) (fun _ _ hq ha =>
    Sys.prompt_iff hq ha) as s (Sys.quiet_init h₀ hh) ha

/-- Coroutine 10 reads from descriptors 5 and 6 in turn. -/
theorem prompt_along_iff_turns :
    let e : CallSite := { sp := 0x10fe0, main := 1, mainBlk := 0x7000, blk := 0 }
    let as : List SysOp := [.newLoop 0 3, .openFd 5 false, .openFd 6 false, .spawn 10,
      .resume 0 10 e, .read 0 5 0x10fe0 true true, .poll 0 [(5, pollIn)], .dispatch 0 e,
      .wake 0 true, .read 0 6 0x10fe0 true true, .poll 0 [(6, pollIn ||| pollHup)], .dispatch 0 e,
      .wake 0 true, .close 0 5 true]
    Along Sys.step Sys.Prompt .blank as ↔ Along Sys.step Sys.Timely .blank as :=
  prompt_along_iff (t := 0) sysBlank_init rfl (Checks.along (by decide))

/-- Coroutine 10 has read from descriptor 5 and is suspended in a read of 6, and
    5 hangs up. In the second run 6 and 7 are ready as well and come first: 10
    closes 5 and ends, and 11, which read from 7, gets the number 5 and reads
    from it. -/
theorem resumed_by_hangup :
    let e : CallSite := { sp := 0x10fe0, main := 1, mainBlk := 0x7000, blk := 0 }
    let as : List SysOp := [.newLoop 0 3, .openFd 5 false, .openFd 6 false, .openFd 7 false,
      .spawn 10, .spawn 11, .resume 0 10 e, .read 0 5 0x10fe0 true true, .poll 0 [(5, pollIn)],
      .dispatch 0 e, .wake 0 true, .read 0 6 0x10fe0 true true]
    let wrong := as ++ [.poll 0 [(5, pollHup)]]
    let stale := as ++ [.resume 0 11 e, .read 0 7 0x10fe0 true true,
      .poll 0 [(6, pollIn), (7, pollIn), (5, pollHup)], .dispatch 0 e, .wake 0 true,
      .close 0 5 true, .finish 0 0x10fe0, .openFd 5 false, .dispatch 0 e, .wake 0 true,
      .read 0 5 0x10fe0 true true]
    (Checks Sys.step (Sys.Alone 0) .blank (wrong ++ [.dispatch 0 e]) ∧
      ¬ (after Sys.step .blank wrong).Prompt (.dispatch 0 e)) ∧
    Checks Sys.step (Sys.Alone 0) .blank (stale ++ [.dispatch 0 e]) ∧
      ¬ (after Sys.step .blank stale).Prompt (.dispatch 0 e) := by
  refine ⟨⟨by decide, fun h => ?_⟩, by decide +kernel, fun h => ?_⟩
  · exact absurd (h ⟨5, pollHup, 1⟩ [] 10 ⟨6, 2, 1⟩ rfl rfl rfl).1 (by decide)
  · exact absurd (h ⟨5, pollHup, 1⟩ [] 11 ⟨5, 4, 2⟩ (by decide +kernel) (by decide +kernel)
      (by decide +kernel)).2 (by decide)

end Fasco
