import Fasco.Theory.CallStack
import Fasco.Theory.Closing
import Fasco.Theory.Descriptors

/-!
# Coroutines of One Loop

One thread with a loop, whose coroutines are resumed by the thread's own code,
in the loop or outside it, and not by one another. Then its call stack holds
the main coroutine and at most one more, and if the pool has a current
coroutine while that one executes, it is that one. So a hooked call registers
the coroutine that makes it.

A coroutine suspended in a hooked call is then `Served`: the pool has it for
its descriptor, the table has the object the call holds, and that asks for
reading. This holds as long as nobody closes a descriptor a coroutine is
suspended for. It says nothing about what the kernel has been told.

## Main definitions

* `SysOp.thread`, `Sys.FromLoop`: One thread, and who resumes.
* `Sys.Shallow`: The call stack and the pool's current coroutine.
* `Serves`, `Sys.Served`: What the tables say of a suspended call's
  descriptor.
* `Sys.SparesWaiting`: No descriptor is closed that is waited for.

## Theorems

* `shallow_step`: Who is current.
* `hooked_effect`, `leave_effect`: The hooked calls, one descriptor at a time.
* `calls_step`: The calls in progress after an operation.
* `served_step`: Suspended calls stay served.
-/

namespace Fasco

open Fallible

/-- The thread an operation is on. The kernel's and the making of a
    `Continuation` are on none. -/
def SysOp.thread : SysOp → Option Tid
  | .newLoop t _ => some t
  | .openFd _ _ => none
  | .spawn _ => none
  | .resume t _ _ => some t
  | .yield t _ => some t
  | .finish t _ => some t
  | .read t _ _ _ _ => some t
  | .accept t _ _ _ _ => some t
  | .wake t _ => some t
  | .close t _ _ => some t
  | .poll t _ => some t
  | .dispatch t _ => some t

/-- The descriptor a hooked `read` or `accept` is made on, and whether its
    first `epoll_ctl` is to succeed. -/
def SysOp.reads : SysOp → Option (Fd × Bool)
  | .read _ fd _ ok _ => some (fd, ok)
  | .accept _ fd _ ok _ => some (fd, ok)
  | _ => none

namespace Sys

/-- Thread `t` is alone, and its coroutines are resumed by its own code. -/
def FromLoop (t : Tid) (s : Sys) (a : SysOp) : Prop :=
  (∀ u, a.thread = some u → u = t) ∧
    match a with
    | .resume u _ _ => s.InMain u
    | _ => True

/-- The call stack of `t` holds at most one coroutine besides the main one,
    and if that executes, the pool's current coroutine is no other. -/
def Shallow (t : Tid) (s : Sys) : Prop :=
  ∃ f, Orderly s.w f ∧ (∀ u, u ≠ t → f u = []) ∧ (f t).length ≤ 2 ∧
    ((f t).length = 2 → ∀ m, s.io.getCurMco t = some m → s.w.exec t = some m)

instance (t : Tid) (s : Sys) : ∀ a, Decidable (s.FromLoop t a)
  | .resume u _ _ => decidable_of_iff (u = t ∧ s.InMain u)
      ⟨fun h => ⟨fun _ hv => Option.some.inj hv ▸ h.1, h.2⟩, fun h => ⟨h.1 u rfl, h.2⟩⟩
  | .newLoop _ _ => inferInstanceAs (Decidable ((∀ u, _ = some u → _) ∧ True))
  | .openFd _ _ => inferInstanceAs (Decidable ((∀ u, _ = some u → _) ∧ True))
  | .spawn _ => inferInstanceAs (Decidable ((∀ u, _ = some u → _) ∧ True))
  | .yield _ _ => inferInstanceAs (Decidable ((∀ u, _ = some u → _) ∧ True))
  | .finish _ _ => inferInstanceAs (Decidable ((∀ u, _ = some u → _) ∧ True))
  | .read _ _ _ _ _ => inferInstanceAs (Decidable ((∀ u, _ = some u → _) ∧ True))
  | .accept _ _ _ _ _ => inferInstanceAs (Decidable ((∀ u, _ = some u → _) ∧ True))
  | .wake _ _ => inferInstanceAs (Decidable ((∀ u, _ = some u → _) ∧ True))
  | .close _ _ _ => inferInstanceAs (Decidable ((∀ u, _ = some u → _) ∧ True))
  | .poll _ _ => inferInstanceAs (Decidable ((∀ u, _ = some u → _) ∧ True))
  | .dispatch _ _ => inferInstanceAs (Decidable ((∀ u, _ = some u → _) ∧ True))

variable {s s' : Sys} {t : Tid} {fd : Fd} {sp : Nat} {ok ok' : Bool}

theorem shallow_init (h : SysInit s) : s.Shallow t := by
  refine ⟨_, orderly_init h.world, fun _ _ => rfl, Nat.zero_le 2, fun hlen => ?_⟩
  cases hlen

/-- The coroutine that executes is the current one, if there is one. -/
theorem Shallow.current (hs : s.Shallow t) (hi : 1 < (s.w.callstack t).index) {m : McoRef}
    (hm : s.io.getCurMco t = some m) : s.w.exec t = some m := by
  rcases hs with ⟨f, ho, _, hlen, hcur⟩
  have hidx := (ho.steady.holds t).length
  exact hcur (by omega) m hm

/-- A thread that is not in its own code executes a coroutine. -/
theorem Shallow.executing (hs : s.Shallow t) (hi : 1 < (s.w.callstack t).index) :
    ∃ c, s.w.exec t = some c := by
  rcases hs with ⟨f, ho, _, _, _⟩
  have hidx := (ho.steady.holds t).length
  have hx := ho.steady.exec t
  cases hf : f t with
  | nil =>
      rw [hf, List.length_nil] at hidx
      omega
  | cons c l =>
      rw [hf, List.head?_cons] at hx
      exact ⟨c, hx⟩

-- What happens to the tables, and to the current coroutine if it goes.
theorem Shallow.tables (hs : s.Shallow t) (hw : s'.w = s.w)
    (hcur : s'.io.getCurMco t = s.io.getCurMco t ∨ s'.io.getCurMco t = none) : s'.Shallow t := by
  rcases hs with ⟨f, ho, hone, hlen, hc⟩
  refine ⟨f, by rw [hw]; exact ho, hone, hlen, fun h2 m hm => ?_⟩
  rw [hw]
  rcases hcur with hcur | hcur
  · exact hc h2 m (by rw [← hcur, hm])
  · rw [hcur] at hm
    cases hm

-- One of two coroutines is taken off the call stack, so the main one is left.
theorem Shallow.left {w' : World} {f : Frames} {c x : McoRef} {l : List McoRef}
    (hone : ∀ u, u ≠ t → f u = []) (hlen : (f t).length ≤ 2) (hf : f t = c :: x :: l)
    (ho' : Orderly w' (Function.update f t (x :: l))) (hw : s'.w = w') : s'.Shallow t := by
  rw [hf, List.length_cons, List.length_cons] at hlen
  have hnil : l = [] := List.eq_nil_of_length_eq_zero (by omega)
  rw [hnil] at ho'
  refine ⟨_, by rw [hw]; exact ho', fun u hu => ?_, ?_, fun h2 => ?_⟩
  · rw [Function.update_of_ne hu, hone u hu]
  · rw [Function.update_self]
    exact Nat.le_succ 1
  · rw [Function.update_self] at h2
    cases h2

/-- A coroutine gives up control, or nothing happens. -/
theorem Shallow.yielded (hs : s.Shallow t) {co : Option McoRef}
    (h : s.w.mcoYield t co sp = .ok s'.w)
    (hcur : s'.io.getCurMco t = s.io.getCurMco t) : s'.Shallow t := by
  rcases hs with ⟨f, ho, hone, hlen, hc⟩
  rcases ho.yield h with ⟨hw, _⟩ | ⟨c, x, l, _, hf, _, ho'⟩
  · exact Shallow.tables ⟨f, ho, hone, hlen, hc⟩ hw (Or.inl hcur)
  · exact Shallow.left hone hlen hf ho' rfl

theorem Shallow.finished (hs : s.Shallow t) (h : s.w.coroutineRun t sp = .ok s'.w) :
    s'.Shallow t := by
  rcases hs with ⟨f, ho, hone, hlen, _⟩
  rcases ho.finish h with ⟨c, x, l, hf, _, ho'⟩
  exact Shallow.left hone hlen hf ho' rfl

/-- The thread's own code resumes `c`, which becomes the current coroutine. -/
theorem Shallow.resumed {c : McoRef} {e : CallSite} (hs : s.Shallow t) (hmain : s.InMain t)
    (hcode : s.w.InCode t) (hfresh : s.w.FreshMain t e)
    (h : s.w.mcoResume t (some c) e = .ok s'.w) (hcur : s'.io.getCurMco t = some c) :
    s'.Shallow t := by
  rcases hs with ⟨f, ho, hone, _, _⟩
  have hlen : (f t).length ≤ 1 := by
    rw [(ho.steady.holds t).length]
    exact hmain
  -- Nobody waits below the top of a call stack.
  have hflat : Flat s.w (.resume t (some c) e) := by
    intro u hw
    have hmem := ho.waits_iff.mp hw
    have hpos := List.length_pos_of_mem hmem
    rw [List.length_tail] at hpos
    by_cases hu : u = t
    · rw [hu] at hpos
      omega
    · rw [hone u hu, List.length_nil] at hpos
      omega
  rcases ho.resume hcode hfresh hflat h with ⟨hw, _⟩ | ⟨d, r, cur, l, hd, _, _, _, hf, hcase⟩
  · refine ⟨f, by rw [hw]; exact ho, hone, by omega, fun h2 => ?_⟩
    omega
  · injection hd with hd
    rcases hcase with ⟨l', _, hf', _⟩ | ⟨_, _, _, ho'⟩
    · rw [hf', List.length_cons, List.length_cons] at hlen
      omega
    · have hb : (booted f t e.main t).length ≤ 1 := by
        unfold booted
        by_cases hnil : f t = []
        · rw [if_pos hnil, Function.update_self]
          exact Nat.le_refl 1
        · rw [if_neg hnil]
          exact hlen
      rw [hf, List.length_cons] at hb
      have hnil : l = [] := List.eq_nil_of_length_eq_zero (by omega)
      rw [hnil] at ho'
      refine ⟨_, ho', fun u hu => ?_, ?_, fun _ m hm => ?_⟩
      · rw [Function.update_of_ne hu]
        unfold booted
        by_cases h0 : f t = []
        · rw [if_pos h0, Function.update_of_ne hu, hone u hu]
        · rw [if_neg h0, hone u hu]
      · rw [Function.update_self]
        exact Nat.le_refl 2
      · rw [hcur] at hm
        injection hm with hm
        rw [ho'.steady.exec t, Function.update_self, List.head?_cons, ← hd, hm]

/-! ### The hooked calls -/

/-- A hooked call goes straight to the system call, or is entered by the
    coroutine executing, which is suspended in it or leaves it at once. -/
theorem hooked_effect (ht : s.Tidy) (hs : s.Shallow t) (hin : s.InCoroutine t)
    (hloop : s.io.Straight t fd ∨ (s.io.loop t).isSome)
    (h : s.hooked t fd sp ok ok' = .ok s') :
    ∃ c, s.w.exec t = some c ∧ s.frame c = none ∧ s'.batch = s.batch ∧
      ((s'.w = s.w ∧ s'.frame = s.frame ∧ s'.io = s.reading fd c) ∨
       ∃ io e, (s.reading fd c).Entered io t fd ok c e ∧
         s.w.mcoYield t (io.getCurMco t) sp = .ok s'.w ∧
         ((s'.io = io ∧ s'.frame = Function.update s.frame c
            (some { fd := fd, event := e, opening := s.io.kern.opening fd })) ∨
          (s'.frame = s.frame ∧ io.Left s'.io t fd ok'))) := by
  rcases hooked_cases h with ⟨c, hx, hcase⟩
  have hfr := hin.2 c hx
  have hread : (s.reading fd c).Tidy s.locals := ht.io.congr rfl rfl rfl
  refine ⟨c, hx, hfr, ?_⟩
  rcases hcase with ⟨io, hio, rfl⟩ | ⟨io, e, w, hio, hy, hcase⟩
  · rcases Io.entered hread hloop hio with ⟨_, rfl⟩ | ⟨_, _, hr, _⟩
    · exact ⟨rfl, Or.inl ⟨rfl, rfl, rfl⟩⟩
    · cases hr
  · rcases Io.entered hread hloop hio with ⟨hr, _⟩ | ⟨mco, e', hr, hent⟩
    · cases hr
    · injection hr with hr
      -- The current coroutine is the one that makes the call.
      have hmco : mco = c := by
        have hcur := hs.current hin.1 hent.current
        rw [hx] at hcur
        injection hcur with hcur
        exact hcur.symm
      rw [hmco, ← hr] at hent
      rcases hcase with ⟨_, rfl⟩ | ⟨_, io', hl, rfl⟩
      · exact ⟨rfl, Or.inr ⟨io, e, hent, hy, Or.inl ⟨rfl, rfl⟩⟩⟩
      · refine ⟨rfl, Or.inr ⟨io, e, hent, hy, Or.inr ⟨?_, ?_⟩⟩⟩
        · change Function.update s.frame c none = s.frame
          rw [← hfr, Function.update_eq_self]
        · rcases hread.hookEnter c hio with ⟨hr', _⟩ | ⟨e'', hr', htidy⟩
          · cases hr'
          · injection hr' with hr'
            rw [← hr'] at htidy
            exact Io.left htidy (Function.update_self c (some e) s.locals) hent.entry hl

/-- A coroutine whose object is in the table goes on with the call it is in. -/
theorem leave_effect {c : McoRef} {fr : HookFrame} (ht : s.Tidy) (hfr : s.frame c = some fr)
    (hent : s.io.entry t fr.fd = some fr.event) (h : s.leave c ok = .ok s') :
    s.io.Left s'.io t fr.fd ok ∧ s'.frame = Function.update s.frame c none ∧ s'.w = s.w ∧
      s'.batch = s.batch := by
  rcases leave_cases h with ⟨fr', io, hfr', hl, rfl⟩
  rw [hfr] at hfr'
  injection hfr' with hfr'
  rw [← hfr'] at hl
  exact ⟨Io.left ht.io (c := c) (by rw [locals, hfr, Option.map_some]) hent hl, rfl, rfl, rfl⟩

/-! ### Calls that are served -/

end Sys

/-- What there is for the descriptor of the call `fr` that `c` is suspended
    in. -/
structure Serves (c : McoRef) (fr : HookFrame) (v : FdView) : Prop where
  coroutine : v.coroutine = some c
  entry : v.entry = some fr.event
  asks : ∃ st, v.asks = some (kReadEvent, st) ∧ (st = .NEW ∨ st = .MOD)
  isOpen : v.kern.isOpen = true
  opening : v.kern.opening = fr.opening

namespace Sys

variable {s s' : Sys} {t : Tid} {fd : Fd} {sp : Nat} {ok ok' : Bool}

/-- Every hooked call in progress is served. -/
def Served (t : Tid) (s : Sys) : Prop :=
  ∀ c fr, s.frame c = some fr → Serves c fr (s.io.view t fr.fd)

/-- No descriptor is closed that the coroutine it is filed for is suspended
    for. -/
def SparesWaiting (s : Sys) : SysOp → Prop
  | .close t fd _ =>
    ∀ c, s.io.getMcoRoutine t fd = some c → ∀ fr, s.frame c = some fr → fr.fd ≠ fd
  | _ => True

instance (s : Sys) : ∀ a, Decidable (s.SparesWaiting a)
  | .close _ _ _ => inferInstanceAs (Decidable (∀ c, _ = some c → ∀ fr, _ = some fr → _))
  | .newLoop _ _ => isTrue trivial
  | .openFd _ _ => isTrue trivial
  | .spawn _ => isTrue trivial
  | .resume _ _ _ => isTrue trivial
  | .yield _ _ => isTrue trivial
  | .finish _ _ => isTrue trivial
  | .read _ _ _ _ _ => isTrue trivial
  | .accept _ _ _ _ _ => isTrue trivial
  | .wake _ _ => isTrue trivial
  | .poll _ _ => isTrue trivial
  | .dispatch _ _ => isTrue trivial

/-- Two calls in progress are on different descriptors. -/
theorem Served.fd_ne (hs : s.Served t) {c d : McoRef} {fr fr' : HookFrame}
    (hc : s.frame c = some fr) (hd : s.frame d = some fr') (hne : d ≠ c) : fr'.fd ≠ fr.fd := by
  intro hfd
  have h1 := (hs c fr hc).coroutine
  have h2 := (hs d fr' hd).coroutine
  rw [hfd, h1] at h2
  injection h2 with h2
  exact hne h2.symm

/-- The descriptor a hooked call has been entered for. -/
theorem serves_entered {i i' : Io} {c : McoRef} {e : EvRef} (h : i.Entered i' t fd ok c e) :
    Serves c { fd := fd, event := e, opening := i.kern.opening fd } (i'.view t fd) := by
  have hopen : i.kern.isOpen fd = true := by
    have hb := h.blocking
    rw [Kernel.nonblocking, Bool.or_eq_false_iff, Bool.not_eq_false'] at hb
    exact hb.1
  have hk : i'.kern.isOpen fd = i.kern.isOpen fd ∧ i'.kern.opening fd = i.kern.opening fd := by
    rw [h.kern]
    have hv := i.askCtl_view_self t fd ok
    exact ⟨congrArg KernView.isOpen hv, congrArg KernView.opening hv⟩
  exact ⟨h.coroutine, h.entry, h.asks, hk.1.trans hopen, hk.2⟩

/-- What `FromLoop` says of a thread's operation. -/
theorem FromLoop.thread {a : SysOp} (h : s.FromLoop t a) {u : Tid} (hu : a.thread = some u) :
    u = t := h.1 u hu

/-- Every operation keeps the call stack shallow. -/
theorem shallow_step {a : SysOp} (ht : s.Tidy) (hs : s.Shallow t) (hsup : s.Supplied a)
    (hon : s.FromLoop t a) (hloop : s.Looped a) (h : s.step a = .ok s') : s'.Shallow t := by
  -- A hooked call of either kind.
  have hhooked : ∀ u fd sp ok ok', u = t → s.InCoroutine u →
      (s.io.Straight u fd ∨ (s.io.loop u).isSome) → s.hooked u fd sp ok ok' = .ok s' →
      s'.Shallow t := by
    rintro u fd sp ok ok' rfl hin hl hh
    rcases hooked_effect ht hs hin hl hh with ⟨c, _, _, _, ⟨hw, _, hio⟩ | ⟨io, e, hent, hy, hcase⟩⟩
    · refine hs.tables hw (Or.inl ?_)
      rw [hio]
      rfl
    · refine hs.yielded hy ?_
      have hcur : io.getCurMco u = s.io.getCurMco u := by rw [hent.current', ← hent.current]; rfl
      rcases hcase with ⟨hio, _⟩ | ⟨_, hleft⟩
      · rw [hio, hcur]
      · rw [← hcur, Io.getCurMco, hleft.pool]
        rfl
  cases a with
  | newLoop u fd =>
      rcases newLoop_ok h with ⟨io, hio, rfl⟩
      rcases Io.newLoop_cases hio with ⟨l, _, _, _, rfl⟩
      exact hs.tables rfl (Or.inl rfl)
  | openFd fd nonblock =>
      injection h with h
      rw [← h]
      exact hs.tables rfl (Or.inl rfl)
  | spawn c =>
      injection h with h
      rw [← h]
      rcases hs with ⟨f, ho, hone, hlen, hc⟩
      exact ⟨f, ho.created hsup, hone, hlen, hc⟩
  | resume u c e =>
      obtain rfl := hon.thread rfl
      rcases mcosopsResume_ok h with ⟨w, hw, rfl⟩
      refine hs.resumed hon.2 hsup.2.1 hsup.1.2.2 hw ?_
      simp [Io.getCurMco, Io.setCurMco]
  | yield u sp =>
      obtain rfl := hon.thread rfl
      rcases mcosopsYield_ok h with ⟨w, rfl, hw⟩
      exact hs.yielded hw rfl
  | finish u sp =>
      obtain rfl := hon.thread rfl
      rcases finish_ok h with ⟨w, hw, rfl⟩
      exact hs.finished hw
  | read u fd sp ok ok' => exact hhooked u fd sp ok ok' (hon.thread rfl) hsup.1 hloop h
  | accept u fd sp ok ok' => exact hhooked u fd sp ok ok' (hon.thread rfl) hsup.1 hloop h
  | wake u ok =>
      rcases wake_ok h with ⟨c, hx, h⟩
      rcases leave_cases h with ⟨fr, io, hfr, hl, rfl⟩
      rcases ht.made hfr with ⟨x, hx', hpos, _⟩
      refine hs.tables rfl (Or.inl ?_)
      exact congrArg McoPool.cur (congrFun (Io.hookLeave_pool hx' hpos hl) t)
  | close u fd ok =>
      obtain rfl := hon.thread rfl
      rcases close_ok h with ⟨io, hio, rfl⟩
      exact hs.tables rfl (Io.close_cur ht.io hio)
  | poll u events =>
      injection h with h
      rw [← h]
      exact hs.tables rfl (Or.inl rfl)
  | dispatch u e =>
      obtain rfl := hon.thread rfl
      rcases dispatch_cases h with ⟨p, rest, io, r, _, hio, hcase⟩
      rcases Io.loopEntry_view ht.io hio with ⟨_, hpool, _⟩
      rcases hcase with ⟨_, rfl⟩ | ⟨mco, w, _, hw, rfl⟩
      · refine hs.tables rfl (Or.inl ?_)
        exact congrArg McoPool.cur (congrFun hpool u)
      · refine hs.resumed hsup.1 hsup.2.2.1 hsup.2.2.2.2 hw ?_
        simp [Io.getCurMco, Io.setCurMco]

theorem served_init (h : SysInit s) : s.Served t := by
  intro c fr hfr
  rw [h.frame c] at hfr
  cases hfr

/-- The calls in progress after a hooked call has been made. The descriptor was
    free or the caller's own, so it is not that of another call. -/
theorem calls_hooked (ht : s.Tidy) (hsh : s.Shallow t) (hs : s.Served t) (hin : s.InCoroutine t)
    (hl : s.io.Straight t fd ∨ (s.io.loop t).isSome) (h : s.hooked t fd sp ok ok' = .ok s')
    {d : McoRef} {fr : HookFrame} (hd : s'.frame d = some fr) :
    (s.frame d = some fr ∧ ∃ u, s'.io.view t fr.fd = (s.io.view t fr.fd).usedBy u) ∨
      fr.fd = fd ∧ (s.reading fr.fd d).Entered s'.io t fr.fd ok d fr.event ∧
        fr.opening = s.io.kern.opening fr.fd := by
  rcases hooked_effect ht hsh hin hl h with ⟨c, _, hfr, _, ⟨_, hf, hio⟩ | ⟨io, e, hent, _, hcase⟩⟩
  · left
    rw [hf] at hd
    refine ⟨hd, (s.reading fd c).kern.user fr.fd, ?_⟩
    rw [hio]
    rfl
  have hother : d ≠ c → s.frame d = some fr → fr.fd ≠ fd ∧
      io.view t fr.fd = s.io.view t fr.fd := by
    intro hdc hd'
    have hne : fr.fd ≠ fd := by
      intro hfd
      have hco : s.io.getMcoRoutine t fr.fd = some d := (hs d fr hd').coroutine
      rw [hfd] at hco
      rcases hent.mapped with hm | hm
      · exact absurd (hco.symm.trans hm) (Option.some_ne_none d)
      · exact hdc (Option.some.inj (hco.symm.trans hm))
    refine ⟨hne, (hent.other fr.fd hne).trans (Io.view_congr rfl rfl (fun _ _ => rfl) ?_)⟩
    simp only [reading, Kernel.view, Kernel.use, Function.update_of_ne hne]
  rcases hcase with ⟨hio, hf⟩ | ⟨hf, hleft⟩
  · rw [hf] at hd
    by_cases hdc : d = c
    · right
      rw [hdc, Function.update_self] at hd
      injection hd with hd
      rw [hdc, ← hd, hio]
      exact ⟨rfl, hent, rfl⟩
    · left
      rw [Function.update_of_ne hdc] at hd
      rw [hio]
      exact ⟨hd, _, (hother hdc hd).2⟩
  -- The call has been left again.
  · left
    rw [hf] at hd
    have hdc : d ≠ c := by
      rintro rfl
      rw [hfr] at hd
      cases hd
    rcases hother hdc hd with ⟨hne, hv⟩
    exact ⟨hd, _, (hleft.other fr.fd hne).trans hv⟩

/-- The calls in progress after an operation: those there were, with what the
    tables say of their descriptors, and one that has just been entered. -/
theorem calls_step {a : SysOp} (ht : s.Tidy) (hsh : s.Shallow t) (hs : s.Served t)
    (hsup : s.Supplied a) (hon : s.FromLoop t a) (hloop : s.Looped a) (hspare : s.SparesWaiting a)
    (h : s.step a = .ok s') {d : McoRef} {fr : HookFrame} (hd : s'.frame d = some fr) :
    (s.frame d = some fr ∧ ∃ u, s'.io.view t fr.fd = (s.io.view t fr.fd).usedBy u) ∨
    ∃ ok, a.reads = some (fr.fd, ok) ∧ (s.reading fr.fd d).Entered s'.io t fr.fd ok d fr.event ∧
      fr.opening = s.io.kern.opening fr.fd := by
  -- Operations that change nothing the calls in progress depend on.
  have hsame : s'.frame = s.frame →
      (s.frame d = some fr → s'.io.view t fr.fd = s.io.view t fr.fd) →
      s.frame d = some fr ∧ ∃ u, s'.io.view t fr.fd = (s.io.view t fr.fd).usedBy u := by
    intro hf hv
    rw [hf] at hd
    exact ⟨hd, (s.io.view t fr.fd).kern.user, hv hd⟩
  cases a with
  | newLoop u fd =>
      rcases newLoop_ok h with ⟨io, hio, rfl⟩
      -- Without a loop there is no table, and nobody waits.
      have hent : s.io.entry t fr.fd = some fr.event := (hs d fr hd).entry
      rw [Io.entry, ← hon.thread rfl, hsup.1, Option.bind_none] at hent
      cases hent
  | openFd fd nonblock =>
      injection h with h
      rw [← h] at hsame ⊢
      refine Or.inl (hsame rfl (fun hd' => ?_))
      have hne : fr.fd ≠ fd := by
        intro hfd
        have hopen : s.io.kern.isOpen fr.fd = true := (hs d fr hd').isOpen
        have hshut : s.io.kern.isOpen fd = false := hsup
        rw [hfd, hshut] at hopen
        cases hopen
      exact Io.view_congr rfl rfl (fun _ _ => rfl) (Kernel.openFd_view hne nonblock)
  | spawn c =>
      injection h with h
      rw [← h] at hsame ⊢
      exact Or.inl (hsame rfl (fun _ => rfl))
  | resume u c e =>
      rcases mcosopsResume_ok h with ⟨w, _, rfl⟩
      exact Or.inl (hsame rfl (fun _ => Io.setCurMco_view))
  | yield u sp =>
      rcases mcosopsYield_ok h with ⟨w, rfl, _⟩
      exact Or.inl (hsame rfl (fun _ => rfl))
  | finish u sp =>
      rcases finish_ok h with ⟨w, _, rfl⟩
      exact Or.inl (hsame rfl (fun _ => rfl))
  | read u fd sp ok ok' =>
      obtain rfl := hon.thread rfl
      rcases calls_hooked ht hsh hs hsup.1 hloop h hd with hold | ⟨hfd, hnew⟩
      · exact .inl hold
      · exact .inr ⟨ok, by rw [hfd]; rfl, hnew⟩
  | accept u fd sp ok ok' =>
      obtain rfl := hon.thread rfl
      rcases calls_hooked ht hsh hs hsup.1 hloop h hd with hold | ⟨hfd, hnew⟩
      · exact .inl hold
      · exact .inr ⟨ok, by rw [hfd]; rfl, hnew⟩
  | wake u ok =>
      rcases wake_ok h with ⟨c, _, h⟩
      rcases leave_cases h with ⟨fr', _, hfr, _⟩
      rcases leave_effect ht hfr (hs c fr' hfr).entry h with ⟨hleft, hf, _⟩
      left
      rw [hf] at hd
      have hdc : d ≠ c := by
        rintro rfl
        rw [Function.update_self] at hd
        cases hd
      rw [Function.update_of_ne hdc] at hd
      exact ⟨hd, _, hleft.other fr.fd (hs.fd_ne hfr hd hdc)⟩
  | close u fd ok =>
      obtain rfl := hon.thread rfl
      rcases close_ok h with ⟨io, hio, rfl⟩
      refine Or.inl (hsame rfl (fun hd' => Io.close_view ht.io hio (fun hfd => ?_)))
      have hco : s.io.getMcoRoutine u fr.fd = some d := (hs d fr hd').coroutine
      rw [hfd] at hco
      exact hspare d hco fr hd' hfd
  | poll u events =>
      injection h with h
      rw [← h] at hsame ⊢
      exact Or.inl (hsame rfl (fun _ => rfl))
  | dispatch u e =>
      obtain rfl := hon.thread rfl
      rcases dispatch_cases h with ⟨p, rest, io, r, _, hio, hcase⟩
      have hview := (Io.loopEntry_view ht.io hio).1
      rcases hcase with ⟨_, rfl⟩ | ⟨mco, w, _, _, rfl⟩
      · exact Or.inl (hsame rfl (fun _ => hview fr.fd))
      · exact Or.inl (hsame rfl (fun _ => Io.setCurMco_view.trans (hview fr.fd)))

/-- Suspended calls stay served, as long as what they wait for is not
    closed. -/
theorem served_step {a : SysOp} (ht : s.Tidy) (hsh : s.Shallow t) (hs : s.Served t)
    (hsup : s.Supplied a) (hon : s.FromLoop t a) (hloop : s.Looped a) (hspare : s.SparesWaiting a)
    (h : s.step a = .ok s') : s'.Served t := by
  intro d fr hd
  rcases calls_step ht hsh hs hsup hon hloop hspare h hd with ⟨hd', u, hv⟩ | ⟨ok, _, hent, ho⟩
  · rw [hv]
    have hd' := hs d fr hd'
    exact ⟨hd'.coroutine, hd'.entry, hd'.asks, hd'.isOpen, hd'.opening⟩
  · have hserve := serves_entered hent
    exact ⟨hserve.coroutine, hserve.entry, hserve.asks, hserve.isOpen, hserve.opening.trans ho.symm⟩

end Sys

end Fasco
