import Fasco.Theory.Tables

/-!
# Steps of the Whole

What one operation of the program, the loops or the kernel does to the whole
state, in terms of the coroutine operations and of the effects on the tables.
`hooked_cases` takes a hooked `read` or `accept` apart.

`Sys.Tidy` is the invariant of the pointers, with the locals of the suspended
calls as what they are. It holds along every run, whatever the program does
and the kernel answers.

## Main definitions

* `Sys.locals`: The objects the hooked calls in progress hold.
* `Sys.Tidy`: Pointers are counted, and every call holds an object of its own
  descriptor.

## Theorems

* `hooked_cases`, `leave_cases`, `dispatch_cases`: The operations with several
  outcomes.
* `Io.Descends.of_hookEnter` and the like: An object keeps its descriptor.
* `tidy_step`, `tidy_run`: The invariant.
* `hookable_step`, `batch_step`: What most operations leave alone.
-/

namespace Fasco

theorem liftMco_ok {α : Type} {x : Except Fault α} {a : α} (h : liftMco x = .ok a) : x = .ok a := by
  cases x with
  | ok b =>
      injection h with h
      rw [h]
  | error f => cases h

namespace Io

/-- Objects that were there keep descriptor and thread. -/
def Descends (s s' : Io) : Prop :=
  ∀ e x', e < s.nextEv → s'.ev e = some x' →
    ∃ x, s.ev e = some x ∧ x'.obj.fd = x.obj.fd ∧ x'.obj.tid = x.obj.tid

namespace Descends

variable {s s' : Io} {loc : McoRef → Option EvRef} {t : Tid} {fd : Fd} {e : EvRef}

/-- Objects that do not change are their own descendants. -/
theorem of_ev (h : s'.ev = s.ev) : Descends s s' := by
  intro d x' _ hx'
  rw [h] at hx'
  exact ⟨x', hx', rfl, rfl⟩

/-- One object changes, or goes. -/
theorem of_update {x : EventsCell} {y : Option EventsCell} (hx : s.ev e = some x)
    (h : s'.ev = Function.update s.ev e y)
    (hy : ∀ z, y = some z → z.obj.fd = x.obj.fd ∧ z.obj.tid = x.obj.tid) : Descends s s' := by
  intro d x' _ hx'
  rw [h] at hx'
  by_cases hd : d = e
  · rw [hd, Function.update_self] at hx'
    rw [hd]
    exact ⟨x, hx, hy x' hx'⟩
  · rw [Function.update_of_ne hd] at hx'
    exact ⟨x', hx', rfl, rfl⟩

/-- One object is made. -/
theorem of_new {y : EventsCell} (h : s'.ev = Function.update s.ev s.nextEv (some y)) :
    Descends s s' := by
  intro d x' hlt hx'
  rw [h, Function.update_of_ne (Nat.ne_of_lt hlt)] at hx'
  exact ⟨x', hx', rfl, rfl⟩

/-- A pointer that is given up leaves the object with its descriptor. -/
theorem of_dropped {s1 : Io} {obj : Events} {n : Nat} {k : Kernel} {x : EventsCell}
    (hx : s.ev e = some x) (h1 : s1.ev = s.ev) (hfd : obj.fd = x.obj.fd)
    (htid : obj.tid = x.obj.tid) : Descends s (s1.dropped e obj n k) := by
  unfold Io.dropped
  by_cases hn : n ≤ 1
  · rw [if_pos hn]
    refine of_update hx (y := none) ?_ (fun z hz => by cases hz)
    rw [← h1]
    rfl
  · rw [if_neg hn]
    refine of_update hx (y := some { obj := obj, useCount := n - 1 }) ?_ ?_
    · rw [← h1]
      rfl
    · intro z hz
      injection hz with hz
      rw [← hz]
      exact ⟨hfd, htid⟩

theorem of_hookEnter {ok : Bool} {r : Option EvRef} (ht : s.Tidy loc)
    (h : s.hookEnter t fd ok = .ok (s', r)) : Descends s s' ∧ s.nextEv ≤ s'.nextEv := by
  rcases hookEnter_cases ht h with ⟨_, rfl, _⟩ | ⟨_, _, mco, e, _, _, hcase⟩
  · exact ⟨of_ev rfl, Nat.le_refl _⟩
  · rcases hcase with ⟨_, hf | ⟨_, ha | hst⟩⟩ | ⟨_, _, ha | hst⟩
    · rcases hf.eq with ⟨x, hx, _, _, rfl⟩
      refine ⟨of_update hx rfl (fun z hz => ?_), Nat.le_refl _⟩
      injection hz with hz
      rw [← hz]
      exact ⟨rfl, rfl⟩
    · rcases ha.eq with ⟨l, _, rfl⟩
      exact ⟨of_new rfl, Nat.le_succ _⟩
    · rw [hst.eq]
      exact ⟨of_new rfl, Nat.le_succ _⟩
    · rcases ha.eq with ⟨l, _, rfl⟩
      exact ⟨of_new rfl, Nat.le_succ _⟩
    · rw [hst.eq]
      exact ⟨of_new rfl, Nat.le_succ _⟩

theorem of_hookLeave {ok : Bool} {x : EventsCell} (hx : s.ev e = some x) (hn : 1 ≤ x.useCount)
    (h : s.hookLeave e ok = .ok s') : Descends s s' ∧ s'.nextEv = s.nextEv := by
  rcases hookLeave_cases hx hn h with ⟨l, _, _, rfl⟩ | ⟨k, rfl, _⟩
  · refine ⟨of_update hx rfl (fun z hz => ?_), rfl⟩
    injection hz with hz
    rw [← hz]
    exact ⟨rfl, rfl⟩
  · refine ⟨of_dropped hx rfl rfl rfl, ?_⟩
    unfold Io.dropped
    by_cases h1 : x.useCount ≤ 1
    · rw [if_pos h1]
      rfl
    · rw [if_neg h1]
      rfl

theorem of_close {ok : Bool} (ht : s.Tidy loc) (h : s.close t fd ok = .ok s') :
    Descends s s' ∧ s'.nextEv = s.nextEv := by
  rcases close_cases ht h with ⟨_, rfl⟩ | ⟨_, _, rfl⟩ | ⟨_, l, e, x, _, _, hx, _, _, rfl⟩
  · exact ⟨of_ev rfl, rfl⟩
  · exact ⟨of_ev (unmapped_ev s t fd), (unmapped_rest s t fd).1⟩
  · refine ⟨of_dropped hx (unmapped_ev s t fd) rfl rfl, ?_⟩
    unfold Io.dropped
    by_cases h1 : x.useCount ≤ 1
    · rw [if_pos h1]
      exact (unmapped_rest s t fd).1
    · rw [if_neg h1]
      exact (unmapped_rest s t fd).1

theorem of_loopEntry {p : PollerEvent} {r : Option McoRef} (ht : s.Tidy loc)
    (h : s.loopEntry t p = .ok (s', r)) : Descends s s' ∧ s'.nextEv = s.nextEv := by
  rcases loopEntry_cases ht h with ⟨_, rfl, _⟩ | ⟨l, e, x, _, _, hx, _, _, rfl, _⟩
  · exact ⟨of_ev rfl, rfl⟩
  · have hkeep := (x.obj.setMutable p.event).eventHandleAble_keeps
    refine ⟨of_update hx rfl (fun z hz => ?_), rfl⟩
    injection hz with hz
    rw [← hz]
    exact ⟨hkeep.1, hkeep.2.1⟩

end Descends

end Io

namespace Sys

variable {s s' : Sys} {t : Tid} {fd : Fd} {sp : Nat} {ok ok' : Bool}

/-- The objects held by the hooked calls in progress. -/
def locals (s : Sys) (c : McoRef) : Option EvRef := (s.frame c).map (fun fr => fr.event)

/-- The pointers are counted, and a hooked call holds an object of its own
    descriptor. -/
structure Tidy (s : Sys) : Prop where
  io : s.io.Tidy s.locals
  framed : ∀ c fr x, s.frame c = some fr → s.io.ev fr.event = some x → x.obj.fd = fr.fd

/-! ### The outcomes of the operations -/

/-- `mcosops::Resume` names the coroutine as the current one and resumes it. -/
theorem mcosopsResume_ok {mco : McoRef} {e : CallSite} (h : s.mcosopsResume t mco e = .ok s') :
    ∃ w, s.w.mcoResume t (some mco) e = .ok w ∧
      s' = { s with w := w, io := s.io.setCurMco t (some mco) } := by
  rcases (Fallible.bind_eq_ok_iff _ _ _).mp h with ⟨w, hw, h1⟩
  injection h1 with h1
  exact ⟨w, liftMco_ok hw, h1.symm⟩

/-- `Mcosops::Yield` yields the pool's current coroutine, if there is one. -/
theorem mcosopsYield_ok (h : s.mcosopsYield t sp = .ok s') :
    ∃ w, s' = { s with w := w } ∧ s.w.mcoYield t (s.io.getCurMco t) sp = .ok w := by
  unfold mcosopsYield at h
  cases hc : s.io.getCurMco t with
  | none =>
      rw [hc] at h
      injection h with h
      exact ⟨s.w, h.symm, rfl⟩
  | some mco =>
      rw [hc] at h
      rcases (Fallible.bind_eq_ok_iff _ _ _).mp h with ⟨w, hw, h1⟩
      injection h1 with h1
      exact ⟨w, h1.symm, liftMco_ok hw⟩

/-- The end of a hooked call gives up the object it has kept. -/
theorem leave_cases {c : McoRef} (h : s.leave c ok = .ok s') :
    ∃ fr io, s.frame c = some fr ∧ s.io.hookLeave fr.event ok = .ok io ∧
      s' = { s with io := io, frame := Function.update s.frame c none } := by
  unfold leave at h
  cases hf : s.frame c with
  | none =>
      rw [hf] at h
      cases h
  | some fr =>
      rw [hf] at h
      rcases (Fallible.bind_eq_ok_iff _ _ _).mp h with ⟨io, hio, h1⟩
      injection h1 with h1
      exact ⟨fr, io, rfl, hio, h1.symm⟩

/-- The tables when `c` starts a hooked call. -/
def reading (s : Sys) (fd : Fd) (c : McoRef) : Io := { s.io with kern := s.io.kern.use fd c }

/-- A hooked call goes straight to the system call, or is suspended with its
    object, or is not suspended and ends at once. -/
theorem hooked_cases (h : s.hooked t fd sp ok ok' = .ok s') :
    ∃ c, s.w.exec t = some c ∧
      ((∃ io, (s.reading fd c).hookEnter t fd ok = .ok (io, none) ∧ s' = { s with io := io }) ∨
       (∃ io e w, (s.reading fd c).hookEnter t fd ok = .ok (io, some e) ∧
          s.w.mcoYield t (io.getCurMco t) sp = .ok w ∧
          ((w.exec t ≠ some c ∧ s' = { s with
              w := w
              io := io
              frame := Function.update s.frame c
                (some { fd := fd, event := e, opening := s.io.kern.opening fd }) }) ∨
           (w.exec t = some c ∧ ∃ io', io.hookLeave e ok' = .ok io' ∧
              s' = { s with w := w, io := io', frame := Function.update s.frame c none })))) := by
  unfold hooked at h
  cases hx : s.w.exec t with
  | none =>
      rw [hx] at h
      cases h
  | some c =>
      rw [hx] at h
      refine ⟨c, rfl, ?_⟩
      rcases (Fallible.bind_eq_ok_iff _ _ _).mp h with ⟨⟨io, event⟩, hio, h1⟩
      cases event with
      | none =>
          injection h1 with h1
          exact Or.inl ⟨io, hio, h1.symm⟩
      | some e =>
          right
          rcases (Fallible.bind_eq_ok_iff _ _ _).mp h1 with ⟨s1, hy, h2⟩
          rcases mcosopsYield_ok hy with ⟨w, hs1, hw⟩
          rw [hs1] at h2
          refine ⟨io, e, w, hio, hw, ?_⟩
          by_cases hex : w.exec t = some c
          · right
            simp only [if_pos hex] at h2
            rcases leave_cases h2 with ⟨fr, io', hfr, hl, rfl⟩
            simp only [Function.update_self] at hfr
            injection hfr with hfr
            rw [← hfr] at hl
            refine ⟨hex, io', hl, ?_⟩
            simp only [Function.update_idem]
          · left
            simp only [if_neg hex] at h2
            injection h2 with h2
            exact ⟨hex, h2.symm⟩

theorem close_ok (h : s.close t fd ok = .ok s') :
    ∃ io, s.io.close t fd ok = .ok io ∧ s' = { s with io := io } := by
  rcases (Fallible.bind_eq_ok_iff _ _ _).mp h with ⟨io, hio, h1⟩
  injection h1 with h1
  exact ⟨io, hio, h1.symm⟩

theorem newLoop_ok (h : s.step (.newLoop t fd) = .ok s') :
    ∃ io, s.io.newLoop t fd = .ok io ∧ s' = { s with io := io } := by
  rcases (Fallible.bind_eq_ok_iff _ _ _).mp h with ⟨io, hio, h1⟩
  injection h1 with h1
  exact ⟨io, hio, h1.symm⟩

theorem finish_ok (h : s.step (.finish t sp) = .ok s') :
    ∃ w, s.w.coroutineRun t sp = .ok w ∧ s' = { s with w := w } := by
  rcases (Fallible.bind_eq_ok_iff _ _ _).mp h with ⟨w, hw, h1⟩
  injection h1 with h1
  exact ⟨w, liftMco_ok hw, h1.symm⟩

/-- The coroutine that goes on after a hooked call is the one that executes. -/
theorem wake_ok (h : s.step (.wake t ok) = .ok s') :
    ∃ c, s.w.exec t = some c ∧ s.leave c ok = .ok s' := by
  simp only [step] at h
  cases hx : s.w.exec t with
  | none =>
      rw [hx] at h
      cases h
  | some c =>
      rw [hx] at h
      exact ⟨c, rfl, h⟩

/-- The loop comes to a reported event and resumes a coroutine or none. -/
theorem dispatch_cases {e : CallSite} (h : s.dispatch t e = .ok s') :
    ∃ p rest io r, s.batch t = p :: rest ∧ s.io.loopEntry t p = .ok (io, r) ∧
      ((r = none ∧ s' = { s with io := io, batch := Function.update s.batch t rest }) ∨
       (∃ mco w, r = some mco ∧ s.w.mcoResume t (some mco) e = .ok w ∧
          s' = { s with
            w := w
            io := io.setCurMco t (some mco)
            batch := Function.update s.batch t rest })) := by
  unfold dispatch at h
  cases hb : s.batch t with
  | nil =>
      rw [hb] at h
      cases h
  | cons p rest =>
      rw [hb] at h
      rcases (Fallible.bind_eq_ok_iff _ _ _).mp h with ⟨⟨io, r⟩, hio, h1⟩
      refine ⟨p, rest, io, r, rfl, hio, ?_⟩
      cases r with
      | none =>
          injection h1 with h1
          exact Or.inl ⟨rfl, h1.symm⟩
      | some mco =>
          rcases mcosopsResume_ok h1 with ⟨w, hw, rfl⟩
          exact Or.inr ⟨mco, w, rfl, hw, rfl⟩

/-! ### The invariant of the pointers -/

/-- A call's object is one that has been made. -/
theorem Tidy.made (ht : s.Tidy) {c : McoRef} {fr : HookFrame} (hfr : s.frame c = some fr) :
    ∃ x, s.io.ev fr.event = some x ∧ 1 ≤ x.useCount ∧ fr.event < s.io.nextEv := by
  have hk : s.io.held s.locals (.call c) = some fr.event := by
    change s.locals c = _
    rw [locals, hfr, Option.map_some]
  rcases ht.io.live hk with ⟨x, hx, hpos⟩
  refine ⟨x, hx, hpos, ?_⟩
  by_contra hge
  rw [ht.io.unused fr.event (Nat.le_of_not_lt hge)] at hx
  cases hx

/-- What the tables' operations do to the objects of the suspended calls. -/
theorem Tidy.framed_of (ht : s.Tidy) {io : Io} (hd : s.io.Descends io) {c : McoRef} {fr : HookFrame}
    {x : EventsCell} (hfr : s.frame c = some fr) (hx : io.ev fr.event = some x) :
    x.obj.fd = fr.fd := by
  rcases ht.made hfr with ⟨_, _, _, hlt⟩
  rcases hd fr.event x hlt hx with ⟨y, hy, hfd, _⟩
  rw [hfd]
  exact ht.framed c fr y hfr hy

/-- The locals when a call of `c` starts or ends. -/
theorem locals_update (s : Sys) (w : World) (io : Io) (c : McoRef) (fr : Option HookFrame) :
    ({ s with w := w, io := io, frame := Function.update s.frame c fr } : Sys).locals
      = Function.update s.locals c (fr.map (fun f => f.event)) := by
  funext d
  by_cases hd : d = c
  · rw [hd, Function.update_self]
    change (Function.update s.frame c fr c).map _ = _
    rw [Function.update_self]
  · rw [Function.update_of_ne hd]
    change (Function.update s.frame c fr d).map _ = _
    rw [Function.update_of_ne hd]
    rfl

end Sys

-- The object a hooked call keeps is one of its descriptor.
theorem Io.hookEnter_obj {s s' : Io} {loc : McoRef → Option EvRef} {t : Tid} {fd : Fd} {ok : Bool}
    {e : EvRef} (ht : s.Tidy loc) (h : s.hookEnter t fd ok = .ok (s', some e)) :
    ∃ x, s'.ev e = some x ∧ x.obj.fd = fd ∧ x.obj.tid = t ∧ 1 ≤ x.useCount := by
  rcases hookEnter_cases ht h with ⟨hr, _, _⟩ | ⟨_, _, mco, e', hr, _, hcase⟩
  · cases hr
  · injection hr with hr
    rw [hr]
    rcases hcase with ⟨_, hf | ⟨rfl, ha | hst⟩⟩ | ⟨_, rfl, ha | hst⟩
    · rcases hf.eq with ⟨x, _, hfd, htid, rfl⟩
      exact ⟨_, Function.update_self _ _ _, hfd, htid, Nat.le_add_left _ _⟩
    · rcases ha.eq with ⟨l, _, rfl⟩
      exact ⟨_, Function.update_self _ _ _, rfl, rfl, Nat.le_add_left _ _⟩
    · rw [hst.eq]
      exact ⟨_, Function.update_self _ _ _, rfl, rfl, Nat.le_refl _⟩
    · rcases ha.eq with ⟨l, _, rfl⟩
      exact ⟨_, Function.update_self _ _ _, rfl, rfl, Nat.le_add_left _ _⟩
    · rw [hst.eq]
      exact ⟨_, Function.update_self _ _ _, rfl, rfl, Nat.le_refl _⟩

namespace Sys

variable {s s' : Sys}

/-- At the start there is nothing to account for. -/
theorem tidy_init (h : SysInit s) : s.Tidy := by
  have hentry : ∀ t fd, s.io.entry t fd = none := by
    intro t fd
    rw [Io.entry, h.loop t, Option.bind_none]
  refine ⟨⟨⟨fun k r hk => ?_, fun r n hr => ?_⟩, fun e _ => h.ev e, fun t fd e c hc => ?_⟩,
    fun c fr x hfr => ?_⟩
  · cases k with
    | table t fd =>
        have hk' : s.io.entry t fd = some r := hk
        rw [hentry t fd] at hk'
        cases hk'
    | wake t =>
        have hk' : (s.io.loop t).map (fun l => l.wakeEvent) = some r := hk
        rw [h.loop t] at hk'
        cases hk'
    | call c =>
        have hk' : (s.frame c).map (fun fr => fr.event) = some r := hk
        rw [h.frame c] at hk'
        cases hk'
  · rw [Io.count, h.ev r] at hr
    cases hr
  · rw [hentry t fd] at hc
    cases hc
  · rw [h.frame c] at hfr
    cases hfr

-- Changes that concern neither the objects nor the calls.
theorem Tidy.congr (ht : s.Tidy) (hl : s'.io.loop = s.io.loop) (he : s'.io.ev = s.io.ev)
    (hn : s'.io.nextEv = s.io.nextEv) (hf : s'.frame = s.frame) : s'.Tidy := by
  have hloc : s'.locals = s.locals := by
    funext c
    rw [locals, locals, hf]
  refine ⟨?_, fun c fr x hfr hx => ?_⟩
  · rw [hloc]
    exact ht.io.congr hl he hn
  · rw [hf] at hfr
    rw [he] at hx
    exact ht.framed c fr x hfr hx

-- A change of the tables alone.
theorem Tidy.tables (ht : s.Tidy) {io : Io} {bs : Tid → List PollerEvent} {w : World}
    (hio : io.Tidy s.locals) (hd : s.io.Descends io) :
    ({ s with w := w, io := io, batch := bs } : Sys).Tidy :=
  ⟨hio, fun _ _ _ hfr hx => ht.framed_of hd hfr hx⟩

/-- The end of a hooked call of `c`. -/
theorem Tidy.leave {c : McoRef} {ok : Bool} (ht : s.Tidy) (h : s.leave c ok = .ok s') :
    s'.Tidy := by
  rcases leave_cases h with ⟨fr, io, hfr, hl, rfl⟩
  have hloc : s.locals c = some fr.event := by rw [locals, hfr, Option.map_some]
  rcases ht.made hfr with ⟨x, hx, hpos, _⟩
  have hd := (Io.Descends.of_hookLeave hx hpos hl).1
  have heq := locals_update s s.w io c none
  refine ⟨?_, fun d fr' y hfr' hy => ?_⟩
  · rw [heq]
    exact ht.io.hookLeave hloc hl
  · have hfr'' : Function.update s.frame c none d = some fr' := hfr'
    by_cases hdc : d = c
    · rw [hdc, Function.update_self] at hfr''
      cases hfr''
    · rw [Function.update_of_ne hdc] at hfr''
      exact ht.framed_of hd hfr'' hy

/-- A hooked call of the coroutine executing. -/
theorem Tidy.hooked {t : Tid} {fd : Fd} {sp : Nat} {ok ok' : Bool} (ht : s.Tidy)
    (h : s.hooked t fd sp ok ok' = .ok s') : s'.Tidy := by
  rcases hooked_cases h with ⟨c, _, ⟨io, hio, rfl⟩ | ⟨io, e, w, hio, _, hcase⟩⟩
  · have hread : (s.reading fd c).Tidy s.locals := ht.io.congr rfl rfl rfl
    rcases Io.hookEnter_cases hread hio with ⟨_, rfl, _⟩ | ⟨_, _, mco, e, hr, _⟩
    · exact ht.congr rfl rfl rfl rfl
    · cases hr
  · have hread : (s.reading fd c).Tidy s.locals := ht.io.congr rfl rfl rfl
    have hd := Io.Descends.of_hookEnter hread hio
    rcases Io.hookEnter_obj hread hio with ⟨x, hx, hfd, _, _⟩
    rcases hread.hookEnter c hio with ⟨hr, _⟩ | ⟨e', hr, htidy⟩
    · cases hr
    · injection hr with hr
      rw [← hr] at htidy
      -- The state while the call is suspended.
      have hin : ({ s with
          w := w
          io := io
          frame := Function.update s.frame c
            (some { fd := fd, event := e, opening := s.io.kern.opening fd }) } : Sys).Tidy := by
        refine ⟨?_, fun d fr y hfr hy => ?_⟩
        · rw [locals_update]
          exact htidy
        · have hfr' : Function.update s.frame c
            (some { fd := fd, event := e, opening := s.io.kern.opening fd }) d = some fr := hfr
          by_cases hdc : d = c
          · rw [hdc, Function.update_self] at hfr'
            injection hfr' with hfr'
            rw [← hfr'] at hy ⊢
            have hy' : io.ev e = some y := hy
            rw [hx] at hy'
            injection hy' with hy'
            rw [← hy']
            exact hfd
          · rw [Function.update_of_ne hdc] at hfr'
            exact ht.framed_of hd.1 hfr' hy
      rcases hcase with ⟨_, rfl⟩ | ⟨_, io', hl, rfl⟩
      · exact hin
      · have hleave : Sys.leave { s with
            w := w
            io := io
            frame := Function.update s.frame c
              (some { fd := fd, event := e, opening := s.io.kern.opening fd }) } c ok' = .ok
            { s with w := w, io := io', frame := Function.update s.frame c none } := by
          simp only [Sys.leave, Function.update_self, hl, Function.update_idem]
          rfl
        exact hin.leave hleave

/-- Every operation keeps the pointers good. -/
theorem tidy_step {a : SysOp} (ht : s.Tidy) (ha : s.Supplied a) (h : s.step a = .ok s') :
    s'.Tidy := by
  cases a with
  | newLoop t fd =>
      rcases newLoop_ok h with ⟨io, hio, rfl⟩
      have hd : s.io.Descends io := by
        rcases Io.newLoop_cases hio with ⟨l, _, _, _, rfl⟩
        exact Io.Descends.of_new rfl
      exact ht.tables (ht.io.newLoop ha.1 hio) hd
  | openFd fd nonblock =>
      injection h with h
      rw [← h]
      exact ht.congr rfl rfl rfl rfl
  | spawn c =>
      injection h with h
      rw [← h]
      exact ht.congr rfl rfl rfl rfl
  | resume t c e =>
      rcases mcosopsResume_ok h with ⟨w, _, rfl⟩
      exact ht.congr rfl rfl rfl rfl
  | yield t sp =>
      rcases mcosopsYield_ok h with ⟨w, rfl, _⟩
      exact ht.congr rfl rfl rfl rfl
  | finish t sp =>
      rcases finish_ok h with ⟨w, _, rfl⟩
      exact ht.congr rfl rfl rfl rfl
  | read t fd sp ok ok' => exact ht.hooked h
  | accept t fd sp ok ok' => exact ht.hooked h
  | wake t ok =>
      rcases wake_ok h with ⟨c, _, h⟩
      exact ht.leave h
  | close t fd ok =>
      rcases close_ok h with ⟨io, hio, rfl⟩
      exact ht.tables (ht.io.close hio) (Io.Descends.of_close ht.io hio).1
  | poll t events =>
      injection h with h
      rw [← h]
      exact ht.congr rfl rfl rfl rfl
  | dispatch t e =>
      rcases dispatch_cases h with ⟨p, rest, io, r, _, hio, hcase⟩
      have hd := (Io.Descends.of_loopEntry ht.io hio).1
      have htidy := ht.io.loopEntry hio
      rcases hcase with ⟨_, rfl⟩ | ⟨mco, w, _, _, rfl⟩
      · exact ht.tables htidy hd
      · exact ht.tables (htidy.congr rfl rfl rfl) (fun d x hlt hx => hd d x hlt hx)

/-! ### What no operation changes -/

end Sys

namespace Io

variable {s s' : Io} {loc : McoRef → Option EvRef} {t : Tid} {fd : Fd} {e : EvRef} {ok : Bool}

theorem hookEnter_hookable {r : Option EvRef} (ht : s.Tidy loc)
    (h : s.hookEnter t fd ok = .ok (s', r)) : s'.hookable = s.hookable := by
  rcases hookEnter_cases ht h with ⟨_, rfl, _⟩ | ⟨_, _, mco, e, _, _, hcase⟩
  · rfl
  · rcases hcase with ⟨_, hf | ⟨_, ha | hst⟩⟩ | ⟨_, _, ha | hst⟩
    · rcases hf.eq with ⟨_, _, _, _, rfl⟩
      rfl
    · rcases ha.eq with ⟨_, _, rfl⟩
      rfl
    · rw [hst.eq]
      rfl
    · rcases ha.eq with ⟨_, _, rfl⟩
      rfl
    · rw [hst.eq]
      rfl

theorem dropped_hookable (s : Io) (e : EvRef) (obj : Events) (n : Nat) (k : Kernel) :
    (s.dropped e obj n k).hookable = s.hookable := by
  unfold dropped
  by_cases hn : n ≤ 1
  · rw [if_pos hn]
    rfl
  · rw [if_neg hn]
    rfl

theorem hookLeave_hookable {x : EventsCell} (hx : s.ev e = some x) (hn : 1 ≤ x.useCount)
    (h : s.hookLeave e ok = .ok s') : s'.hookable = s.hookable := by
  rcases hookLeave_cases hx hn h with ⟨_, _, _, rfl⟩ | ⟨k, rfl, _⟩
  · rfl
  · exact dropped_hookable s e _ _ k

theorem close_hookable (ht : s.Tidy loc) (h : s.close t fd ok = .ok s') :
    s'.hookable = s.hookable := by
  have hmap : (s.unmapped t fd).hookable = s.hookable := by
    unfold unmapped
    by_cases hc : s.getCurMco t = s.getMcoRoutine t fd
    · rw [if_pos hc]
      rfl
    · rw [if_neg hc]
      rfl
  rcases close_cases ht h with ⟨_, rfl⟩ | ⟨_, _, rfl⟩ | ⟨_, l, e, x, _, _, _, _, _, rfl⟩
  · rfl
  · exact hmap
  · exact (dropped_hookable _ e _ _ _).trans hmap

theorem loopEntry_hookable {p : PollerEvent} {r : Option McoRef} (ht : s.Tidy loc)
    (h : s.loopEntry t p = .ok (s', r)) : s'.hookable = s.hookable := by
  rcases loopEntry_cases ht h with ⟨_, rfl, _⟩ | ⟨l, e, x, _, _, _, _, _, rfl, _⟩
  · rfl
  · rfl

end Io

namespace Sys

variable {s s' : Sys}

theorem leave_hookable {c : McoRef} {ok : Bool} (ht : s.Tidy) (h : s.leave c ok = .ok s') :
    s'.io.hookable = s.io.hookable := by
  rcases leave_cases h with ⟨fr, io, hfr, hl, rfl⟩
  rcases ht.made hfr with ⟨x, hx, hpos, _⟩
  exact Io.hookLeave_hookable hx hpos hl

/-- A hooked call does not change whether calls are hooked. -/
theorem hooked_hookable {t : Tid} {fd : Fd} {sp : Nat} {ok ok' : Bool} (ht : s.Tidy)
    (h : s.hooked t fd sp ok ok' = .ok s') : s'.io.hookable = s.io.hookable := by
  rcases hooked_cases h with ⟨c, _, ⟨io, hio, rfl⟩ | ⟨io, e, w, hio, _, hcase⟩⟩
  · have hread : (s.reading fd c).Tidy s.locals := ht.io.congr rfl rfl rfl
    have hin : io.hookable = (s.reading fd c).hookable := Io.hookEnter_hookable hread hio
    exact hin
  · have hread : (s.reading fd c).Tidy s.locals := ht.io.congr rfl rfl rfl
    have hin : io.hookable = (s.reading fd c).hookable := Io.hookEnter_hookable hread hio
    rcases hcase with ⟨_, rfl⟩ | ⟨_, io', hl, rfl⟩
    · exact hin
    · rcases Io.hookEnter_obj hread hio with ⟨x, hx, _, _, hpos⟩
      exact (Io.hookLeave_hookable hx hpos hl).trans hin

/-- Nobody turns the hooks on or off. -/
theorem hookable_step {a : SysOp} (ht : s.Tidy) (h : s.step a = .ok s') :
    s'.io.hookable = s.io.hookable := by
  cases a with
  | newLoop t fd =>
      rcases newLoop_ok h with ⟨io, hio, rfl⟩
      rcases Io.newLoop_cases hio with ⟨l, _, _, _, rfl⟩
      rfl
  | openFd fd nonblock =>
      injection h with h
      rw [← h]
  | spawn c =>
      injection h with h
      rw [← h]
  | resume t c e =>
      rcases mcosopsResume_ok h with ⟨w, _, rfl⟩
      rfl
  | yield t sp =>
      rcases mcosopsYield_ok h with ⟨w, rfl, _⟩
      rfl
  | finish t sp =>
      rcases finish_ok h with ⟨w, _, rfl⟩
      rfl
  | read t fd sp ok ok' => exact hooked_hookable ht h
  | accept t fd sp ok ok' => exact hooked_hookable ht h
  | wake t ok =>
      rcases wake_ok h with ⟨c, _, h⟩
      exact leave_hookable ht h
  | close t fd ok =>
      rcases close_ok h with ⟨io, hio, rfl⟩
      exact Io.close_hookable ht.io hio
  | poll t events =>
      injection h with h
      rw [← h]
  | dispatch t e =>
      rcases dispatch_cases h with ⟨p, rest, io, r, _, hio, hcase⟩
      have hin := Io.loopEntry_hookable ht.io hio
      rcases hcase with ⟨_, rfl⟩ | ⟨mco, w, _, _, rfl⟩
      · exact hin
      · exact hin

theorem hooked_batch {t : Tid} {fd : Fd} {sp : Nat} {ok ok' : Bool}
    (h : s.hooked t fd sp ok ok' = .ok s') : s'.batch = s.batch := by
  rcases hooked_cases h with ⟨c, _, ⟨io, _, rfl⟩ | ⟨io, e, w, _, _, ⟨_, rfl⟩ | ⟨_, io', _, rfl⟩⟩⟩
  · rfl
  · rfl
  · rfl

/-- Only `epoll_wait` and the loop change what waits to be handled. -/
theorem batch_step {a : SysOp} (h : s.step a = .ok s') :
    s'.batch = s.batch ∨ (∃ t events, a = .poll t events) ∨ ∃ t e, a = .dispatch t e := by
  cases a with
  | newLoop t fd =>
      rcases newLoop_ok h with ⟨io, _, rfl⟩
      exact Or.inl rfl
  | openFd fd nonblock =>
      injection h with h
      exact Or.inl (by rw [← h])
  | spawn c =>
      injection h with h
      exact Or.inl (by rw [← h])
  | resume t c e =>
      rcases mcosopsResume_ok h with ⟨w, _, rfl⟩
      exact Or.inl rfl
  | yield t sp =>
      rcases mcosopsYield_ok h with ⟨w, rfl, _⟩
      exact Or.inl rfl
  | finish t sp =>
      rcases finish_ok h with ⟨w, _, rfl⟩
      exact Or.inl rfl
  | read t fd sp ok ok' => exact Or.inl (hooked_batch h)
  | accept t fd sp ok ok' => exact Or.inl (hooked_batch h)
  | wake t ok =>
      rcases wake_ok h with ⟨c, _, h⟩
      rcases leave_cases h with ⟨fr, io, _, _, rfl⟩
      exact Or.inl rfl
  | close t fd ok =>
      rcases close_ok h with ⟨io, _, rfl⟩
      exact Or.inl rfl
  | poll t events => exact Or.inr (Or.inl ⟨t, events, rfl⟩)
  | dispatch t e => exact Or.inr (Or.inr ⟨t, e, rfl⟩)

/-- The pointers are good in every state a run reaches. -/
theorem tidy_run {ok : Sys → SysOp → Prop} {s₀ : Sys} {as : List SysOp} (h₀ : SysInit s₀)
    (hok : ∀ s a, ok s a → s.Supplied a) (h : Fallible.Runs step ok s₀ as s) : s.Tidy :=
  h.invariant (I := Tidy) (fun _ _ _ ht ha hs => tidy_step ht (hok _ _ ha) hs) (tidy_init h₀)

end Sys

end Fasco
