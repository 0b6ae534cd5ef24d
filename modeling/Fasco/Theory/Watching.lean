import Fasco.Theory.Flow
import Fasco.Theory.KernelCalls
import Fasco.Theory.Performing

/-!
# Watching

A coroutine that waits is woken by its loop, and its loop is woken by the
kernel. So a descriptor that a coroutine waits for has to be in the epoll set of
the coroutine's thread, with reading asked for, and what the loop keeps of the
object must let the report through. Otherwise the coroutine sleeps for good.
The code does not look at what `epoll_ctl` returns, so this rests on its
success, which is assumed here; the kernel still refuses to add a descriptor
that is watched and to change one that is not.

The interest is set on one thread and needed on another: the acceptor registers
a connection with the loop of a worker, and the worker's coroutine changes it
from then on, reading being asked for before each yield and given up after it.
While a coroutine is somewhere else in its code its interest can be anything.

## Main definitions

* `TcpOp.succeeds`: The steps in which every `epoll_ctl` succeeds.
* `Pos.asks`, `Pos.watched`: Where the object asks for reading, and where the
  kernel has been told.
* `TcpSys.Watching`: The invariant.

## Theorems

* `did_ev`, `did_interest`, `did_listed`: What the calls of one step do to an
  object, to what the kernel watches, and to both together.
* `waiting_is_watched`: The descriptor of a coroutine that waits is watched,
  and a report for it gets through.
-/

namespace Fasco

open Fallible

namespace Kernel

variable {k : Kernel} {t u : Tid} {fd g : Fd} {events : UInt32} {ok : Bool}

theorem setInterest_interest (k : Kernel) (t : Tid) (fd : Fd) (i : Option UInt32) (u : Tid)
    (g : Fd) :
    (k.setInterest t fd i).interest u g = if u = t ∧ g = fd then i else k.interest u g := by
  simp only [setInterest]
  by_cases hu : u = t
  · rw [hu, Function.update_self]
    by_cases hg : g = fd
    · rw [if_pos ⟨rfl, hg⟩, hg, Function.update_self]
    · rw [if_neg (fun h => hg h.2), Function.update_of_ne hg]
  · rw [if_neg (fun h => hu h.1), Function.update_of_ne hu]

/-- A request concerns one descriptor on one thread. -/
theorem ctl_interest (b : Bool) (i : Option UInt32) (h : ¬ (u = t ∧ g = fd)) :
    (if b then (k.setInterest t fd i, true) else (k, false)).1.interest u g = k.interest u g := by
  by_cases hb : b = true
  · rw [if_pos hb]
    exact (setInterest_interest k t fd i u g).trans (if_neg h)
  · rw [if_neg hb]

/-- A request that is granted. -/
theorem ctl_done {b : Bool} (hb : b = true) (i : Option UInt32) :
    (if b then (k.setInterest t fd i, true) else (k, false)).1.interest t fd = i := by
  rw [if_pos hb]
  exact (setInterest_interest k t fd i t fd).trans (if_pos ⟨rfl, rfl⟩)

theorem eventAdd_interest (h : ¬ (u = t ∧ g = fd)) :
    (k.eventAdd t fd events ok).1.interest u g = k.interest u g :=
  ctl_interest _ _ h

theorem eventMod_interest (h : ¬ (u = t ∧ g = fd)) :
    (k.eventMod t fd events ok).1.interest u g = k.interest u g :=
  ctl_interest _ _ h

theorem eventDel_interest (h : ¬ (u = t ∧ g = fd)) :
    (k.eventDel t fd ok).1.interest u g = k.interest u g :=
  ctl_interest _ _ h

/-- Adding an open descriptor that is not watched. -/
theorem eventAdd_done (ho : k.isOpen fd = true) (hn : k.interest t fd = none) :
    (k.eventAdd t fd events true).1.interest t fd = some events :=
  ctl_done (by rw [ho, hn]; rfl) _

/-- Changing one that is. -/
theorem eventMod_done (hs : (k.interest t fd).isSome) :
    (k.eventMod t fd events true).1.interest t fd = some events :=
  ctl_done (by rw [hs]; rfl) _

/-- What has been removed is not watched. -/
theorem eventDel_done : (k.eventDel t fd true).1.interest t fd = none := by
  unfold eventDel
  cases hi : (k.interest t fd).isSome with
  | true => exact ctl_done rfl _
  | false =>
      rw [if_neg (by decide)]
      exact Option.not_isSome_iff_eq_none.mp (by rw [hi]; decide)

/-- A change makes nothing watched. -/
theorem eventMod_some (h : ((k.eventMod t fd events ok).1.interest u g).isSome) :
    (k.interest u g).isSome := by
  by_cases hug : u = t ∧ g = fd
  · unfold eventMod at h
    by_cases hc : (ok && (k.interest t fd).isSome) = true
    · rw [hug.1, hug.2]
      exact (Bool.and_eq_true_iff.mp hc).2
    · rw [if_neg hc] at h
      exact h
  · rw [eventMod_interest hug] at h
    exact h

theorem uniClose_interest (k : Kernel) (fd : Fd) (t : Tid) (g : Fd) :
    (k.uniClose fd).interest t g = if g = fd then none else k.interest t g :=
  Function.update_apply _ _ _ _

end Kernel

namespace Io

variable {R T : Option EvRef} {s s' : Io} {loc : McoRef → Option EvRef} {e d : EvRef} {t : Tid}
  {ok : Bool} {x y y' : EventsCell} {k : Kernel}

/-! ### Single calls -/

/-- A pointer that goes changes no object that stays. -/
theorem dropped_ev (hx : s.ev e = some x)
    (h : (s.dropped e x.obj x.useCount k).ev d = some y') :
    ∃ y, s.ev d = some y ∧ y'.obj = y.obj := by
  by_cases hd : d = e
  · rw [hd] at h
    exact ⟨x, by rw [hd, hx], dropped_obj h⟩
  · refine ⟨y', ?_, rfl⟩
    unfold dropped at h
    by_cases hn : x.useCount ≤ 1
    · rw [if_pos hn] at h
      exact (Function.update_of_ne hd _ _).symm.trans h
    · rw [if_neg hn] at h
      exact (Function.update_of_ne hd _ _).symm.trans h

/-- It does not concern what is watched under another number. -/
theorem dropped_other (h : ((s.dropped e x.obj x.useCount k).ev d).isSome)
    (hne : e ≠ d → x.obj.fd ≠ y.obj.fd) (t : Tid) :
    (s.dropped e x.obj x.useCount k).kern.interest t y.obj.fd = k.interest t y.obj.fd := by
  unfold dropped at h ⊢
  by_cases hn : x.useCount ≤ 1
  · rw [if_pos hn] at h ⊢
    -- The object is gone, so it is not this one.
    have hed : e ≠ d := by
      rintro rfl
      have h' : (Function.update s.ev e none e).isSome := h
      rw [Function.update_self] at h'
      cases h'
    exact (Kernel.uniClose_interest k x.obj.fd t y.obj.fd).trans (if_neg (hne hed).symm)
  · rw [if_neg hn]

theorem dropped_watched {n : Nat} {o : Events} {g : Fd}
    (h : ((s.dropped e o n k).kern.interest t g).isSome) : (k.interest t g).isSome := by
  unfold dropped at h
  by_cases hn : n ≤ 1
  · rw [if_pos hn] at h
    have h' : ((k.uniClose o.fd).interest t g).isSome := h
    rw [Kernel.uniClose_interest] at h'
    by_cases hg : g = o.fd
    · rw [if_pos hg] at h'
      cases h'
    · rw [if_neg hg] at h'
      exact h'
  · rw [if_neg hn] at h
    exact h

theorem dropped_entry {n : Nat} {o : Events} (u : Tid) (g : Fd) :
    (s.dropped e o n k).entry u g = s.entry u g := by
  rw [entry, entry, dropped_pool.2]

theorem told_ev {l : Tid} (h : s.updateEvents l e ok = .ok s') (hy : s'.ev d = some y') :
    ∃ y, s.ev d = some y ∧ y'.obj = y.obj := by
  rcases updateEvents_cases h with ⟨lp, x, _, hx, rfl | ⟨_, rfl⟩ | ⟨_, rfl⟩ | ⟨old, z, _, hz, rfl⟩⟩
  · exact ⟨y', hy, rfl⟩
  · by_cases hd : d = e
    · rw [hd] at hy ⊢
      change Function.update s.ev e _ e = some y' at hy
      rw [Function.update_self] at hy
      injection hy with hy
      exact ⟨x, hx, by rw [← hy]⟩
    · exact ⟨y', (Function.update_of_ne hd _ _).symm.trans hy, rfl⟩
  · exact ⟨y', hy, rfl⟩
  · exact dropped_ev (s := s.setTable l lp x.obj.fd none) hz hy

/-- The loop is told of a change to an object in its table. -/
theorem told_mod (hx : s.ev e = some x) (hst : x.obj.state = .MOD)
    (hent : s.entry t x.obj.fd = some e) (h : s.updateEvents t e ok = .ok s') :
    s' = { s with kern := (s.kern.eventMod t x.obj.fd x.obj.eorigin ok).1 } := by
  rcases loop_of_entry hent with ⟨l, hl, hle⟩
  have hi : x.obj.invaild = false := by
    rw [Events.invaild, hst]
    rfl
  have hnew : x.obj.isnew = false := by
    rw [Events.isnew, hst]
    rfl
  have hmod : x.obj.ismod = true := by
    rw [Events.ismod, hst]
    rfl
  unfold updateEvents pollUpdate at h
  simp only [hl, hx, hi, hnew, hmod, hle, Bool.false_eq_true, if_false, if_true] at h
  injection h with h
  exact h.symm

/-- The loop is told of a new object. -/
theorem told_new (hx : s.ev e = some x) (hst : x.obj.state = .NEW)
    (h : s.updateEvents t e ok = .ok s') :
    s'.kern = (s.kern.eventAdd t x.obj.fd x.obj.eorigin ok).1 ∧ s.entry t x.obj.fd = none := by
  have hi : x.obj.invaild = false := by
    rw [Events.invaild, hst]
    rfl
  have hnew : x.obj.isnew = true := by
    rw [Events.isnew, hst]
    rfl
  unfold updateEvents at h
  cases hl : s.loop t with
  | none =>
      rw [hl] at h
      cases h
  | some l =>
      rw [hl] at h
      simp only [pollUpdate, hx, hi, hnew, Bool.false_eq_true, if_false, if_true] at h
      rw [entry_of_loop hl]
      cases hle : l.events x.obj.fd with
      | some _ =>
          rw [hle] at h
          cases h
      | none =>
          rw [hle] at h
          rcases tableAdd_ok h with ⟨_, _, rfl⟩
          exact ⟨rfl, rfl⟩

/-! ### The calls of one step -/

/-- The objects of a step's end are new, or have their descriptors and, but for
    `R`, the state and what they ask for. -/
theorem did_ev (h : Did R T ok s s') (hy : s'.ev d = some y') :
    s.nextEv ≤ d ∨ ∃ y, s.ev d = some y ∧ y'.obj.fd = y.obj.fd ∧
      (R ≠ some d → y'.obj.eorigin = y.obj.eorigin ∧ y'.obj.state = y.obj.state) := by
  have hquiet : ∀ {s1 : Io} {y1 : EventsCell}, Quiet R s s1 → s1.ev d = some y1 →
      s.nextEv ≤ d ∨ ∃ y, s.ev d = some y ∧ y1.obj.fd = y.obj.fd ∧
        (R ≠ some d → y1.obj.eorigin = y.obj.eorigin ∧ y1.obj.state = y.obj.state) := by
    intro s1 y1 hq hy1
    rcases hq.made d (by rw [hy1]; rfl) with hold | hnew
    · rcases Option.isSome_iff_exists.mp hold with ⟨y, hy⟩
      rcases hq.kept d y hy with ⟨z, hz, hf, hR⟩
      rw [hy1] at hz
      injection hz with hz
      rw [hz]
      exact .inr ⟨y, hy, hf, hR⟩
    · exact .inl hnew
  induction h generalizing y' with
  | quiet h => exact hquiet h hy
  | told h _ _ hs =>
      rcases told_ev hs hy with ⟨y1, hy1, hobj⟩
      rw [hobj]
      exact hquiet h hy1
  | freed _ _ hs ih =>
      rcases release_ok hs with ⟨x, hx, rfl⟩
      rcases dropped_ev hx hy with ⟨y1, hy1, hobj⟩
      rw [hobj]
      exact ih hy1

/-- An object that stays and is not told of: what the kernel watches under its
    number, and what it asks for, stay. -/
def Spares (R T : Option EvRef) (s s' : Io) : Prop :=
  ∀ d y y', s.ev d = some y → s'.ev d = some y' → T ≠ some d →
    (∀ t, s'.kern.interest t y.obj.fd = s.kern.interest t y.obj.fd) ∧
    (R ≠ some d → y'.obj.eorigin = y.obj.eorigin ∧ y'.obj.state = y.obj.state)

/-- Two objects do not have the same number, also later in the step. -/
theorem did_apart (hn : s.Neat loc) (h : Did R T ok s s') (hy : s.ev d = some y)
    (he : (s.ev e).isSome) (hne : e ≠ d) (hx : s'.ev e = some x) : x.obj.fd ≠ y.obj.fd := by
  intro hf
  rcases Option.isSome_iff_exists.mp he with ⟨z, hz⟩
  rcases did_ev h hx with hnew | ⟨w, hw, hfd, _⟩
  · rw [hn.tidy.unused e hnew] at hz
    cases hz
  · exact hne (hn.apart e d w y hw hy (hfd.symm.trans hf))

theorem did_interest (hn : s.Neat loc) (h : Did R T ok s s') (hy : s.ev d = some y)
    (hy' : (s'.ev d).isSome) (hT : T ≠ some d) (t : Tid) :
    s'.kern.interest t y.obj.fd = s.kern.interest t y.obj.fd := by
  induction h with
  | quiet h => rw [h.kern]
  | told h hTe he hs =>
      rename_i s1 s2 l e
      have hne : e ≠ d := by
        rintro rfl
        exact hT hTe
      have hkern := congrArg (fun k => k.interest t y.obj.fd) h.kern
      rcases updateEvents_cases hs with ⟨lp, x, hl, hx, hcases⟩
      have hbefore : Did R T ok s s1 := .quiet h
      have hfd : x.obj.fd ≠ y.obj.fd := did_apart hn hbefore hy he hne hx
      have hno : ¬ (t = l ∧ y.obj.fd = x.obj.fd) := fun h => hfd h.2.symm
      rcases hcases with rfl | ⟨_, rfl⟩ | ⟨_, rfl⟩ | ⟨old, z, hold, hz, rfl⟩
      · exact hkern
      · exact (Kernel.eventAdd_interest hno).trans hkern
      · exact (Kernel.eventMod_interest hno).trans hkern
      -- The object in the table has the number it is under.
      · have hent : s.entry l x.obj.fd = some old := by
          rw [entry, ← h.loop, hl]
          exact hold
        rcases hn.tidy.live (k := .table l x.obj.fd) hent with ⟨w, hw, _⟩
        rcases h.kept old w hw with ⟨w', hw', hwf, _⟩
        rw [hz] at hw'
        injection hw' with hw'
        have hzf : z.obj.fd = x.obj.fd := by
          rw [hw', hwf]
          exact (hn.entry_of hw hent).1
        exact ((dropped_other hy' (fun _ => by rw [hzf]; exact hfd) t).trans
          (Kernel.eventDel_interest hno)).trans hkern
  | freed h he hs ih =>
      rcases release_ok hs with ⟨x, hx, rfl⟩
      rcases Option.isSome_iff_exists.mp hy' with ⟨z, hz⟩
      rcases dropped_ev hx hz with ⟨z1, hz1, _⟩
      exact (dropped_other hy' (fun hne => did_apart hn h hy he hne hx) t).trans
        (ih (by rw [hz1]; rfl))

theorem did_spares (hn : s.Neat loc) (h : Did R T ok s s') : Spares R T s s' := by
  intro d y y' hy hy' hT
  refine ⟨did_interest hn h hy (by rw [hy']; rfl) hT, fun hR => ?_⟩
  rcases did_ev h hy' with hnew | ⟨z, hz, _, hkeep⟩
  · rw [hn.tidy.unused d hnew] at hy
    cases hy
  · rw [hy] at hz
    injection hz with hz
    rw [hz]
    exact hkeep hR

/-- What is watched is in the table. -/
def Listed (s : Io) : Prop :=
  ∀ t g, (s.kern.interest t g).isSome → (s.entry t g).isSome

theorem told_listed {l : Tid} (he : s.Listed) (h : s.updateEvents l e true = .ok s') :
    s'.Listed := by
  intro t g hi
  rcases updateEvents_cases h with ⟨lp, x, hl, _, rfl | ⟨_, rfl⟩ | ⟨_, rfl⟩ | ⟨old, z, _, _, rfl⟩⟩
  · exact he t g hi
  · change ((s.setTable l lp x.obj.fd (some e)).entry t g).isSome
    rw [setTable_entry s l lp _ _ hl]
    by_cases htg : t = l ∧ g = x.obj.fd
    · rw [if_pos htg]
      rfl
    · rw [if_neg htg]
      refine he t g ?_
      rw [← Kernel.eventAdd_interest htg]
      exact hi
  · exact he t g (Kernel.eventMod_some hi)
  -- What leaves the table is no longer watched.
  · have hi' := dropped_watched hi
    rw [dropped_entry, setTable_entry s l lp _ _ hl]
    by_cases htg : t = l ∧ g = x.obj.fd
    · rw [htg.1, htg.2, Kernel.eventDel_done] at hi'
      cases hi'
    · rw [if_neg htg]
      refine he t g ?_
      rw [← Kernel.eventDel_interest htg]
      exact hi'

theorem did_listed (he : s.Listed) (h : Did R T true s s') : s'.Listed := by
  have hquiet : ∀ {s1 : Io}, Quiet R s s1 → s1.Listed := by
    intro s1 hq t g hi
    rw [hq.kern] at hi
    rw [entry, hq.loop]
    exact he t g hi
  induction h with
  | quiet h => exact hquiet h
  | told h _ _ hs => exact told_listed (hquiet h) hs
  | freed _ _ hs ih =>
      intro t g hi
      rcases release_ok hs with ⟨x, _, rfl⟩
      rw [dropped_entry]
      exact ih t g (dropped_watched hi)

end Io

/-! ### Coroutines and the kernel -/

/-- Every `epoll_ctl` in this step succeeds. -/
def TcpOp.succeeds : TcpOp → Bool
  | .start _ _ _ ok => ok
  | .run _ i => i.ok
  | _ => true

namespace Pos

/-- The object that the coroutine is bound to asks for reading. -/
def asks : Pos → Bool
  | .fresh _ => true
  | .tell _ _ _ .ask => true
  | .yield _ _ => true
  | .switch _ _ _ => true
  | .asleep _ _ => true
  | _ => false

/-- And the kernel has been told. -/
def watched : Pos → Bool
  | .fresh .registered => true
  | .yield _ _ => true
  | .switch _ _ _ => true
  | .asleep _ _ => true
  | _ => false

/-- At `q` no more is needed of object and kernel than at `p`. -/
structure Covers (p q : Pos) : Prop where
  tabled : q.tabled = true → p.tabled = true
  asks : q.asks = true → p.asks = true
  watched : q.watched = true → p.watched = true

theorem Covers.refl (p : Pos) : p.Covers p := ⟨fun h => h, fun h => h, fun h => h⟩

theorem covers_wake {p : Pos} (h : p.waits = true) : p.Covers p.wake := by
  cases p with
  | fresh h' =>
      cases h' with
      | registered => exact ⟨fun _ => rfl, fun h => (by cases h), fun h => (by cases h)⟩
      | made => cases h
      | mapped => cases h
  | asleep fd e => exact ⟨fun _ => rfl, fun h => (by cases h), fun h => (by cases h)⟩
  | _ => cases h

/-- A call of `c`, bound to `k`, that neither changes its object nor tells the
    loop of it. -/
theorem Goes.covers {p q : Pos} {c : McoRef} {k : Corun} (h : p.Goes q) (hf : p.Fits c k)
    (hR : p.retunes ≠ some k.event) (hT : p.tells ≠ some k.event) : p.Covers q := by
  cases h with
  | changed fd e r l => exact absurd (congrArg some hf.2.1) hR
  | asked fd e l => exact absurd (congrArg some hf.2.1) hT
  | withdrawn fd e l => exact absurd (congrArg some hf.2.1) hT
  | yields fd e m => exact ⟨fun _ => rfl, fun _ => rfl, fun _ => rfl⟩
  | sleeps fd e m => exact ⟨fun _ => rfl, fun _ => rfl, fun _ => rfl⟩
  | closes fd h =>
      cases h with
      | marked e l => exact absurd (congrArg some hf.2.2) hR
      | told e l => exact absurd (congrArg some hf.2.2.1) hT
      | _ => exact ⟨fun _ => rfl, fun h => (by cases h), fun h => (by cases h)⟩
  | closed fd e => exact ⟨fun h => (by cases h), fun h => (by cases h), fun h => (by cases h)⟩
  | ends => exact ⟨fun h => (by cases h), fun h => (by cases h), fun h => (by cases h)⟩
  | _ => exact ⟨fun _ => rfl, fun h => (by cases h), fun h => (by cases h)⟩

end Pos

/-- What a coroutine at `p`, bound to `k`, relies on. -/
structure Io.Watched (s : Io) (k : Corun) (p : Pos) : Prop where
  told : p.tabled = true → (s.kern.interest k.loop k.fd).isSome
  asked : p.asks = true → ∃ x, s.ev k.event = some x ∧ x.obj.eorigin = kReadEvent ∧
    x.obj.state ≠ .DEL
  kept : p.watched = true → s.kern.interest k.loop k.fd = some kReadEvent

namespace TcpSys

/-- Every coroutine finds what it relies on, and so will the next one; the
    kernel watches for a loop only what is in its table. -/
structure Watching (s : TcpSys) : Prop where
  listed : s.io.Listed
  made : ∀ c g e l, s.pos c = some (.made g e l) →
    ∃ x, s.io.ev e = some x ∧ x.obj.eorigin = kReadEvent
  each : ∀ c k p, s.corun c = some k → s.pos c = some p → s.io.Watched k p

section Watching

variable {s s' : TcpSys} {R T : Option EvRef} {c co d : McoRef} {k : Corun} {p q : Pos}
  {i : Supply} {a : TcpOp} {t : Tid} {fd : Fd}

/-- A coroutine whose object the step spares. -/
theorem watched_kept (hi : s.Inv) (hi' : s'.Inv) (hsp : Io.Spares R T s.io s'.io)
    (hk : s.corun c = some k) (hp : s.pos c = some p) (hk' : s'.corun c = some k)
    (hR : R ≠ some k.event) (hT : T ≠ some k.event) (hw : s.io.Watched k p) (hc : p.Covers q) :
    s'.io.Watched k q := by
  rcases (hi.serves c k p hk hp).object with ⟨x, hx, hxf, _⟩
  rcases bound_live hi'.neat hk' with ⟨x', hx'⟩
  rcases hsp _ x x' hx hx' hT with ⟨hint, hobj⟩
  rw [hxf] at hint
  refine ⟨fun h => ?_, fun h => ?_, fun h => ?_⟩
  · rw [hint]
    exact hw.told (hc.tabled h)
  · rcases hw.asked (hc.asks h) with ⟨y, hy, hm, hst⟩
    rw [hx] at hy
    injection hy with hy
    rw [← hy] at hm hst
    exact ⟨x', hx', (hobj hR).1.trans hm, by rw [(hobj hR).2]; exact hst⟩
  · rw [hint]
    exact hw.kept (hc.watched h)

/-- After a step every coroutine has been there before, and the step spares its
    object, or finds what it relies on for another reason. -/
theorem Watching.after (hi : s.Inv) (hi' : s'.Inv) (hw : s.Watching)
    (hsp : Io.Spares R T s.io s'.io) (hent : s'.io.Listed)
    (hm : ∀ d g e l, s'.pos d = some (.made g e l) →
      (∃ x, s'.io.ev e = some x ∧ x.obj.eorigin = kReadEvent) ∨
        s.pos d = some (.made g e l) ∧ R ≠ some e ∧ T ≠ some e)
    (h : ∀ d k q, s'.corun d = some k → s'.pos d = some q → s'.io.Watched k q ∨
      s.corun d = some k ∧ R ≠ some k.event ∧ T ≠ some k.event ∧
        ∃ p, s.pos d = some p ∧ p.Covers q) : s'.Watching where
  listed := hent
  made := by
    intro d g e l hd
    rcases hm d g e l hd with h | ⟨hd0, hR, hT⟩
    · exact h
    · rcases hw.made d g e l hd0 with ⟨x, hx, hread⟩
      rcases local_live hi'.neat hd rfl with ⟨x', hx'⟩
      exact ⟨x', hx', ((hsp e x x' hx hx' hT).2 hR).1.trans hread⟩
  each := by
    intro d k q hk' hq
    rcases h d k q hk' hq with h | ⟨hk, hR, hT, p, hp, hc⟩
    · exact h
    · exact watched_kept hi hi' hsp hk hp hk' hR hT (hw.each d k p hk hp) hc

theorem opens_spares {io : Io} {g : Fd} {nonblock : Bool} (R T : Option EvRef) :
    Io.Spares R T io { io with kern := io.kern.openFd g nonblock } := by
  intro d y y' hy hy' _
  have hy' : io.ev d = some y' := hy'
  rw [hy] at hy'
  injection hy' with hy'
  rw [hy']
  exact ⟨fun _ => rfl, fun _ => ⟨rfl, rfl⟩⟩

/-! ### A call of a coroutine -/

/-- The object that a call changes, or tells a loop of, is that of the coroutine
    or of the one that it hands over. -/
theorem Inv.concerns (hi : s.Inv) (hk : s.corun c = some k) (hp : s.pos c = some p) {e : EvRef}
    (he : p.retunes = some e ∨ p.tells = some e) : e = k.event ∨
      ∃ co kco, p.hands i.co = some co ∧ s.corun co = some kco ∧ kco.event = e := by
  have hfits := (hi.serves c k p hk hp).fits
  have hacc := hi.accepts c p hp
  cases p with
  | report fd d r =>
      rcases he with he | he
      · injection he with he
        exact .inl (he.symm.trans hfits.2.1)
      · cases he
  | tell fd d l r =>
      rcases he with he | he
      · cases he
      · injection he with he
        exact .inl (he.symm.trans hfits.2.1)
  | enter d l co =>
      rcases he with he | he
      · cases he
      · injection he with he
        rcases hacc with ⟨g, hco, _⟩
        exact .inr ⟨co, _, rfl, hco, he⟩
  | close fd q =>
      cases q with
      | ask d =>
          rcases he with he | he
          · injection he with he
            exact .inl (he.symm.trans hfits.2.2)
          · cases he
      | tell d l =>
          rcases he with he | he
          · cases he
          · injection he with he
            exact .inl (he.symm.trans hfits.2.2.1)
      | _ => rcases he with he | he <;> cases he
  | _ => rcases he with he | he <;> cases he

/-- A call spares every object but those. -/
theorem code_spares (hi : s.Inv) (hk : s.corun c = some k) (hp : s.pos c = some p)
    (h : s.code k.loop c k i p = .ok s') : Io.Spares p.retunes p.tells s.io s'.io := by
  rcases code_did hi hk hp h with hd | ⟨g, r, _, _, hio⟩
  · exact Io.did_spares hi.neat hd
  · rw [hio]
    exact opens_spares _ _

theorem code_listed (hi : s.Inv) (hk : s.corun c = some k) (hp : s.pos c = some p)
    (hok : i.ok = true) (he : s.io.Listed) (h : s.code k.loop c k i p = .ok s') :
    s'.io.Listed := by
  rcases code_did hi hk hp h with hd | ⟨g, r, _, _, hio⟩
  · rw [hok] at hd
    exact Io.did_listed he hd
  · rw [hio]
    exact he

/-- A call that reports to the loop changes what the object asks for first. -/
theorem report_asks {e : EvRef} {r : Report} {x : EventsCell} (hr : r ≠ .withdraw)
    (hx : s.io.ev e = some x) (h : s.code t c k i (.report fd e r) = .ok s') :
    s'.io.ev e = some { x with obj := r.change x.obj } := by
  rcases (bind_eq_ok_iff _ _ _).mp h with ⟨io, hio, h⟩
  rcases Io.modifyEvents_ok hio with ⟨y, hy, rfl⟩
  rw [hx] at hy
  injection hy with hy
  have hev : (s.io.setEv e (some { y with obj := r.change y.obj })).ev e
      = some { y with obj := r.change y.obj } := Function.update_self _ _ _
  have hthere : ∀ {p' : Pos},
      (.ok (s.go c (s.io.setEv e (some { y with obj := r.change y.obj })) p') :
        Except Abort TcpSys) = .ok s' → s'.io.ev e = some { x with obj := r.change x.obj } := by
    intro p' h
    injection h with h
    rw [← h, hy]
    exact hev
  rw [hev] at h
  simp only [] at h
  cases hl : s.loops.getLoop (r.change y.obj).tid with
  | none =>
      rw [hl] at h
      cases r with
      | withdraw => exact absurd rfl hr
      | ask => exact hthere h
      | enrol => exact hthere h
  | some l =>
      rw [hl] at h
      exact hthere h

/-- The kernel is told of a change. -/
theorem tell_watched {e : EvRef} {r : Report} (hi : s.Inv) (hi' : s'.Inv)
    (hk : s.corun c = some k) (hp : s.pos c = some (.tell fd e k.loop r)) (hok : i.ok = true)
    (hk' : s'.corun c = some k) (hq : s'.pos c = some q)
    (hw : s.io.Watched k (.tell fd e k.loop r)) (hflow : Pos.Goes (.tell fd e k.loop r) q)
    (h : s.code k.loop c k i (.tell fd e k.loop r) = .ok s') : s'.io.Watched k q := by
  have hs := hi.serves c k _ hk hp
  rcases hs.fits with ⟨_, rfl, _, _⟩
  rcases hs.object with ⟨x, hx, hxf, _, hst⟩
  rcases (bind_eq_ok_iff _ _ _).mp h with ⟨io, hio, h⟩
  have hent : s.io.entry k.loop x.obj.fd = some k.event := by
    rw [hxf]
    exact hs.tabled rfl
  have hmod := Io.told_mod hx (hst .MOD rfl) hent hio
  have hev : io.ev k.event = some x := by
    rw [hmod]
    exact hx
  have hset : io.kern.interest k.loop k.fd = some x.obj.eorigin := by
    rw [hmod, hok, ← hxf]
    exact Kernel.eventMod_done (by rw [hxf]; exact hw.told rfl)
  cases hflow with
  | asked _ _ _ =>
      rcases hw.asked rfl with ⟨y, hy, hread, hdel⟩
      rw [hx] at hy
      injection hy with hy
      rw [← hy] at hread hdel
      rw [hread] at hset
      injection h with h
      rw [← h]
      exact ⟨fun _ => Option.isSome_iff_exists.mpr ⟨_, hset⟩, fun _ => ⟨x, hev, hread, hdel⟩,
        fun _ => hset⟩
  | withdrawn _ _ _ =>
      rcases (bind_eq_ok_iff _ _ _).mp h with ⟨io', hio', h⟩
      rcases Io.release_ok hio' with ⟨y, hy, rfl⟩
      rcases bound_live hi'.neat hk' with ⟨z, hz⟩
      injection h with h
      rw [← h] at hz ⊢
      -- The pointer that goes is not the last one.
      have hint := Io.dropped_other (y := x) (Option.isSome_iff_exists.mpr ⟨z, hz⟩)
        (fun hne => absurd rfl hne) k.loop
      rw [hxf] at hint
      refine ⟨fun _ => Option.isSome_iff_exists.mpr ⟨_, hint.trans hset⟩, fun h => (by cases h),
        fun h => (by cases h)⟩

/-- What the coroutine that makes the call finds afterwards. -/
theorem code_watched (hi : s.Inv) (hi' : s'.Inv) (hk : s.corun c = some k) (hp : s.pos c = some p)
    (hok : i.ok = true) (hk' : s'.corun c = some k) (hq : s'.pos c = some q)
    (hw : s.io.Watched k p) (hflow : p.Goes q) (h : s.code k.loop c k i p = .ok s') :
    s'.io.Watched k q := by
  have hs := hi.serves c k p hk hp
  have hsp := code_spares hi hk hp h
  by_cases hR : p.retunes = some k.event
  -- The object changes, and nothing else does.
  · cases hflow with
    | changed fd e r l =>
        rcases hs.fits with ⟨_, rfl, _⟩
        rcases hs.object with ⟨x, hx, hxf, _⟩
        rcases bound_live hi'.neat hk' with ⟨x', hx'⟩
        have hint := (hsp _ x x' hx hx' (fun h => by cases h)).1 k.loop
        rw [hxf] at hint
        refine ⟨fun _ => by rw [hint]; exact hw.told rfl, fun ha => ?_, fun h => (by cases h)⟩
        cases r with
        | ask => exact ⟨_, report_asks (fun h => by cases h) hx h, rfl, fun h => by cases h⟩
        | enrol => cases ha
        | withdraw => cases ha
    | closes fd hgo =>
        cases hgo with
        | marked e l =>
            rcases hs.object with ⟨x, hx, hxf, _⟩
            rcases bound_live hi'.neat hk' with ⟨x', hx'⟩
            have hint := (hsp _ x x' hx hx' (fun h => by cases h)).1 k.loop
            rw [hxf] at hint
            exact ⟨fun _ => by rw [hint]; exact hw.told rfl, fun h => (by cases h),
              fun h => (by cases h)⟩
        | _ => cases hR
    | _ => cases hR
  by_cases hT : p.tells = some k.event
  · cases hflow with
    | asked fd e l =>
        rcases hs.fits with ⟨_, _, rfl, _⟩
        exact tell_watched hi hi' hk hp hok hk' hq hw (.asked _ _ _) h
    | withdrawn fd e l =>
        rcases hs.fits with ⟨_, _, rfl, _⟩
        exact tell_watched hi hi' hk hp hok hk' hq hw (.withdrawn _ _ _) h
    -- What is handed over is another coroutine's.
    | entered e l co =>
        exfalso
        injection hT with hT
        rcases hi.accepts c _ hp with ⟨g, hco, hfr⟩
        have hcc := hi.charges.owner c co k _ hk hco hT.symm
        rw [← hcc, hp] at hfr
        cases hfr
    | closes fd hgo =>
        cases hgo with
        | told e l => exact ⟨fun h => (by cases h), fun h => (by cases h), fun h => (by cases h)⟩
        | _ => cases hT
    | _ => cases hT
  · exact watched_kept hi hi' hsp hk hp hk' hR hT hw (hflow.covers hs.fits hR hT)

/-! ### A connection that is handed over -/

/-- A coroutine that is made. -/
theorem code_makes {g : Fd} {e : EvRef} {l : Tid} (hne : i.co ≠ c)
    (h : s.code t c k i (.made g e l) = .ok s') :
    s'.corun i.co = some { accepts := false, event := e, fd := g, loop := l } ∧
      s'.pos i.co = some (.fresh .made) := by
  have ho := code_returns h
  cases ho with
  | moves hm => cases hm
  | made _ _ =>
      exact ⟨Function.update_self _ _ _,
        (Function.update_of_ne hne _ _).trans (Function.update_self _ _ _)⟩

/-- One that is handed on. -/
theorem code_hands {h₀ h₁ : HandOver} {io : Io} (hne : co ≠ c)
    (hp : s.pos co = some (.fresh h₀)) (hs : (s.handed co h₁).go c io q = s') :
    s'.corun = s.corun ∧ s'.pos co = some (.fresh h₁) ∧ s'.io = io := by
  rw [handed, hp] at hs
  rw [← hs]
  exact ⟨rfl, (Function.update_of_ne hne _ _).trans (Function.update_self _ _ _), rfl⟩

/-- What is handed over has not begun. -/
theorem hands_fresh (hi : s.Inv) (hk : s.corun c = some k) (hp : s.pos c = some p)
    (hco : s.w.co i.co = none) (hh : p.hands i.co = some co)
    (h : s.code k.loop c k i p = .ok s') :
    ∃ h₁, s'.pos co = some (.fresh h₁) := by
  have hacc := hi.accepts c p hp
  cases p with
  | made g e l =>
      injection hh with hh
      have hne : i.co ≠ c := by
        rintro rfl
        rw [(hi.unborn hco).2] at hk
        cases hk
      rw [← hh]
      exact ⟨_, (code_makes hne h).2⟩
  | give g e l _ =>
      injection hh with hh
      rw [hh] at hacc h hp
      rcases hacc with ⟨_, hp0⟩
      have hne : co ≠ c := by
        rintro rfl
        rw [hp] at hp0
        cases hp0
      rcases (bind_eq_ok_iff _ _ _).mp h with ⟨io, _, h⟩
      injection h with h
      exact ⟨_, (code_hands hne hp0 h).2.1⟩
  | enter e l _ =>
      injection hh with hh
      rw [hh] at hacc h hp
      rcases hacc with ⟨_, _, hp0⟩
      have hne : co ≠ c := by
        rintro rfl
        rw [hp] at hp0
        cases hp0
      rcases (bind_eq_ok_iff _ _ _).mp h with ⟨io, _, h⟩
      injection h with h
      exact ⟨_, (code_hands hne hp0 h).2.1⟩
  | _ => cases hh

/-- Its object asks for reading already. -/
theorem made_watched {g : Fd} {e : EvRef} {l : Tid} (hi : s.Inv) (hi' : s'.Inv) (hw : s.Watching)
    (hk : s.corun c = some k) (hp : s.pos c = some (.made g e l)) (hne : i.co ≠ c)
    (h : s.code k.loop c k i (.made g e l) = .ok s') :
    s'.io.Watched { accepts := false, event := e, fd := g, loop := l } (.fresh .made) := by
  rcases hi.accepts c _ hp with ⟨⟨x, hx, _, hnew⟩, _, _⟩
  rcases hw.made c g e l hp with ⟨y, hy, hread⟩
  rw [hx] at hy
  injection hy with hy
  rw [← hy] at hread
  rcases bound_live hi'.neat (code_makes hne h).1 with ⟨x', hx'⟩
  have hkeep := (code_spares hi hk hp h e x x' hx hx' (fun h => by cases h)).2
    (fun h => by cases h)
  refine ⟨fun h => (by cases h), fun _ => ⟨x', hx', hkeep.1.trans hread, ?_⟩, fun h => (by cases h)⟩
  rw [hkeep.2, hnew]
  intro h
  cases h

/-- The loop that is told of it adds the descriptor: it has not been watched. -/
theorem entered_watched {g : Fd} {e : EvRef} {l : Tid} {io : Io} (hi : s.Inv) (hw : s.Watching)
    (hk : s.corun co = some { accepts := false, event := e, fd := g, loop := l })
    (hp : s.pos co = some (.fresh .mapped)) (hlive : ∃ x', io.ev e = some x')
    (hio : s.io.updateEvents l e true = .ok io) :
    io.Watched { accepts := false, event := e, fd := g, loop := l } (.fresh .registered) := by
  rcases (hi.serves co _ _ hk hp).object with ⟨x, hx, hxf, _, hst⟩
  rcases (hw.each co _ _ hk hp).asked rfl with ⟨y, hy, hread, hdel⟩
  rw [hx] at hy
  injection hy with hy
  rw [← hy] at hread hdel
  rcases Io.told_new hx (hst .NEW rfl) hio with ⟨hkern, hnone⟩
  have hfree : s.io.kern.interest l x.obj.fd = none := by
    refine Option.not_isSome_iff_eq_none.mp (fun hin => ?_)
    have hent := hw.listed l _ hin
    rw [hnone] at hent
    cases hent
  have hset : io.kern.interest l g = some kReadEvent := by
    rw [hkern, hread, show g = x.obj.fd from hxf.symm]
    exact Kernel.eventAdd_done (hi.neat.opened e x hx) hfree
  rcases hlive with ⟨x', hx'⟩
  rcases Io.told_ev hio hx' with ⟨z, hz, hobj⟩
  have hz : s.io.ev e = some z := hz
  rw [hx] at hz
  injection hz with hz
  rw [← hz] at hobj
  exact ⟨fun _ => Option.isSome_iff_exists.mpr ⟨_, hset⟩,
    fun _ => ⟨x', hx', by rw [hobj, hread], by rw [hobj]; exact hdel⟩, fun _ => hset⟩

/-- What is handed over finds what it relies on at each stage. -/
theorem handed_watched (hi : s.Inv) (hi' : s'.Inv) (hw : s.Watching) (hk : s.corun c = some k)
    (hp : s.pos c = some p) (hok : i.ok = true) (hco : s.w.co i.co = none)
    (hh : p.hands i.co = some co) (h : s.code k.loop c k i p = .ok s') {kco : Corun}
    (hkco : s'.corun co = some kco) (hq : s'.pos co = some q) : s'.io.Watched kco q := by
  have hacc := hi.accepts c p hp
  cases p with
  | made g e l =>
      injection hh with hh
      have hne : i.co ≠ c := by
        rintro rfl
        rw [(hi.unborn hco).2] at hk
        cases hk
      rcases code_makes hne h with ⟨hk1, hp1⟩
      rw [← hh, hk1] at hkco
      rw [← hh, hp1] at hq
      injection hkco with hkco
      injection hq with hq
      rw [← hkco, ← hq]
      exact made_watched hi hi' hw hk hp hne h
  | give g e l _ =>
      injection hh with hh
      rw [hh] at hacc h hp
      rcases hacc with ⟨hk0, hp0⟩
      have hne : co ≠ c := by
        rintro rfl
        rw [hp] at hp0
        cases hp0
      have hsp := code_spares hi hk hp h
      rcases (bind_eq_ok_iff _ _ _).mp h with ⟨io, _, h⟩
      injection h with h
      rcases code_hands hne hp0 h with ⟨hcor, hpos, _⟩
      rw [hcor, hk0] at hkco
      rw [hpos] at hq
      injection hkco with hkco
      injection hq with hq
      rw [← hkco, ← hq]
      exact watched_kept hi hi' hsp hk0 hp0 ((congrFun hcor co).trans hk0) (fun h => by cases h)
        (fun h => by cases h) (hw.each co _ _ hk0 hp0)
        ⟨fun h => (by cases h), fun _ => rfl, fun h => (by cases h)⟩
  | enter e l _ =>
      injection hh with hh
      rw [hh] at hacc h hp
      rcases hacc with ⟨g, hk0, hp0⟩
      have hne : co ≠ c := by
        rintro rfl
        rw [hp] at hp0
        cases hp0
      rcases (bind_eq_ok_iff _ _ _).mp h with ⟨io, hio, h⟩
      injection h with h
      rcases code_hands hne hp0 h with ⟨hcor, hpos, hio'⟩
      have hlive := bound_live hi'.neat hkco
      rw [hcor, hk0] at hkco
      rw [hpos] at hq
      injection hkco with hkco
      injection hq with hq
      rw [← hkco] at hlive ⊢
      rw [← hq, hio']
      rw [hio'] at hlive
      rw [hok] at hio
      exact entered_watched hi hw hk0 hp0 hlive hio
  | _ => cases hh

/-- An object of a new connection asks for reading from the beginning. -/
theorem accepted_asks {g : Fd} {e : EvRef} {l : Tid}
    (h : s.code t c k i (.accepted fd) = .ok s') (hq : s'.pos c = some (.made g e l)) :
    ∃ x, s'.io.ev e = some x ∧ x.obj.eorigin = kReadEvent := by
  have ho := code_returns h
  cases ho with
  | moves hm => cases hm
  | chosen _ =>
      have hq' := Option.some.inj ((Function.update_self c _ s.pos).symm.trans hq)
      injection hq' with _ he _
      rw [← he]
      exact ⟨_, Function.update_self _ _ _, rfl⟩

/-- A call of a coroutine keeps the invariant. -/
theorem code_watching (hi : s.Inv) (hi' : s'.Inv) (hw : s.Watching) (hk : s.corun c = some k)
    (hp : s.pos c = some p) (hpa : p.active = true) (hok : i.ok = true)
    (hco : s.w.co i.co = none) (h : s.code k.loop c k i p = .ok s')
    (hb : ∀ d kd, s'.corun d = some kd → p.hands i.co = some d ∨ s.corun d = some kd) :
    s'.Watching := by
  have hloc := code_local h
  rcases code_flow hi hk hp h with ⟨p', hp', hflow⟩
  have hself := hi.hands_ne hk hp (.inr hpa) hco hp
  refine hw.after hi hi' (code_spares hi hk hp h) (code_listed hi hk hp hok hw.listed h)
    (fun d g e l hd => ?_) (fun d kd q hkd hq => ?_)
  · by_cases hdc : d = c
    -- It has just accepted.
    · rw [hdc, hp'] at hd
      injection hd with hd
      rw [hd] at hflow hp'
      cases hflow with
      | chosen _ _ _ => exact .inl (accepted_asks h hp')
    by_cases hh : p.hands i.co = some d
    · rcases hands_fresh hi hk hp hco hh h with ⟨_, hfr⟩
      rw [hd] at hfr
      cases hfr
    · have hd0 : s.pos d = some (.made g e l) :=
        (hloc.pos d (fun h => h.elim hdc hh)).symm.trans hd
      rcases hi.accepts d _ hd0 with ⟨_, hun, _⟩
      have hno : ¬ (p.retunes = some e ∨ p.tells = some e) := by
        intro he
        rcases hi.concerns (i := i) hk hp he with rfl | ⟨co, kco, _, hkco, hev⟩
        · exact hun.1 c k hk rfl
        · exact hun.1 co kco hkco hev
      exact .inr ⟨hd0, fun h => hno (.inl h), fun h => hno (.inr h)⟩
  · by_cases hh : p.hands i.co = some d
    · exact .inl (handed_watched hi hi' hw hk hp hok hco hh h hkd hq)
    rcases hb d kd hkd with hd | hkd0
    · exact absurd hd hh
    by_cases hdc : d = c
    · rw [hdc] at hkd hkd0 hq
      rw [hk] at hkd0
      injection hkd0 with hkd0
      rw [← hkd0] at hkd ⊢
      rw [hp'] at hq
      injection hq with hq
      rw [← hq]
      exact .inl (code_watched hi hi' hk hp hok hkd hp' (hw.each c k p hk hp) hflow h)
    · have hq0 : s.pos d = some q := (hloc.pos d (fun h => h.elim hdc hh)).symm.trans hq
      have hno : ¬ (p.retunes = some kd.event ∨ p.tells = some kd.event) := by
        intro he
        rcases hi.concerns (i := i) hk hp he with hev | ⟨co, kco, hco', hkco, hev⟩
        · exact hdc (hi.charges.owner d c kd k hkd0 hk hev)
        · have := hi.charges.owner d co kd kco hkd0 hkco hev.symm
          exact hh (by rw [this]; exact hco')
      exact .inr ⟨hkd0, fun h => hno (.inl h), fun h => hno (.inr h), q, hq0, .refl q⟩

/-! ### The other steps -/

/-- A loop wakes the coroutine it resumes, and moves no others. -/
theorem loop_pos (hi : s.Inv) (hno : ∀ c, s.turn t ≠ .inside c) (hs : s.step (.run t i) = .ok s') :
    s'.corun = s.corun ∧ ∀ d q, s'.pos d = some q →
      ∃ p, s.pos d = some p ∧
        (q = p ∨ s.turn t = .enter d ∧ p.waits = true ∧ q = p.wake) := by
  have hok := hi.turns t
  have ho := run_outcome hs
  generalize s.turn t = r at hno hok ho ⊢
  cases ho with
  | @enters m w _ _ =>
      rcases hok with ⟨⟨k, p, _, hp, hpw, _⟩, _⟩
      refine ⟨rfl, fun d q hq => ?_⟩
      have hq : Function.update s.pos m ((s.pos m).map Pos.wake) d = some q := hq
      by_cases hd : d = m
      · rw [hd, Function.update_self, hp] at hq
        injection hq with hq
        exact ⟨p, by rw [hd, hp], .inr ⟨by rw [hd], hpw, hq.symm⟩⟩
      · rw [Function.update_of_ne hd] at hq
        exact ⟨q, hq, .inl rfl⟩
  | calls _ _ _ _ => exact absurd rfl (hno _)
  -- The others move no coroutine.
  | _ => exact ⟨rfl, fun d q hq => ⟨q, hq, .inl rfl⟩⟩

theorem run_watching (hi : s.Inv) (hi' : s'.Inv) (hw : s.Watching) (ha : s.Supplied (.run t i))
    (hok : i.ok = true) (hs : s.step (.run t i) = .ok s') : s'.Watching := by
  by_cases hin : ∃ c, s.turn t = .inside c
  · rcases hin with ⟨c, hr⟩
    have hturn := hi.turns t
    rw [hr] at hturn
    rcases hturn with ⟨k, p, hk, hp, hpa, rfl⟩
    refine code_watching hi hi' hw hk hp hpa hok ha.2.2.2.1 (hi.run_inside hk hp hr hs)
      (fun d kd hkd => ?_)
    rcases (step_performs hi).bound s' d kd hs hkd with hmade | ⟨hkd, _⟩
    -- Only a call at `made` makes a coroutine.
    · have hop : codeOp k.loop i p = some (.create kd.loop d false) := by
        rw [← callOp_inside (d := c) (hi.hosted.exec hr) hp, ← hr]
        exact hmade
      cases p with
      | made g e l =>
          injection hop with hop
          injection hop with _ hd _
          exact .inl (congrArg some hd)
      | switch fd e mco => cases hop
      | finish => cases hop
      | _ => cases hop
    · exact .inr hkd
  · have hno : ∀ c, s.turn t ≠ .inside c := fun c hc => hin ⟨c, hc⟩
    have hq := loop_quiet hno hs none
    rcases loop_pos hi hno hs with ⟨hcor, hpos⟩
    have hd : Io.Did none none true s.io s'.io := .quiet hq
    refine hw.after hi hi' (Io.did_spares hi.neat hd) (Io.did_listed hw.listed hd)
      (fun d g e l hd => ?_) (fun d kd q hkd hq => ?_)
    · rcases hpos d _ hd with ⟨p, hp, hqp | ⟨_, hpw, hqp⟩⟩
      · exact .inr ⟨by rw [hqp]; exact hp, fun h => (by cases h), fun h => (by cases h)⟩
      -- What has been woken begins, or reports.
      · cases p with
        | fresh _ => cases hqp
        | asleep _ _ => cases hqp
        | _ => cases hpw
    · rw [hcor] at hkd
      rcases hpos d q hq with ⟨p, hp, rfl | ⟨_, hpw, rfl⟩⟩
      · exact .inr ⟨hkd, fun h => (by cases h), fun h => (by cases h), q, hp, .refl q⟩
      · exact .inr ⟨hkd, fun h => (by cases h), fun h => (by cases h), p, hp, Pos.covers_wake hpw⟩

theorem addLoop_watching {ismain : Bool} (hi : s.Inv) (hi' : s'.Inv) (hw : s.Watching)
    (ha : s.Supplied (.addLoop t fd ismain)) (hs : s.step (.addLoop t fd ismain) = .ok s') :
    s'.Watching := by
  rcases (bind_eq_ok_iff _ _ _).mp hs with ⟨io, hio, hs⟩
  injection hs with hs
  rcases Io.newLoop_cases hio with ⟨l, _, _, hl, rfl⟩
  have hint : ∀ u g, ¬ (u = t ∧ g = fd) → s'.io.kern.interest u g = s.io.kern.interest u g := by
    intro u g hug
    rw [← hs]
    exact Kernel.eventAdd_interest (k := s.io.kern.openFd fd true) hug
  refine hw.after hi hi' (R := none) (T := none) (fun d y y' hy hy' _ => ⟨fun u => ?_, fun _ => ?_⟩)
    (fun u g hug => ?_) (fun d g e l hd => ?_) (fun d kd q hkd hq => ?_)
  -- The `eventfd` is a new descriptor.
  · exact hint u _ (fun h => hi.neat.shut ha.2.1 d y hy h.2)
  · have hd : d ≠ s.io.nextEv := by
      rintro rfl
      rw [hi.neat.tidy.unused _ (Nat.le_refl _)] at hy
      cases hy
    rw [← hs] at hy'
    have hy' : Function.update s.io.ev s.io.nextEv _ d = some y' := hy'
    rw [Function.update_of_ne hd, hy] at hy'
    injection hy' with hy'
    rw [hy']
    exact ⟨rfl, rfl⟩
  · have hloop : s'.io.loop = Function.update s.io.loop t (some l) := by
      rw [← hs]
    rw [Io.entry, hloop]
    by_cases hu : u = t
    · rw [hu, Function.update_self, Option.bind_some, hl]
      by_cases hg : g = fd
      · rw [hg, Function.update_self]
        rfl
      -- There was no loop, so nothing was watched for it.
      · exfalso
        rw [hint u g (fun h => hg h.2)] at hug
        have hent := hw.listed u g hug
        rw [Io.entry, hu, ha.1] at hent
        cases hent
    · rw [Function.update_of_ne hu]
      rw [hint u g (fun h => hu h.1)] at hug
      exact hw.listed u g hug
  · rw [← hs] at hd
    exact .inr ⟨hd, fun h => (by cases h), fun h => (by cases h)⟩
  · rw [← hs] at hkd hq
    exact .inr ⟨hkd, fun h => (by cases h), fun h => (by cases h), q, hq, .refl q⟩

theorem start_watching {ok : Bool} (hi : s.Inv) (hi' : s'.Inv) (hw : s.Watching)
    (ha : s.Supplied (.start t fd c ok)) (hok : ok = true)
    (hs : s.step (.start t fd c ok) = .ok s') : s'.Watching := by
  rcases ha with ⟨hmain, _, hopen, hco, _⟩
  have hs1 : s.start t fd c ok = .ok s' := hs
  unfold start at hs1
  simp only [hmain] at hs1
  rcases (bind_eq_ok_iff _ _ _).mp hs1 with ⟨io, hio, hs1⟩
  injection hs1 with hs1
  rw [hok] at hio
  have hio' : s'.io = io := by
    rw [← hs1]
    rfl
  have hcor : ∀ d, d ≠ c → s'.corun d = s.corun d := by
    intro d hd
    rw [← hs1]
    exact Function.update_of_ne hd _ _
  have hpos : ∀ d, d ≠ c → s'.pos d = s.pos d := by
    intro d hd
    rw [← hs1]
    exact Function.update_of_ne hd _ _
  have hcc : s'.corun c = some { accepts := true, event := s.io.nextEv, fd := fd, loop := t } := by
    rw [← hs1]
    exact Function.update_self _ _ _
  have hpc : s'.pos c = some (.fresh .registered) := by
    rw [← hs1]
    exact Function.update_self _ _ _
  -- What the loop is told of is new, and so is its descriptor.
  rcases Io.told_new (x := { obj := Events.make fd kReadEvent t, useCount := 1 })
    (Function.update_self _ _ _) rfl hio with ⟨hkern, hnone⟩
  have hnot : s.io.kern.interest t fd = none := by
    refine Option.not_isSome_iff_eq_none.mp (fun hin => ?_)
    have hent := hw.listed t fd hin
    rw [show s.io.entry t fd = none from hnone] at hent
    cases hent
  have hset : s'.io.kern.interest t fd = some kReadEvent := by
    rw [hio', hkern]
    exact Kernel.eventAdd_done (k := s.io.kern.openFd fd false) (Function.update_self _ _ _) hnot
  refine hw.after hi hi' (R := none) (T := none) (fun d y y' hy hy' _ => ⟨fun u => ?_, fun _ => ?_⟩)
    ?_ (fun d g e l hd => ?_) (fun d kd q hkd hq => ?_)
  · rw [hio', hkern]
    exact Kernel.eventAdd_interest (k := s.io.kern.openFd fd false)
      (fun h => hi.neat.shut hopen d y hy h.2)
  · have hd : d ≠ s.io.nextEv := by
      rintro rfl
      rw [hi.neat.tidy.unused _ (Nat.le_refl _)] at hy
      cases hy
    rw [hio'] at hy'
    rcases Io.told_ev hio hy' with ⟨z, hz, hobj⟩
    have hz : Function.update s.io.ev s.io.nextEv _ d = some z := hz
    rw [Function.update_of_ne hd, hy] at hz
    injection hz with hz
    rw [hobj, ← hz]
    exact ⟨rfl, rfl⟩
  · rw [hio']
    refine Io.told_listed ?_ hio
    exact hw.listed
  · by_cases hdc : d = c
    · rw [hdc, hpc] at hd
      cases hd
    · rw [hpos d hdc] at hd
      exact .inr ⟨hd, fun h => (by cases h), fun h => (by cases h)⟩
  · by_cases hdc : d = c
    · rw [hdc, hcc] at hkd
      rw [hdc, hpc] at hq
      injection hkd with hkd
      injection hq with hq
      rw [← hkd, ← hq]
      rcases bound_live hi'.neat hcc with ⟨x', hx'⟩
      have hev := hx'
      rw [hio'] at hev
      rcases Io.told_ev hio hev with ⟨z, hz, hobj⟩
      have hz : Function.update s.io.ev s.io.nextEv _ s.io.nextEv = some z := hz
      rw [Function.update_self] at hz
      injection hz with hz
      rw [← hz] at hobj
      refine .inl ⟨fun _ => Option.isSome_iff_exists.mpr ⟨_, hset⟩,
        fun _ => ⟨x', hx', by rw [hobj]; rfl, ?_⟩, fun _ => hset⟩
      rw [hobj]
      intro h
      cases h
    · rw [hcor d hdc] at hkd
      rw [hpos d hdc] at hq
      exact .inr ⟨hkd, fun h => (by cases h), fun h => (by cases h), q, hq, .refl q⟩

theorem drop_watching (hi : s.Inv) (hi' : s'.Inv) (hw : s.Watching) (ha : s.Supplied (.drop t c))
    (hs : s.step (.drop t c) = .ok s') : s'.Watching := by
  rcases Option.isSome_iff_exists.mp ha.1 with ⟨k, hk⟩
  have hd := (hi.drop_freed hk hs).2
  rw [step, hk] at hs
  rcases (bind_eq_ok_iff _ _ _).mp hs with ⟨w, _, hs⟩
  rcases (bind_eq_ok_iff _ _ _).mp hs with ⟨io, _, hs⟩
  injection hs with hs
  have hrest : ∀ d, d ≠ c → s'.corun d = s.corun d ∧ s'.pos d = s.pos d := by
    intro d hdc
    rw [← hs]
    exact ⟨Function.update_of_ne hdc _ _, Function.update_of_ne hdc _ _⟩
  have hgone : s'.pos c = none := by
    rw [← hs]
    exact Function.update_self _ _ _
  have hne : ∀ d q, s'.pos d = some q → d ≠ c := by
    rintro d q hq rfl
    rw [hgone] at hq
    cases hq
  refine hw.after hi hi' (Io.did_spares hi.neat hd) (Io.did_listed hw.listed hd)
    (fun d g e l hq => ?_) (fun d kd q hkd hq => ?_)
  · rw [(hrest d (hne d _ hq)).2] at hq
    exact .inr ⟨hq, fun h => (by cases h), fun h => (by cases h)⟩
  · rw [(hrest d (hne d q hq)).1] at hkd
    rw [(hrest d (hne d q hq)).2] at hq
    exact .inr ⟨hkd, fun h => (by cases h), fun h => (by cases h), q, hq, .refl q⟩

/-- A step in which every `epoll_ctl` succeeds keeps the invariant. -/
theorem step_watching (hi : s.Inv) (hw : s.Watching) (ha : s.Supplied a)
    (hok : a.succeeds = true) (hs : s.step a = .ok s') : s'.Watching := by
  have hi' := next_inv hi ha hs
  cases a with
  | addLoop t fd ismain => exact addLoop_watching hi hi' hw ha hs
  | start t fd c ok => exact start_watching hi hi' hw ha hok hs
  | poll t events =>
      injection hs with hs
      rw [← hs]
      exact ⟨hw.listed, hw.made, hw.each⟩
  | run t i => exact run_watching hi hi' hw ha hok hs
  | drop t c => exact drop_watching hi hi' hw ha hs

theorem watching_init (h : TcpInit s) (hnone : ∀ t g, s.io.kern.interest t g = none) :
    s.Watching := by
  refine ⟨fun t g hg => ?_, fun c g e l hp => ?_, fun c k p hk _ => ?_⟩
  · rw [hnone] at hg
    cases hg
  · rw [h.pos c] at hp
    cases hp
  · rw [h.corun c] at hk
    cases hk

theorem watching_run {s₀ : TcpSys} {as : List TcpOp} (h₀ : TcpInit s₀)
    (hnone : ∀ t g, s₀.io.kern.interest t g = none)
    (h : Runs step (fun u a => u.Supplied a ∧ a.succeeds = true) s₀ as s) :
    s.Inv ∧ s.Watching :=
  h.invariant (I := fun u => u.Inv ∧ u.Watching)
    (fun _ _ _ hI ha hs => ⟨next_inv hI.1 ha.1 hs, step_watching hI.1 hI.2 ha.1 ha.2 hs⟩)
    ⟨inv_init h₀, watching_init h₀ hnone⟩

/-! ### Reports -/

/-- What is reported for a descriptor that asks for reading gets through, unless
    the only thing reported is that it can be written to. -/
theorem report_passes {o : Events} {m : UInt32} (hread : o.eorigin = kReadEvent)
    (hst : o.state ≠ .DEL) (hm : m &&& ~~~kWriteEvent ≠ 0) :
    (o.setMutable m).eventHandleAble.1 = true := by
  have hdel : (o.setMutable m).isdel = false := decide_eq_false hst
  have horigin : (o.setMutable m).originRead = true := by
    change Events.containsAtLeastOneEvents o.eorigin _ = true
    rw [hread]
    decide
  unfold Events.eventHandleAble
  rw [hdel, if_neg Bool.false_ne_true]
  by_cases hmod : (o.setMutable m).ismod = true
  · rw [if_pos hmod, horigin, Bool.not_true, Bool.and_false]
    simp only [Bool.false_eq_true, if_false]
    by_cases hwrite : ((o.setMutable m).isWrite && !(o.setMutable m).originWrite) = true
    · rw [if_pos hwrite]
      exact bne_iff_ne.mpr hm
    · rw [if_neg hwrite]
      refine bne_iff_ne.mpr (fun h => hm ?_)
      have h : m = 0 := h
      rw [h]
      rfl
  · rw [if_neg hmod]

/-- The loop comes to a report for the descriptor of a coroutine that waits. -/
structure Reported (c : McoRef) (k : Corun) (p : Pos) (x : PollerEvent) (s : TcpSys) : Prop where
  inv : s.Inv
  watching : s.Watching
  corun : s.corun c = some k
  pos : s.pos c = some p
  turn : s.turn k.loop = .idle
  batch : ∃ rest, s.batch k.loop = x :: rest

/-- It finds the descriptor. -/
theorem reported_own {x : PollerEvent} (hpw : p.waits = true) (hfd : x.fd = k.fd)
    (hm : x.event &&& ~~~kWriteEvent ≠ 0) (hr : Reported c k p x s)
    (ha : s.Supplied (.run k.loop i)) (hs : s.step (.run k.loop i) = .ok s') :
    Stage c k p 0 s' := by
  have hi := hr.inv
  have hi' := next_inv hi ha hs
  rcases hr.batch with ⟨rest, hb⟩
  have hasks : p.asks = true := by
    cases p with
    | fresh _ => rfl
    | asleep _ _ => rfl
    | _ => cases hpw
  have hent := (hi.serves c k p hr.corun hr.pos).tabled (wakes hpw).tabled
  rcases Io.loop_of_entry hent with ⟨l, hl, hle⟩
  rcases (hr.watching.each c k p hr.corun hr.pos).asked hasks with ⟨y, hy, hread, hst⟩
  have hyf : y.obj.fd = k.fd := (hi.neat.entry_of hy hent).1
  -- The `eventfd` is another descriptor.
  have hwake : l.wakeFd ≠ k.fd := by
    intro hw
    rcases hi.neat.wake _ l hl with ⟨z, hz, hzf⟩
    exact hi.charges.unwoken c k _ l hr.corun hl
      (hi.neat.apart _ _ z y hz hy (by rw [hzf, hw, hyf]))
  have hfind : s.io.loopFind k.loop x = .ok (s.io.setEv k.event (some { y with
      obj := (y.obj.setMutable x.event).eventHandleAble.2 }), some k.fd) := by
    have hkeep : (y.obj.setMutable x.event).eventHandleAble.2.fd = k.fd :=
      (y.obj.setMutable x.event).eventHandleAble_keeps.1.trans hyf
    unfold Io.loopFind
    simp only [hl, hfd, hle, hy, report_passes hread hst hm, hkeep, Bool.not_true,
      Bool.false_eq_true, if_false, if_neg hwake]
  have hs' : s.loopCode k.loop i (s.turn k.loop) = .ok s' := hs
  rw [hr.turn, loopCode, hb] at hs'
  simp only [] at hs'
  rw [hfind] at hs'
  injection hs' with hs'
  refine ⟨hi', ?_, ?_, ?_⟩
  · rw [← hs']
    exact hr.corun
  · rw [← hs']
    exact hr.pos
  · rw [← hs']
    exact Function.update_self _ _ _

/-- The other threads leave the report where it is. -/
theorem reported_other {x : PollerEvent} (hpw : p.waits = true) (hr : Reported c k p x s)
    (ha : s.Supplied a) (hok : a.succeeds = true) (hcalls : a.calls k.loop = false)
    (hs : s.step a = .ok s') : Reported c k p x s' := by
  rcases hr.inv.step_others ha hs hr.corun hr.pos (.inl hpw) (TcpOp.of_not_calls hcalls) with
    ⟨hk, hp, ht, hb⟩
  refine ⟨next_inv hr.inv ha hs, step_watching hr.inv hr.watching ha hok hs, hk, hp,
    ht.trans hr.turn, ?_⟩
  rcases hr.batch with ⟨rest, hrest⟩
  rcases hb with hb | ⟨events, rfl⟩
  · exact ⟨rest, by rw [hb, hrest]⟩
  -- A loop does not wait before it has come to the end of its reports.
  · rw [ha.2.1] at hrest
    cases hrest

/-- The thread has made `n` calls since the report was the next. After the first
    the stages are those of `Stage`. -/
def Heard (c : McoRef) (k : Corun) (p : Pos) (x : PollerEvent) (n : Nat) (s : TcpSys) : Prop :=
  (n = 0 → Reported c k p x s) ∧ ∀ m, n = m + 1 → Stage c k p m s

theorem Heard.bound {x : PollerEvent} {n : Nat} (h : Heard c k p x n s) :
    s.Inv ∧ s.corun c = some k := by
  cases n with
  | zero => exact ⟨(h.1 rfl).inv, (h.1 rfl).corun⟩
  | succ m => exact ⟨(h.2 m rfl).inv, (h.2 m rfl).corun⟩

theorem heard_own {x : PollerEvent} {n : Nat} (hpw : p.waits = true) (hfd : x.fd = k.fd)
    (hm : x.event &&& ~~~kWriteEvent ≠ 0) (hn : n < lastStage p + 1) (h : Heard c k p x n s)
    (ha : s.Supplied a) (hcalls : a.calls k.loop = true) (hs : s.step a = .ok s') :
    Heard c k p x (n + 1) s' := by
  rcases TcpOp.of_calls hcalls with ⟨i, rfl⟩
  refine ⟨fun h => by omega, fun m hm' => ?_⟩
  cases n with
  | zero =>
      rw [show m = 0 by omega]
      exact reported_own hpw hfd hm (h.1 rfl) ha hs
  | succ n =>
      rw [show m = n + 1 by omega]
      exact stage_own hpw (by omega) (h.2 n rfl) ha hs

theorem heard_other {x : PollerEvent} {n : Nat} (hpw : p.waits = true) (h : Heard c k p x n s)
    (ha : s.Supplied a) (hok : a.succeeds = true) (hcalls : a.calls k.loop = false)
    (hs : s.step a = .ok s') : Heard c k p x n s' :=
  ⟨fun hn => reported_other hpw (h.1 hn) ha hok hcalls hs,
    fun m hm => stage_other hpw (h.2 m hm) ha hcalls hs⟩

theorem reported_run {x : PollerEvent} {bs : List TcpOp} (hpw : p.waits = true)
    (hfd : x.fd = k.fd) (hm : x.event &&& ~~~kWriteEvent ≠ 0) (hr : Reported c k p x s)
    (h : Runs step (fun u a => u.Supplied a ∧ a.succeeds = true) s bs s') {n : Nat}
    (hn : n ≤ lastStage p) (hcount : bs.countP (TcpOp.calls k.loop) = n + 1) :
    Stage c k p n s' := by
  have hrun := Interleave.stages (P := Heard c k p x) (q := TcpOp.calls k.loop)
    (m := lastStage p + 1)
    (fun _ _ _ _ hn h ha hcalls hs => heard_own hpw hfd hm hn h ha.1 hcalls hs)
    (fun _ _ _ _ h ha hcalls hs => heard_other hpw h ha.1 ha.2 hcalls hs) h (n := 0)
    ⟨fun _ => hr, fun m hm => by omega⟩ (by omega)
  exact hrun.2 n (by omega)

end Watching

end TcpSys

end Fasco
