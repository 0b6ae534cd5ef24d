import Fasco.Theory.Waking

/-!
# What the Server Asks of the Kernel

Between two switches the code of the server makes and copies pointers, changes
masks, looks into the pools, and makes at most two calls that go further: it
tells a loop of an object, which is an `epoll_ctl`, and it lets go of pointers,
the last of which closes the descriptor. `Did` is that shape, and every call of
a coroutine or a loop has it (`code_did`, `Inv.run_did`). The bare `uni_close`
in the hooked `close` is never reached.

What a property of the kernel needs is then one lemma for each of the three
shapes, and not one for each line of the server. The first such property is that
the descriptors that are open stay the openings they are (`Inv.step_opening`).

## Main definitions

* `Io.Quiet`: Nothing is asked of the kernel.
* `Io.Did`: What the calls of one step do.
* `Pos.retunes`, `Pos.tells`: The objects that a call changes or tells a loop of.

## Theorems

* `updateEvents_cases`: The outcomes of telling a loop.
* `code_did`, `Inv.run_did`: What the calls do.
* `Inv.step_opening`: Open descriptors are not opened again.
-/

namespace Fasco

open Fallible

namespace Io

variable {R T : Option EvRef} {s s1 s' : Io} {e : EvRef} {t : Tid}

/-- Nothing has been asked of the kernel and no table has changed. The objects
    there were have their descriptors and, but for `R`, the state and what they
    ask for. -/
structure Quiet (R : Option EvRef) (s s' : Io) : Prop where
  kern : s'.kern = s.kern
  loop : s'.loop = s.loop
  next : s.nextEv ≤ s'.nextEv
  kept : ∀ d x, s.ev d = some x → ∃ x', s'.ev d = some x' ∧ x'.obj.fd = x.obj.fd ∧
    (R ≠ some d → x'.obj.eorigin = x.obj.eorigin ∧ x'.obj.state = x.obj.state)
  made : ∀ d, (s'.ev d).isSome → (s.ev d).isSome ∨ s.nextEv ≤ d

/-- What one step does: after quiet calls a loop may be told of the object `T`,
    and pointers to objects there have been may go. -/
inductive Did (R T : Option EvRef) (ok : Bool) (s : Io) : Io → Prop where
  | quiet {s' : Io} (h : Quiet R s s') : Did R T ok s s'
  | told {s1 s' : Io} {l : Tid} {e : EvRef} (h : Quiet R s s1) (hT : T = some e)
      (he : (s.ev e).isSome) (hs : s1.updateEvents l e ok = .ok s') : Did R T ok s s'
  | freed {s1 s' : Io} {e : EvRef} (h : Did R T ok s s1) (he : (s.ev e).isSome)
      (hs : s1.release e = .ok s') : Did R T ok s s'

namespace Quiet

theorem refl (R : Option EvRef) (s : Io) : Quiet R s s :=
  ⟨rfl, rfl, Nat.le_refl _, fun _ x h => ⟨x, h, rfl, fun _ => ⟨rfl, rfl⟩⟩, fun _ h => .inl h⟩

theorem trans {s'' : Io} (h1 : Quiet R s s') (h2 : Quiet R s' s'') : Quiet R s s'' where
  kern := h2.kern.trans h1.kern
  loop := h2.loop.trans h1.loop
  next := Nat.le_trans h1.next h2.next
  kept := by
    intro d x hx
    rcases h1.kept d x hx with ⟨x1, hx1, hf1, hm1⟩
    rcases h2.kept d x1 hx1 with ⟨x2, hx2, hf2, hm2⟩
    exact ⟨x2, hx2, hf2.trans hf1, fun hd =>
      ⟨(hm2 hd).1.trans (hm1 hd).1, (hm2 hd).2.trans (hm1 hd).2⟩⟩
  made := by
    intro d hd
    rcases h2.made d hd with h | h
    · exact h1.made d h
    · exact .inr (Nat.le_trans h1.next h)

/-- Only the pools have changed. -/
theorem pool (R : Option EvRef) (s : Io) (p : Tid → McoPool) : Quiet R s { s with pool := p } :=
  ⟨rfl, rfl, Nat.le_refl _, fun _ x h => ⟨x, h, rfl, fun _ => ⟨rfl, rfl⟩⟩, fun _ h => .inl h⟩

/-- One object has changed, which had its descriptor before. -/
theorem set {x y : EventsCell} (hx : s.ev e = some x) (hf : y.obj.fd = x.obj.fd)
    (hm : R ≠ some e → y.obj.eorigin = x.obj.eorigin ∧ y.obj.state = x.obj.state) :
    Quiet R s (s.setEv e (some y)) where
  kern := rfl
  loop := rfl
  next := Nat.le_refl _
  kept := by
    intro d z hz
    by_cases hd : d = e
    · rw [hd, hx] at hz
      injection hz with hz
      exact ⟨y, by rw [hd]; exact Function.update_self _ _ _, by rw [hf, hz],
        fun h => by rw [← hz]; exact hm (by rw [← hd]; exact h)⟩
    · exact ⟨z, (Function.update_of_ne hd _ _).trans hz, rfl, fun _ => ⟨rfl, rfl⟩⟩
  made := by
    intro d hd
    by_cases hde : d = e
    · exact .inl (by rw [hde, hx]; rfl)
    · have hd' : (Function.update s.ev e (some y) d).isSome := hd
      rw [Function.update_of_ne hde] at hd'
      exact .inl hd'

theorem share (R : Option EvRef) (h : s.share e = .ok s') : Quiet R s s' := by
  rcases share_ok h with ⟨x, hx, rfl⟩
  exact set hx rfl (fun _ => ⟨rfl, rfl⟩)

theorem modify {g : Events → Events} (h : s.modifyEvents e g = .ok s')
    (hf : ∀ o, (g o).fd = o.fd)
    (hm : R ≠ some e → ∀ o, (g o).eorigin = o.eorigin ∧ (g o).state = o.state) :
    Quiet R s s' := by
  rcases modifyEvents_ok h with ⟨x, hx, rfl⟩
  exact set hx (hf x.obj) (fun he => hm he x.obj)

/-- A new object. -/
theorem fresh (R : Option EvRef) (hn : s.ev s.nextEv = none) (t : Tid) (fd : Fd) (m : UInt32) :
    Quiet R s (s.newEvents t fd m).1 where
  kern := rfl
  loop := rfl
  next := Nat.le_succ _
  kept := by
    intro d x hx
    have hd : d ≠ s.nextEv := by
      rintro rfl
      rw [hn] at hx
      cases hx
    exact ⟨x, (Function.update_of_ne hd _ _).trans hx, rfl, fun _ => ⟨rfl, rfl⟩⟩
  made := by
    intro d hd
    by_cases hde : d = s.nextEv
    · exact .inr (Nat.le_of_eq hde.symm)
    · have hd' : (Function.update s.ev s.nextEv (some { obj := Events.make fd m t, useCount := 1 })
        d).isSome := hd
      rw [Function.update_of_ne hde] at hd'
      exact .inl hd'

/-- The test of a report changes the reported mask only. -/
theorem find {x : PollerEvent} {r : Option Fd} (R : Option EvRef)
    (h : s.loopFind t x = .ok (s', r)) : Quiet R s s' := by
  unfold loopFind at h
  cases hl : s.loop t with
  | none =>
      rw [hl] at h
      cases h
  | some l =>
      rw [hl] at h
      simp only [] at h
      cases he : l.events x.fd with
      | none =>
          rw [he] at h
          injection h with h
          injection h with h _
          rw [← h]
          exact refl R s
      | some e =>
          rw [he] at h
          simp only [] at h
          cases hc : s.ev e with
          | none =>
              rw [hc] at h
              cases h
          | some c =>
              rw [hc] at h
              simp only [] at h
              have hkeep := (c.obj.setMutable x.event).eventHandleAble_keeps
              have hq : Quiet R s (s.setEv e (some { c with
                  obj := (c.obj.setMutable x.event).eventHandleAble.2 })) :=
                set hc hkeep.1 (fun _ => ⟨hkeep.2.2.2, hkeep.2.2.1⟩)
              have hs' : s' = s.setEv e (some { c with
                  obj := (c.obj.setMutable x.event).eventHandleAble.2 }) := by
                by_cases ha : (!(c.obj.setMutable x.event).eventHandleAble.1) = true
                · rw [if_pos ha] at h
                  injection h with h
                  injection h with h _
                  exact h.symm
                · rw [if_neg ha] at h
                  by_cases hw : l.wakeFd = (c.obj.setMutable x.event).eventHandleAble.2.fd
                  · rw [if_pos hw] at h
                    injection h with h
                    injection h with h _
                    exact h.symm
                  · rw [if_neg hw] at h
                    injection h with h
                    injection h with h _
                    exact h.symm
              rw [hs']
              exact hq

end Quiet

/-! ### Telling a loop -/

/-- The outcomes of telling the loop of thread `l` of the object `e`. -/
theorem updateEvents_cases {l : Tid} {ok : Bool} (h : s.updateEvents l e ok = .ok s') :
    ∃ lp x, s.loop l = some lp ∧ s.ev e = some x ∧
      (s' = s ∨
        (lp.events x.obj.fd = none ∧
          s' = { s.taken l lp e x with
            kern := (s.kern.eventAdd l x.obj.fd x.obj.eorigin ok).1 }) ∨
        ((lp.events x.obj.fd).isSome ∧
          s' = { s with kern := (s.kern.eventMod l x.obj.fd x.obj.eorigin ok).1 }) ∨
        ∃ old y, lp.events x.obj.fd = some old ∧ s.ev old = some y ∧
          s' = (s.setTable l lp x.obj.fd none).dropped old y.obj y.useCount
            (s.kern.eventDel l x.obj.fd ok).1) := by
  unfold updateEvents at h
  cases hl : s.loop l with
  | none =>
      rw [hl] at h
      cases h
  | some lp =>
      rw [hl] at h
      simp only [pollUpdate] at h
      cases hx : s.ev e with
      | none =>
          rw [hx] at h
          cases h
      | some x =>
          rw [hx] at h
          simp only [] at h
          refine ⟨lp, x, rfl, rfl, ?_⟩
          have hadd : s.tableAdd l lp e x.obj ok = .ok s' →
              s' = { s.taken l lp e x with
                kern := (s.kern.eventAdd l x.obj.fd x.obj.eorigin ok).1 } := by
            intro h
            rcases tableAdd_ok h with ⟨y, hy, rfl⟩
            rw [hx] at hy
            injection hy with hy
            rw [← hy]
            rfl
          by_cases hinv : x.obj.invaild = true
          · rw [if_pos hinv] at h
            injection h with h
            exact .inl h.symm
          rw [if_neg hinv] at h
          by_cases hnew : x.obj.isnew = true
          · rw [if_pos hnew] at h
            cases he : lp.events x.obj.fd with
            | some _ =>
                rw [he] at h
                cases h
            | none =>
                rw [he] at h
                exact .inr (.inl ⟨rfl, hadd h⟩)
          rw [if_neg hnew] at h
          by_cases hmod : x.obj.ismod = true
          · rw [if_pos hmod] at h
            cases he : lp.events x.obj.fd with
            | some _ =>
                rw [he] at h
                injection h with h
                exact .inr (.inr (.inl ⟨rfl, h.symm⟩))
            | none =>
                rw [he] at h
                exact .inr (.inl ⟨rfl, hadd h⟩)
          rw [if_neg hmod] at h
          by_cases hdel : x.obj.isdel = true
          · rw [if_pos hdel] at h
            cases he : lp.events x.obj.fd with
            | none =>
                rw [he] at h
                cases h
            | some old =>
                rw [he] at h
                rcases release_ok h with ⟨y, hy, rfl⟩
                refine .inr (.inr (.inr ⟨old, y, rfl, hy, ?_⟩))
                unfold dropped
                by_cases hn : y.useCount ≤ 1
                · rw [if_pos hn, if_pos hn]
                  rfl
                · rw [if_neg hn, if_neg hn]
                  rfl
          · rw [if_neg hdel] at h
            injection h with h
            exact .inl h.symm

end Io

/-- The object whose state a call changes. -/
def Pos.retunes : Pos → Option EvRef
  | .report _ e _ => some e
  | .close _ (.ask e) => some e
  | _ => none

/-- The object that a call tells a loop of. -/
def Pos.tells : Pos → Option EvRef
  | .tell _ e _ _ => some e
  | .enter e _ _ => some e
  | .close _ (.tell e _) => some e
  | _ => none

namespace TcpSys

open Io

section Code

variable {s s' : TcpSys} {c : McoRef} {k : Corun} {i : Supply} {p : Pos}

theorem afterReport_did {R T : Option EvRef} {ok : Bool} {io io' : Io} {fd : Fd} {e : EvRef}
    {r : Report} {p' : Pos} (he : (s.io.ev e).isSome) (hd : Did R T ok s.io io)
    (h : AfterReport io fd e r io' p') : Did R T ok s.io io' := by
  cases h with
  | waits _ => exact hd
  | released hio => exact hd.freed he hio

/-- The hooked `close` closes nothing itself. -/
theorem closeCode_did {fd : Fd} {q : ClosePos} {io : Io} {p' : Pos} (hi : s.Inv)
    (hk : s.corun c = some k) (hp : s.pos c = some (.close fd q))
    (h : CloseMoves s k.loop i fd q io p') :
    Did (Pos.retunes (.close fd q)) (Pos.tells (.close fd q)) i.ok s.io io := by
  have hs := hi.serves c k _ hk hp
  have hlive : ∀ e, q.event = some e → (s.io.ev e).isSome := fun e he =>
    Option.isSome_iff_exists.mpr (local_live hi.neat hp he)
  cases h with
  | unhooked hh =>
      rw [hi.hookable] at hh
      cases hh
  | asked _ => exact .quiet (.refl _ _)
  | same _ => exact .quiet (.refl _ _)
  | other _ => exact .quiet (.refl _ _)
  | cleared => exact .quiet (.pool _ _ _)
  | removed => exact .quiet (.pool _ _ _)
  | loopless hl =>
      rw [hi.getLoop hk hp] at hl
      cases hl
  | looked _ => exact .quiet (.refl _ _)
  | @missing l io hio =>
      rcases hs.fits with ⟨_, rfl, hl⟩
      have hl : l = k.loop := hl
      rw [hl] at hio
      -- The table has the object, so that it is found.
      rcases getEvents_ok hio with ⟨hnot, _⟩ | ⟨_, _, h, _⟩
      · rw [hs.tabled rfl] at hnot
        cases hnot
      · cases h
  | found hio =>
      rcases getEvents_ok hio with ⟨_, h, _⟩ | ⟨_, _, _, hsh⟩
      · cases h
      · exact .quiet (.share _ hsh)
  | marked _ _ hio => exact .quiet (.modify hio (fun _ => rfl) (fun hn => absurd rfl hn))
  | told hio => exact .told (.refl _ _) rfl (hlive _ rfl) hio
  | released hio => exact .freed (.quiet (.refl _ _)) (hlive _ rfl) hio

theorem change_fd (r : Report) (o : Events) : (r.change o).fd = o.fd := by
  cases r with
  | ask => rfl
  | enrol => rfl
  | withdraw => rfl

/-- A call that moves the coroutine only does that, but for the system call that
    opens a descriptor. -/
theorem moves_did {io : Io} {p' : Pos} (hi : s.Inv) (hk : s.corun c = some k)
    (hp : s.pos c = some p) (h : Moves s k.loop k i p io p') :
    Did p.retunes p.tells i.ok s.io io ∨
      ∃ fd r, p = .sys fd ∧ i.accepted = some r ∧
        io = { s.io with kern := s.io.kern.openFd r.1 r.2 } := by
  have hs := hi.serves c k _ hk hp
  have hlive : ∀ e, p.event = some e → (s.io.ev e).isSome := fun e he =>
    Option.isSome_iff_exists.mpr (local_live hi.neat hp he)
  have hnone : s.io.ev s.io.nextEv = none := hi.neat.tidy.unused _ (Nat.le_refl _)
  cases h with
  | binds _ hio => exact .inl (.quiet (.share _ hio))
  | loopless _ => exact .inl (.quiet (.fresh _ hnone _ _ _))
  | found hio =>
      rcases getEvents_ok hio with ⟨_, h, _⟩ | ⟨_, _, _, hsh⟩
      · cases h
      · exact .inl (.quiet (.share _ hsh))
  | missing hio =>
      rcases getEvents_ok hio with ⟨_, _, rfl⟩ | ⟨_, _, h, _⟩
      · exact .inl (.quiet (.fresh _ hnone _ _ _))
      · cases h
  | enrolled => exact hs.fits.elim
  | changed hio _ _ =>
      exact .inl (.quiet (.modify hio (change_fd _) (fun hn => absurd rfl hn)))
  | unheard hio _ _ hr =>
      exact .inl (afterReport_did (hlive _ rfl)
        (.quiet (.modify hio (change_fd _) (fun hn => absurd rfl hn))) hr)
  | told hio hr =>
      exact .inl (afterReport_did (hlive _ rfl) (.told (.refl _ _) rfl (hlive _ rfl) hio) hr)
  | accepted _ hacc => exact .inr ⟨_, _, rfl, hacc, rfl⟩
  | left hio => exact .inl (.freed (.quiet (.refl _ _)) (hlive _ rfl) hio)
  | closes h => exact .inl (closeCode_did hi hk hp h)
  -- The others leave the tables alone.
  | _ => exact .inl (.quiet (.refl _ _))

/-- So does every call of a coroutine. -/
theorem code_did (hi : s.Inv) (hk : s.corun c = some k) (hp : s.pos c = some p)
    (h : s.code k.loop c k i p = .ok s') : Did p.retunes p.tells i.ok s.io s'.io ∨
      ∃ fd r, p = .sys fd ∧ i.accepted = some r ∧
        s'.io = { s.io with kern := s.io.kern.openFd r.1 r.2 } := by
  have hlive : ∀ e, p.event = some e → (s.io.ev e).isSome := fun e he =>
    Option.isSome_iff_exists.mpr (local_live hi.neat hp he)
  have ho := code_returns h
  cases ho with
  | moves hm => exact moves_did hi hk hp hm
  | stays _ _ => exact .inl (.quiet (.refl _ _))
  | sleeps _ _ => exact .inl (.quiet (.refl _ _))
  | chosen _ =>
      exact .inl (.quiet (.fresh _ (hi.neat.tidy.unused _ (Nat.le_refl _)) _ _ _))
  | made _ hio => exact .inl (.quiet (.share _ hio))
  | given hio =>
      exact .inl (.quiet ((Quiet.pool _ s.io _).trans
        (.modify hio (fun _ => rfl) (fun _ _ => ⟨rfl, rfl⟩))))
  | entered hio => exact .inl (.told (.refl _ _) rfl (hlive _ rfl) hio)
  -- The callback lets go of its parameter.
  | ended hio _ =>
      exact .inl (.freed (.quiet (.refl _ _))
        (Option.isSome_iff_exists.mpr (bound_live hi.neat hk)) hio)

end Code

/-! ### Steps -/

section Steps

variable {s s' : TcpSys} {t : Tid} {c : McoRef} {k : Corun} {i : Supply} {a : TcpOp}

/-- A loop asks nothing of the kernel when it goes through its reports. -/
theorem loop_quiet (hno : ∀ c, s.turn t ≠ .inside c) (hs : s.step (.run t i) = .ok s')
    (R : Option EvRef) : Quiet R s.io s'.io := by
  have ho := run_outcome hs
  generalize s.turn t = r at hno ho
  cases ho with
  | passes _ hf => exact .find R hf
  | finds _ hf => exact .find R hf
  | resumes => exact .pool R _ _
  | calls _ _ _ _ => exact absurd rfl (hno _)
  -- The others leave the tables alone.
  | _ => exact .refl R _

/-- What a call on a thread does, unless it opens a descriptor. -/
theorem Inv.run_did (hi : s.Inv) (ha : s.Supplied (.run t i)) (hs : s.step (.run t i) = .ok s') :
    (∃ R T, Did R T i.ok s.io s'.io) ∨ ∃ r, i.accepted = some r ∧ s.io.kern.isOpen r.1 = false ∧
      s'.io = { s.io with kern := s.io.kern.openFd r.1 r.2 } := by
  by_cases hin : ∃ c, s.turn t = .inside c
  · rcases hin with ⟨c, hr⟩
    have hok := hi.turns t
    rw [hr] at hok
    rcases hok with ⟨k, p, hk, hp, _, rfl⟩
    rcases code_did hi hk hp (hi.run_inside hk hp hr hs) with hd | ⟨fd, r, _, hacc, hio⟩
    · exact .inl ⟨_, _, hd⟩
    · exact .inr ⟨r, hacc, ha.2.2.2.2 r hacc, hio⟩
  · exact .inl ⟨none, none, .quiet (loop_quiet (fun c hc => hin ⟨c, hc⟩) hs none)⟩

/-- The end of a `Continuation` lets go of its object. -/
theorem Inv.drop_freed (hi : s.Inv) (hk : s.corun c = some k) (hs : s.step (.drop t c) = .ok s') :
    s.io.release k.event = .ok s'.io ∧ Did none none true s.io s'.io := by
  rw [step, hk] at hs
  rcases (bind_eq_ok_iff _ _ _).mp hs with ⟨w, _, hs⟩
  rcases (bind_eq_ok_iff _ _ _).mp hs with ⟨io, hio, hs⟩
  have hbound := Option.isSome_iff_exists.mpr (bound_live hi.neat hk)
  injection hs with hs
  rw [← hs]
  exact ⟨hio, .freed (.quiet (.refl _ _)) hbound hio⟩

/-! ### Openings -/

/-- An `epoll_ctl` opens nothing and changes no descriptor's flags. -/
theorem ctl_opening {k : Kernel} (b : Bool) (t : Tid) (fd : Fd) (i : Option UInt32) :
    (if b then (k.setInterest t fd i, true) else (k, false)).1.opening = k.opening ∧
      (if b then (k.setInterest t fd i, true) else (k, false)).1.nonblock = k.nonblock := by
  by_cases hb : b = true
  · rw [if_pos hb]
    exact ⟨rfl, rfl⟩
  · rw [if_neg hb]
    exact ⟨rfl, rfl⟩

/-- Nor does a pointer that goes. -/
theorem dropped_opening {io : Io} {e : EvRef} {o : Events} {n : Nat} {k : Kernel} :
    (io.dropped e o n k).kern.opening = k.opening ∧
      (io.dropped e o n k).kern.nonblock = k.nonblock := by
  unfold dropped
  by_cases hn : n ≤ 1
  · rw [if_pos hn]
    exact ⟨rfl, rfl⟩
  · rw [if_neg hn]
    exact ⟨rfl, rfl⟩

theorem told_opening {io io' : Io} {l : Tid} {e : EvRef} {ok : Bool}
    (h : io.updateEvents l e ok = .ok io') :
    io'.kern.opening = io.kern.opening ∧ io'.kern.nonblock = io.kern.nonblock := by
  rcases updateEvents_cases h with ⟨lp, x, _, _, rfl | ⟨_, rfl⟩ | ⟨_, rfl⟩ | ⟨old, y, _, _, rfl⟩⟩
  · exact ⟨rfl, rfl⟩
  · exact ctl_opening _ _ _ _
  · exact ctl_opening _ _ _ _
  · have hctl := ctl_opening (k := io.kern) (ok && (io.kern.interest l x.obj.fd).isSome) l
      x.obj.fd none
    exact ⟨dropped_opening.1.trans hctl.1, dropped_opening.2.trans hctl.2⟩

theorem did_opening {R T : Option EvRef} {ok : Bool} {io io' : Io} (h : Did R T ok io io') :
    io'.kern.opening = io.kern.opening ∧ io'.kern.nonblock = io.kern.nonblock := by
  induction h with
  | quiet h => rw [h.kern]; exact ⟨rfl, rfl⟩
  | told h _ _ hs => rw [← h.kern]; exact told_opening hs
  | freed _ _ hs ih =>
      rcases release_ok hs with ⟨x, _, rfl⟩
      exact ⟨dropped_opening.1.trans ih.1, dropped_opening.2.trans ih.2⟩

/-- A descriptor that is open is another one than a new one. -/
theorem openFd_other {k : Kernel} {fd g : Fd} (nonblock : Bool) (hfd : k.isOpen fd = false)
    (hg : k.isOpen g = true) : (k.openFd fd nonblock).opening g = k.opening g ∧
      (k.openFd fd nonblock).nonblock g = k.nonblock g := by
  have hne : g ≠ fd := by
    rintro rfl
    rw [hfd] at hg
    cases hg
  exact ⟨Function.update_of_ne hne _ _, Function.update_of_ne hne _ _⟩

/-- A descriptor that is open is not opened again, and keeps its flags. -/
theorem Inv.step_opening (hi : s.Inv) (ha : s.Supplied a) (hs : s.step a = .ok s') {g : Fd}
    (hg : s.io.kern.isOpen g = true) : s'.io.kern.opening g = s.io.kern.opening g ∧
      s'.io.kern.nonblock g = s.io.kern.nonblock g := by
  cases a with
  | addLoop t fd ismain =>
      rcases (bind_eq_ok_iff _ _ _).mp hs with ⟨io, hio, hs⟩
      injection hs with hs
      rcases newLoop_cases hio with ⟨l, _, _, _, rfl⟩
      have hctl := ctl_opening (k := s.io.kern.openFd fd true)
        (true && (s.io.kern.openFd fd true).isOpen fd &&
          ((s.io.kern.openFd fd true).interest t fd).isNone) t fd (some kReadEvent)
      have hopen := openFd_other true ha.2.1 hg
      rw [← hs]
      exact ⟨(congrFun hctl.1 g).trans hopen.1, (congrFun hctl.2 g).trans hopen.2⟩
  | start t fd c ok =>
      rcases ha with ⟨hmain, _, hfd, _, _⟩
      have hs1 : s.start t fd c ok = .ok s' := hs
      unfold start at hs1
      simp only [hmain] at hs1
      rcases (bind_eq_ok_iff _ _ _).mp hs1 with ⟨io, hio, hs1⟩
      injection hs1 with hs1
      have htold := told_opening hio
      have hopen := openFd_other false hfd hg
      rw [← hs1]
      exact ⟨(congrFun htold.1 g).trans hopen.1, (congrFun htold.2 g).trans hopen.2⟩
  | poll t events =>
      injection hs with hs
      rw [← hs]
      exact ⟨rfl, rfl⟩
  | run t i =>
      rcases hi.run_did ha hs with ⟨_, _, hd⟩ | ⟨r, _, hfd, hio⟩
      · rw [(did_opening hd).1, (did_opening hd).2]
        exact ⟨rfl, rfl⟩
      · rw [hio]
        exact openFd_other _ hfd hg
  | drop t c =>
      rcases Option.isSome_iff_exists.mp ha.1 with ⟨k, hk⟩
      have hd := did_opening (hi.drop_freed hk hs).2
      rw [hd.1, hd.2]
      exact ⟨rfl, rfl⟩

end Steps

end TcpSys

end Fasco
