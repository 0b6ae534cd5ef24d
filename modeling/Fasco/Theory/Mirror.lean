import Fasco.Lib.Run
import Fasco.Core.Poll

/-!
# The Table and the Epoll Set

A loop keeps its own table of the descriptors it watches beside the kernel's
set. `pollUpdate` changes the two one after the other, in a branch chosen by
the state field of the object it is given, and returns what the kernel said
without looking at it.

If the kernel refuses only what it must, an addition of a watched descriptor
or a change or removal of one that is not, then the two never differ: each
branch decides by the table what to ask for, and so, while table and set
agree, asks for nothing the kernel refuses. The case analysis behind this is
`updateEvents_debug`, which says what a call that returns has done; nothing
else unfolds `pollUpdate`.

## Main definitions

* `Watch.Updated`: What `updateEvents` does.
* `Watch.Mirrors`: Table and set hold the same descriptors.
* `WatchOp.Granted`: The kernel refuses only what it must.

## Theorems

* `updateEvents_debug`: A call that returns did one of five things.
* `Mirrors.updated`: Each of them keeps table and set together.
* `mirrors_step`: So does every call.
* `table_mirrors_epoll`: They agree wherever a loop's run leads, and a call
  that returns false changes neither.
-/

namespace Fasco

namespace Watch

variable {s s' : Watch} {e : EvRef} {o : Events} {ok r : Bool}

/-- What `updateEvents` does with the object `o` at `e`, by the state of the
    object and what the table holds for its descriptor. -/
inductive Updated (s : Watch) (e : EvRef) (o : Events) (ok : Bool) : Watch → Bool → Prop
  | ignored (hst : o.state = .INVAILD) : Updated s e o ok s false
  | idle (hst : o.state = .USED) : Updated s e o ok s true
  | added (hst : o.state = .NEW ∨ o.state = .MOD) (hfree : s.events o.fd = none) :
      Updated s e o ok
        { s with
          events := Function.update s.events o.fd (some e)
          interest := (s.interest.ctl .add o.fd o.eorigin ok).1 }
        (s.interest.ctl .add o.fd o.eorigin ok).2
  | changed (hst : o.state = .MOD) (hin : (s.events o.fd).isSome) :
      Updated s e o ok
        { s with interest := (s.interest.ctl .mod o.fd o.eorigin ok).1 }
        (s.interest.ctl .mod o.fd o.eorigin ok).2
  | removed (hst : o.state = .DEL) (hin : (s.events o.fd).isSome) :
      Updated s e o ok
        { s with
          events := Function.update s.events o.fd none
          interest := (s.interest.ctl .del o.fd o.eorigin ok).1 }
        true

/-! ### The call, state by state -/

section Equations

variable {b : Build}

/-- An assertion stops a debug build only. -/
theorem Build.assert_ok_iff {c : Bool} {u : Unit} :
    b.assert c = .ok u ↔ (b = .debug → c = true) := by
  cases b with
  | debug =>
      cases c with
      | true => exact ⟨fun _ _ => rfl, fun _ => rfl⟩
      | false =>
          constructor
          · intro h
            cases h
          · intro h
            cases h rfl
  | release =>
      constructor
      · intro _ h
        cases h
      · intro _
        rfl

/-- A call of `epoll_ctl` through `Epoll` returns when its assertion holds, and
    does what the kernel does. -/
theorem eventCtl_ok_iff {op : CtlOp} {sd : Fd} {events : UInt32} {x : Watch × Bool} :
    s.eventCtl b op sd events ok = .ok x ↔
      (b = .debug → s.created = true) ∧
      x = ({ s with interest := (s.interest.ctl op sd events (ok && s.created)).1 },
        (s.interest.ctl op sd events (ok && s.created)).2) := by
  rw [eventCtl, Fallible.bind_eq_ok_iff]
  constructor
  · rintro ⟨u, ha, h⟩
    injection h with h
    exact ⟨Build.assert_ok_iff.mp ha, h.symm⟩
  · rintro ⟨ha, hx⟩
    exact ⟨(), Build.assert_ok_iff.mpr ha, by rw [hx]⟩

theorem updateEvents_invaild (ho : s.obj e = some o) (hst : o.state = .INVAILD) :
    s.updateEvents b e ok = .ok (s, false) := by
  simp [updateEvents, ho, Events.invaild, hst]

theorem updateEvents_used (ho : s.obj e = some o) (hst : o.state = .USED) :
    s.updateEvents b e ok = .ok (s, true) := by
  simp [updateEvents, pollUpdate, ho, Events.invaild, Events.isnew, Events.ismod, Events.isdel, hst]

/-- An object that is new must not be in the table. -/
theorem updateEvents_new (ho : s.obj e = some o) (hst : o.state = .NEW) :
    s.updateEvents b e ok
      = b.assert (s.events o.fd).isNone >>= fun _ =>
          (s.setEntry o.fd (some e)).eventsAdd b o ok := by
  simp [updateEvents, pollUpdate, ho, Events.invaild, Events.isnew, hst]

/-- One that is changed while out of the table is added. -/
theorem updateEvents_mod_out (ho : s.obj e = some o) (hst : o.state = .MOD)
    (hent : s.events o.fd = none) :
    s.updateEvents b e ok = (s.setEntry o.fd (some e)).eventsAdd b o ok := by
  simp [updateEvents, pollUpdate, ho, Events.invaild, Events.isnew, Events.ismod, hst, hent]

theorem updateEvents_mod_in {d : EvRef} (ho : s.obj e = some o) (hst : o.state = .MOD)
    (hent : s.events o.fd = some d) : s.updateEvents b e ok = s.eventsMod b o ok := by
  simp [updateEvents, pollUpdate, ho, Events.invaild, Events.isnew, Events.ismod, hst, hent]

/-- One that is deleted is taken out, whether `epoll_ctl` succeeds or not. -/
theorem updateEvents_del (ho : s.obj e = some o) (hst : o.state = .DEL) :
    s.updateEvents b e ok
      = s.eventsDel b o ok >>= fun x => x.1.assertErase b o.fd >>= fun s => .ok (s, true) := by
  simp [updateEvents, pollUpdate, ho, Events.invaild, Events.isnew, Events.ismod, Events.isdel, hst]

end Equations

theorem eventCtl_debug {op : CtlOp} {sd : Fd} {events : UInt32}
    (h : s.eventCtl .debug op sd events ok = .ok (s', r)) :
    s.created = true ∧ s' = { s with interest := (s.interest.ctl op sd events ok).1 } ∧
      r = (s.interest.ctl op sd events ok).2 := by
  rcases eventCtl_ok_iff.mp h with ⟨hc, hx⟩
  have hcr : s.created = true := hc rfl
  have hok : (ok && s.created) = ok := by rw [hcr, Bool.and_true]
  rw [hok] at hx
  injection hx with h1 h2
  exact ⟨hcr, h1, h2⟩

/-- A call that returns in the build with assertions has done what the state
    of its object asks for. -/
theorem updateEvents_debug (h : s.updateEvents .debug e ok = .ok (s', r)) :
    ∃ o, s.obj e = some o ∧ Updated s e o ok s' r := by
  cases ho : s.obj e with
  | none =>
      rw [updateEvents, ho] at h
      cases h
  | some o =>
      refine ⟨o, rfl, ?_⟩
      cases hst : o.state with
      | INVAILD =>
          rw [updateEvents_invaild ho hst] at h
          injection h with h
          injection h with h1 h2
          rw [← h1, ← h2]
          exact .ignored hst
      | USED =>
          rw [updateEvents_used ho hst] at h
          injection h with h
          injection h with h1 h2
          rw [← h1, ← h2]
          exact .idle hst
      | NEW =>
          rw [updateEvents_new ho hst] at h
          rcases (Fallible.bind_eq_ok_iff _ _ _).mp h with ⟨_, ha, h1⟩
          have hfree := Option.isNone_iff_eq_none.mp (Build.assert_ok_iff.mp ha rfl)
          rcases eventCtl_debug h1 with ⟨_, hs, hr⟩
          rw [hs, hr]
          exact .added (.inl hst) hfree
      | MOD =>
          cases hent : s.events o.fd with
          | none =>
              rw [updateEvents_mod_out ho hst hent] at h
              rcases eventCtl_debug h with ⟨_, hs, hr⟩
              rw [hs, hr]
              exact .added (.inr hst) hent
          | some old =>
              rw [updateEvents_mod_in ho hst hent] at h
              rcases eventCtl_debug h with ⟨_, hs, hr⟩
              rw [hs, hr]
              exact .changed hst (by rw [hent]; rfl)
      | DEL =>
          rw [updateEvents_del ho hst] at h
          rcases (Fallible.bind_eq_ok_iff _ _ _).mp h with ⟨⟨s1, r1⟩, hc, h1⟩
          rcases eventCtl_debug hc with ⟨_, hs1, _⟩
          rcases (Fallible.bind_eq_ok_iff _ _ _).mp h1 with ⟨s2, he, h2⟩
          injection h2 with h2
          injection h2 with h3 h4
          rw [hs1, assertErase] at he
          -- The assertion fails unless there was an entry to erase.
          by_cases hin : (s.events o.fd).isSome = true
          · simp only [hin, if_true] at he
            injection he with he
            rw [← h3, ← h4, ← he]
            exact .removed hst hin
          · simp only [hin, Bool.false_eq_true, if_false] at he
            cases he

/-! ### Table and set agree -/

/-- The table has an entry for exactly the descriptors in the epoll set. -/
def Mirrors (s : Watch) : Prop := ∀ fd, (s.events fd).isSome = (s.interest fd).isSome

end Watch

open Watch

-- Adding what is not watched, and what the set holds afterwards.
theorem Interest.ctl_add {i : Interest} {sd : Fd} {events : UInt32} (h : i sd = none) :
    i.ctl .add sd events true = (Function.update i sd (some events), true) := by
  rw [Interest.ctl, h]
  rfl

theorem Interest.ctl_mod {i : Interest} {sd : Fd} {events : UInt32} (h : (i sd).isSome = true) :
    i.ctl .mod sd events true = (Function.update i sd (some events), true) := by
  simp only [Interest.ctl, h, Bool.and_self, if_true]

theorem Interest.ctl_del {i : Interest} {sd : Fd} {events : UInt32} (h : (i sd).isSome = true) :
    i.ctl .del sd events true = (Function.update i sd none, true) := by
  simp only [Interest.ctl, h, Bool.and_self, if_true]

namespace Watch

variable {s s' : Watch} {e : EvRef} {o : Events} {r : Bool}

/-- While table and set agree, the kernel has no reason to refuse what the
    table makes the loop ask for, and both change at the same descriptor. -/
theorem Mirrors.updated (hm : s.Mirrors) (h : Updated s e o true s' r) :
    s'.Mirrors ∧ (r = false → s'.events = s.events ∧ s'.interest = s.interest) := by
  cases h with
  | ignored hst => exact ⟨hm, fun _ => ⟨rfl, rfl⟩⟩
  | idle hst => exact ⟨hm, fun hr => by cases hr⟩
  | added hst hfree =>
      have hnone : s.interest o.fd = none := by
        have hfd := hm o.fd
        rw [hfree] at hfd
        exact Option.isNone_iff_eq_none.mp (by
          rw [← Option.not_isSome, ← hfd]
          rfl)
      rw [Interest.ctl_add hnone]
      refine ⟨fun fd => ?_, fun hr => by cases hr⟩
      by_cases hfd : fd = o.fd
      · simp only [hfd, Function.update_self, Option.isSome_some]
      · simp only [Function.update_of_ne hfd]
        exact hm fd
  | changed hst hin =>
      have hsome : (s.interest o.fd).isSome = true := by rw [← hm o.fd, hin]
      rw [Interest.ctl_mod hsome]
      refine ⟨fun fd => ?_, fun hr => by cases hr⟩
      by_cases hfd : fd = o.fd
      · simp only [hfd, Function.update_self, Option.isSome_some, hin]
      · simp only [Function.update_of_ne hfd]
        exact hm fd
  | removed hst hin =>
      have hsome : (s.interest o.fd).isSome = true := by rw [← hm o.fd, hin]
      rw [Interest.ctl_del hsome]
      refine ⟨fun fd => ?_, fun hr => by cases hr⟩
      by_cases hfd : fd = o.fd
      · simp only [hfd, Function.update_self, Option.isSome_none]
      · simp only [Function.update_of_ne hfd]
        exact hm fd

end Watch

/-! ### Runs -/

/-- The descriptors stay open, so the kernel refuses an `epoll_ctl` only when
    it must. -/
def WatchOp.Granted : WatchOp → Prop
  | .update _ ok => ok = true
  | _ => True

instance : ∀ a, Decidable (WatchOp.Granted a)
  | .make _ _ _ _ => isTrue trivial
  | .call _ _ => isTrue trivial
  | .update _ ok => inferInstanceAs (Decidable (ok = true))
  | .get _ => isTrue trivial

theorem step_update {b : Build} {s s' : Watch} {e : EvRef} {ok : Bool} {x : Answer}
    (h : s.step b (.update e ok) = .ok (s', x)) :
    ∃ r, x = .bool r ∧ s.updateEvents b e ok = .ok (s', r) := by
  rcases (Fallible.bind_eq_ok_iff _ _ _).mp h with ⟨⟨s1, r⟩, hu, h1⟩
  injection h1 with h1
  injection h1 with h2 h3
  rw [← h2]
  exact ⟨r, h3.symm, hu⟩

/-- A call on an object changes that object only. -/
theorem step_call {b : Build} {s s' : Watch} {e : EvRef} {m : EventsCall} {x : Answer}
    (h : s.step b (.call e m) = .ok (s', x)) :
    ∃ o, s.obj e = some o ∧
      s' = { s with obj := Function.update s.obj e (some (m.run o)) } ∧ x = .void := by
  simp only [step] at h
  cases ho : s.obj e with
  | none =>
      rw [ho] at h
      cases h
  | some o =>
      rw [ho] at h
      injection h with h
      injection h with h1 h2
      exact ⟨o, rfl, h1.symm, h2.symm⟩

/-- One call that returns, in terms of the object it is about. -/
theorem step_debug {s s' : Watch} {a : WatchOp} {x : Answer} (h : s.step .debug a = .ok (s', x)) :
    (∃ e ok r, a = .update e ok ∧ x = .bool r ∧ s.updateEvents .debug e ok = .ok (s', r)) ∨
    (s'.events = s.events ∧ s'.interest = s.interest ∧ s'.created = s.created ∧
      ∀ r, x ≠ .bool r) := by
  cases a with
  | make e fd events t =>
      injection h with h
      injection h with h1 h2
      rw [← h1, ← h2]
      exact .inr ⟨rfl, rfl, rfl, fun r hc => by cases hc⟩
  | call e m =>
      rcases step_call h with ⟨o, _, rfl, rfl⟩
      exact .inr ⟨rfl, rfl, rfl, fun r hc => by cases hc⟩
  | update e ok =>
      rcases step_update h with ⟨r, hx, hu⟩
      exact .inl ⟨e, ok, r, rfl, hx, hu⟩
  | get fd =>
      injection h with h
      injection h with h1 h2
      rw [← h1, ← h2]
      exact .inr ⟨rfl, rfl, rfl, fun r hc => by cases hc⟩

/-- Every call keeps table and set together, and one that returns false leaves
    both alone. -/
theorem mirrors_step {s s' : Watch} {a : WatchOp} {x : Answer} (hm : s.Mirrors) (ha : a.Granted)
    (h : s.step .debug a = .ok (s', x)) :
    s'.Mirrors ∧ (x = .bool false → s'.events = s.events ∧ s'.interest = s.interest) := by
  rcases step_debug h with ⟨e, ok, r, rfl, rfl, hu⟩ | ⟨hev, hint, _, hx⟩
  · have hok : ok = true := ha
    rw [hok] at hu
    rcases updateEvents_debug hu with ⟨o, _, hup⟩
    have hboth := hm.updated hup
    refine ⟨hboth.1, fun hx => hboth.2 ?_⟩
    injection hx
  · refine ⟨fun fd => ?_, fun hc => absurd hc (hx false)⟩
    rw [hev, hint]
    exact hm fd

/-- The constructor leaves the table and the set of the kernel in agreement. -/
theorem mirrors_construct {created : Bool} {obj : EvRef → Option Events} {t : Tid} {wakeFd : Fd}
    {wakeEvent : EvRef} {s : Watch} {r : Bool}
    (h : construct .debug created obj t wakeFd wakeEvent true = .ok (s, r)) : s.Mirrors := by
  rcases updateEvents_debug h with ⟨o, _, hup⟩
  have hempty : Mirrors
      { events := fun _ => none
        interest := fun _ => none
        created := created
        obj := Function.update obj wakeEvent (some (Events.make wakeFd kReadEvent t)) } :=
    fun _ => rfl
  exact (hempty.updated hup).1

/-- The loop's table mirrors the epoll set: wherever calls on objects in any
    state lead from the constructor, the two hold the same descriptors, and a
    further call that returns false changes neither. -/
theorem table_mirrors_epoll {created : Bool} {obj : EvRef → Option Events} {t : Tid} {wakeFd : Fd}
    {wakeEvent : EvRef} {r : Bool} {s₀ s : Watch} {as : List WatchOp}
    (h₀ : construct .debug created obj t wakeFd wakeEvent true = .ok (s₀, r))
    (h : Fallible.Runs (Fallible.mute (step .debug)) (fun _ a => a.Granted) s₀ as s) :
    (∀ fd, (s.events fd).isSome = (s.interest fd).isSome) ∧
    ∀ e s', s.step .debug (.update e true) = .ok (s', .bool false) →
      s'.events = s.events ∧ s'.interest = s.interest := by
  have hm : s.Mirrors := by
    refine h.invariant (I := Mirrors) (fun s a s' hs ha hstep => ?_) (mirrors_construct h₀)
    rcases Fallible.mute_eq_ok hstep with ⟨x, hx⟩
    exact (mirrors_step hs ha hx).1
  exact ⟨hm, fun e s' hs => (mirrors_step (a := .update e true) hm rfl hs).2 rfl⟩

/-- A loop just made on thread 1, with `eventfd` 3. -/
def Watch.fresh : Watch where
  events := Function.update (fun _ => none) 3 (some 0)
  interest := Function.update (fun _ => none) 3 (some kReadEvent)
  created := true
  obj := Function.update (fun _ => none) 0 (some (Events.make 3 kReadEvent 1))

theorem construct_fresh : construct .debug true (fun _ => none) 1 3 0 true =
    .ok (.fresh, true) := by
  simp only [construct, updateEvents, pollUpdate, eventsAdd, eventCtl, Function.update_self]
  rfl

/-- Two objects for descriptor 5: the second, once changed, stands for the
    first, and its removal takes the entry of both. -/
theorem table_mirrors_epoll_shared :
    let s := Fallible.after (Fallible.mute (step .debug)) .fresh
      [.make 1 5 kReadEvent 1, .update 1 true, .make 2 5 kReadEvent 1,
        .call 2 (.addEvent kWriteEvent), .update 2 true, .call 2 (.setState .DEL), .update 2 true]
    (∀ fd, (s.events fd).isSome = (s.interest fd).isSome) ∧
    ∀ e s', s.step .debug (.update e true) = .ok (s', .bool false) →
      s'.events = s.events ∧ s'.interest = s.interest :=
  table_mirrors_epoll construct_fresh (Fallible.Checks.runs (by decide))

end Fasco
