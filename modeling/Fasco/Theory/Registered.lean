import Fasco.Theory.Mirror

/-!
# What a Registration Leaves Behind

Two things `pollUpdate` should see to and does not always. They are looked at
in both builds.

The loop decides what to do with a reported event by the mask of the object in
its table, while the kernel reports by the mask it was given last. A new object
goes into the table as its mask goes to the kernel. When an object that has been
changed is reported and there is an entry for its descriptor already, only the
mask goes on; if the entry is another object, the two masks differ from then on
unless they happen to be equal (`dispatch_mask_iff`).

And a call that fails should leave the loop as it was. The table is written
before the kernel is asked, and nothing takes the entry out again if it refuses;
a removal does not look at the answer at all. So a failed call leaves the table
alone only if it writes nothing to it (`failed_update_iff`).

## Main definitions

* `Watch.DispatchesAsked`: The loop's object and the kernel have one mask.
* `Watch.HolderAgrees`: The condition on the object in the table.
* `Watch.request`: What the kernel is asked on behalf of an object.

## Theorems

* `dispatchesAsked_iff`: One call.
* `dispatch_mask_iff`: All calls of a run.
* `second_object_not_dispatched`: Two objects for one descriptor.
* `failed_update_iff`: When a failed call leaves the table alone.
* `failed_add_stays`: A registration the kernel refuses.
-/

namespace Fasco

open Fallible

namespace Watch

variable {b : Build} {s s' : Watch} {e : EvRef} {o : Events} {ok r : Bool}

/-- If the call tells the loop about an object in state `NEW` or `MOD` and
    returns true, the loop holds an object for the descriptor whose mask is the
    one the kernel has. -/
def DispatchesAsked (b : Build) (s : Watch) : WatchOp → Prop
  | .update e ok => ∀ o s', s.obj e = some o → o.state = .NEW ∨ o.state = .MOD →
      s.step b (.update e ok) = .ok (s', .bool true) →
      ∃ d od, s'.getEvents o.fd = some d ∧ s'.obj d = some od ∧
        s'.interest o.fd = some o.eorigin ∧ od.eorigin = o.eorigin
  | _ => True

/-- If the call tells the loop about an object in state `MOD` whose descriptor
    is registered, the object in the table has the same mask. -/
def HolderAgrees (s : Watch) : WatchOp → Prop
  | .update e _ => ∀ o d, s.obj e = some o → o.state = .MOD → s.events o.fd = some d →
      (s.interest o.fd).isSome → ∃ od, s.obj d = some od ∧ od.eorigin = o.eorigin
  | _ => True

-- Whatever the build, no call makes or loses the epoll instance.
theorem eventCtl_created {op : CtlOp} {sd : Fd} {events : UInt32} {x : Watch × Bool}
    (h : s.eventCtl b op sd events ok = .ok x) : x.1.created = s.created := by
  rw [(eventCtl_ok_iff.mp h).2]

theorem updateEvents_created {x : Watch × Bool} (h : s.updateEvents b e ok = .ok x) :
    x.1.created = s.created := by
  cases ho : s.obj e with
  | none =>
      rw [updateEvents, ho] at h
      cases h
  | some o =>
      cases hst : o.state with
      | INVAILD =>
          rw [updateEvents_invaild ho hst] at h
          injection h with h
          rw [← h]
      | USED =>
          rw [updateEvents_used ho hst] at h
          injection h with h
          rw [← h]
      | NEW =>
          rw [updateEvents_new ho hst] at h
          rcases (bind_eq_ok_iff _ _ _).mp h with ⟨_, _, h1⟩
          exact eventCtl_created (s := s.setEntry o.fd (some e)) h1
      | MOD =>
          cases hent : s.events o.fd with
          | none =>
              rw [updateEvents_mod_out ho hst hent] at h
              exact eventCtl_created (s := s.setEntry o.fd (some e)) h
          | some d =>
              rw [updateEvents_mod_in ho hst hent] at h
              exact eventCtl_created h
      | DEL =>
          rw [updateEvents_del ho hst] at h
          rcases (bind_eq_ok_iff _ _ _).mp h with ⟨x1, hc, h1⟩
          rcases (bind_eq_ok_iff _ _ _).mp h1 with ⟨s2, he, h2⟩
          injection h2 with h2
          rw [← h2, ← eventCtl_created hc]
          cases b with
          | debug =>
              rw [assertErase] at he
              by_cases hin : (x1.1.events o.fd).isSome = true
              · simp only [hin, if_true] at he
                injection he with he
                rw [← he]
                rfl
              · simp only [hin, Bool.false_eq_true, if_false] at he
                cases he
          | release =>
              injection he with he
              rw [he]

theorem step_created {a : WatchOp} {x : Answer} (h : s.step b a = .ok (s', x)) :
    s'.created = s.created := by
  cases a with
  | make e fd events t =>
      injection h with h
      injection h with h1 _
      rw [← h1]
  | call e m =>
      rcases step_call h with ⟨o, _, rfl, _⟩
      rfl
  | update e ok =>
      rcases step_update h with ⟨r, _, hu⟩
      exact updateEvents_created hu
  | get fd =>
      injection h with h
      injection h with h1 _
      rw [← h1]

/-! ### The mask of the object in the table -/

/-- An addition that succeeds has put the object into the table. -/
theorem dispatches_added (ho : s.obj e = some o)
    (h : (s.setEntry o.fd (some e)).eventsAdd b o ok = .ok (s', true)) :
    ∃ d od, s'.getEvents o.fd = some d ∧ s'.obj d = some od ∧
      s'.interest o.fd = some o.eorigin ∧ od.eorigin = o.eorigin := by
  have hx := (eventCtl_ok_iff.mp h).2
  injection hx with h1 h2
  have hi : s'.interest o.fd = some o.eorigin := by
    rw [h1]
    simp only [Interest.ctl] at h2 ⊢
    by_cases hg : (ok && (s.setEntry o.fd (some e)).created &&
        ((s.setEntry o.fd (some e)).interest o.fd).isNone) = true
    · rw [if_pos hg]
      exact Function.update_self _ _ _
    · rw [if_neg hg] at h2
      cases h2
  refine ⟨e, o, ?_, ?_, hi, rfl⟩
  · rw [h1]
    exact Function.update_self _ _ _
  · rw [h1]
    exact ho

/-- While the epoll instance works and the kernel refuses only what it must,
    a call leaves the loop and the kernel with one mask exactly if the object in
    the table has the mask of the one the call is about. -/
theorem dispatchesAsked_iff {a : WatchOp} (hc : s.created = true) (ha : a.Granted) :
    DispatchesAsked b s a ↔ HolderAgrees s a := by
  cases a with
  | make _ _ _ _ => exact Iff.rfl
  | call _ _ => exact Iff.rfl
  | get _ => exact Iff.rfl
  | update e ok =>
      have hok : ok = true := ha
      constructor
      · intro hd o d ho hst hent hin
        -- The change is granted, and the table is as it was.
        have hup : s.updateEvents b e ok = .ok ({ s with
            interest := Function.update s.interest o.fd (some o.eorigin) }, true) := by
          rw [updateEvents_mod_in ho hst hent]
          refine eventCtl_ok_iff.mpr ⟨fun _ => hc, ?_⟩
          rw [hok, hc, Bool.and_self, Interest.ctl_mod hin]
        have hstep : s.step b (.update e ok) = .ok ({ s with
            interest := Function.update s.interest o.fd (some o.eorigin) }, .bool true) := by
          rw [step, hup]
          rfl
        rcases hd o _ ho (.inr hst) hstep with ⟨d', od, hd', hod, _, hmask⟩
        have hsame : s.events o.fd = some d' := hd'
        rw [hent] at hsame
        injection hsame with hsame
        rw [← hsame] at hod
        exact ⟨od, hod, hmask⟩
      · intro hh o s' ho hst hstep
        rcases step_update hstep with ⟨r, hr, hu⟩
        injection hr with hr
        rw [← hr] at hu
        rcases hst with hst | hst
        · rw [updateEvents_new ho hst] at hu
          rcases (bind_eq_ok_iff _ _ _).mp hu with ⟨_, _, h1⟩
          exact dispatches_added ho h1
        · cases hent : s.events o.fd with
          | none =>
              rw [updateEvents_mod_out ho hst hent] at hu
              exact dispatches_added ho hu
          | some d =>
              rw [updateEvents_mod_in ho hst hent] at hu
              have hx := (eventCtl_ok_iff.mp hu).2
              injection hx with h1 h2
              -- What the kernel granted it had.
              by_cases hin : (s.interest o.fd).isSome = true
              · rcases hh o d ho hst hent hin with ⟨od, hod, hmask⟩
                refine ⟨d, od, ?_, ?_, ?_, hmask⟩
                · rw [h1]
                  exact hent
                · rw [h1]
                  exact hod
                · rw [h1, hok, hc, Bool.and_self, Interest.ctl_mod hin]
                  exact Function.update_self _ _ _
              · simp [Interest.ctl, hin] at h2

end Watch

open Watch

/-- For all sequences of calls on any objects, in either build, with an epoll
    instance that works and refuses only what it must: every registration
    leaves the loop holding an object with the mask the kernel has, exactly if
    no object in state `MOD` is reported while the table has one with another
    mask for its descriptor. -/
theorem dispatch_mask_iff {b : Build} {obj : EvRef → Option Events} {t : Tid} {wakeFd : Fd}
    {wakeEvent : EvRef} {r : Bool} {s₀ : Watch} {as : List WatchOp}
    (h₀ : construct b true obj t wakeFd wakeEvent true = .ok (s₀, r))
    (hg : Along (mute (step b)) (fun _ a => a.Granted) s₀ as) :
    Along (mute (step b)) (DispatchesAsked b) s₀ as ↔ Along (mute (step b)) HolderAgrees s₀ as := by
  refine along_congr (I := fun s => s.created = true) ?_ ?_ as s₀ ?_ hg
  · intro s a s' hc _ _ hstep
    rcases mute_eq_ok hstep with ⟨x, hx⟩
    rw [step_created hx, hc]
  · intro s a hc ha
    exact dispatchesAsked_iff hc ha
  · exact updateEvents_created h₀

/-- An object is registered, changed and reported again. -/
theorem dispatch_mask_iff_changed :
    let as : List WatchOp := [.make 1 5 kReadEvent 1, .update 1 true,
      .call 1 (.addEvent kWriteEvent), .update 1 true]
    Along (mute (step .debug)) (DispatchesAsked .debug) .fresh as ↔
      Along (mute (step .debug)) HolderAgrees .fresh as :=
  dispatch_mask_iff construct_fresh ⟨trivial, fun _ _ => ⟨rfl, fun _ _ => ⟨trivial, fun _ _ =>
    ⟨rfl, fun _ _ => trivial⟩⟩⟩⟩

/-- A second object for descriptor 5 asks for writing: the kernel now reports
    when 5 can be written, and the loop's object asks for reading only. -/
theorem second_object_not_dispatched :
    let s := after (mute (step .debug)) .fresh [.make 1 5 kReadEvent 1, .update 1 true,
      .make 2 5 kNoneEvent 1, .call 2 (.updateEvents kWriteEvent)]
    ¬ DispatchesAsked .debug s (.update 2 true) := by
  intro s h
  rcases h _ _ rfl (.inr rfl) rfl with ⟨d, od, hd, hod, _, hmask⟩
  injection hd with hd
  rw [← hd] at hod
  injection hod with hod
  rw [← hod] at hmask
  exact absurd hmask (by decide)

/-! ### A call that fails -/

/-- What `pollUpdate` asks of the kernel for the object. -/
def Watch.request (s : Watch) (o : Events) : CtlOp :=
  match o.state with
  | .NEW => .add
  | .MOD => if (s.events o.fd).isNone then .add else .mod
  | _ => .del

/-- For every state of the loop and every object in state `NEW`, `MOD` or
    `DEL`, in either build, if the kernel refuses: the call returns false and
    leaves the table as it was exactly if it asks for a change of what is
    registered, or, without assertions, registers the object in the table once
    more. -/
theorem failed_update_iff {b : Build} {s : Watch} {e : EvRef} {o : Events} {ok : Bool}
    (ho : s.obj e = some o) (hst : o.state = .NEW ∨ o.state = .MOD ∨ o.state = .DEL)
    (hcall : b = .debug → s.created = true)
    (hfail : (s.interest.ctl (s.request o) o.fd o.eorigin (ok && s.created)).2 = false) :
    (∃ s', s.updateEvents b e ok = .ok (s', false) ∧ s'.events = s.events) ↔
      (o.state = .MOD ∧ (s.events o.fd).isSome) ∨
      (b = .release ∧ o.state = .NEW ∧ s.events o.fd = some e) := by
  rcases hst with hst | hst | hst
  · rw [updateEvents_new ho hst]
    have hreq : s.request o = .add := by rw [Watch.request, hst]
    rw [hreq] at hfail
    constructor
    · rintro ⟨s', h, htab⟩
      rcases (bind_eq_ok_iff _ _ _).mp h with ⟨_, ha, h1⟩
      have hx := (eventCtl_ok_iff.mp h1).2
      injection hx with h2 _
      -- The entry was the object already, so the assertion would have failed.
      have hent : s.events o.fd = some e := by
        rw [← htab, h2]
        exact Function.update_self _ _ _
      refine .inr ⟨?_, hst, hent⟩
      cases b with
      | debug =>
          have hnone := Build.assert_ok_iff.mp ha rfl
          rw [hent] at hnone
          cases hnone
      | release => rfl
    · rintro (⟨hbad, _⟩ | ⟨hb, _, hent⟩)
      · rw [hst] at hbad
        cases hbad
      · refine ⟨{ s.setEntry o.fd (some e) with
            interest := (s.interest.ctl .add o.fd o.eorigin (ok && s.created)).1 }, ?_, ?_⟩
        · rw [bind_eq_ok_iff]
          refine ⟨(), Build.assert_ok_iff.mpr (fun h => by rw [hb] at h; cases h), ?_⟩
          refine eventCtl_ok_iff.mpr ⟨hcall, ?_⟩
          rw [← hfail]
          rfl
        · change Function.update s.events o.fd (some e) = s.events
          rw [← hent, Function.update_eq_self]
  · cases hent : s.events o.fd with
    | none =>
        rw [updateEvents_mod_out ho hst hent]
        constructor
        · rintro ⟨s', h, htab⟩
          have hx := (eventCtl_ok_iff.mp h).2
          injection hx with h2 _
          have hin : s'.events o.fd = some e := by
            rw [h2]
            exact Function.update_self _ _ _
          rw [htab, hent] at hin
          cases hin
        · rintro (⟨_, hbad⟩ | ⟨_, hbad, _⟩)
          · cases hbad
          · rw [hst] at hbad
            cases hbad
    | some d =>
        rw [updateEvents_mod_in ho hst hent]
        have hreq : s.request o = .mod := by
          rw [Watch.request, hst, hent]
          rfl
        rw [hreq] at hfail
        refine ⟨fun _ => .inl ⟨hst, rfl⟩, fun _ => ?_⟩
        refine ⟨{ s with interest := (s.interest.ctl .mod o.fd o.eorigin (ok && s.created)).1 }, ?_,
          rfl⟩
        refine eventCtl_ok_iff.mpr ⟨hcall, ?_⟩
        rw [← hfail]
  · rw [updateEvents_del ho hst]
    constructor
    · -- A removal that returns returns true.
      rintro ⟨s', h, _⟩
      rcases (bind_eq_ok_iff _ _ _).mp h with ⟨x, _, h1⟩
      rcases (bind_eq_ok_iff _ _ _).mp h1 with ⟨s2, _, h2⟩
      injection h2 with h2
      injection h2 with _ h3
      cases h3
    · rintro (⟨hbad, _⟩ | ⟨_, hbad, _⟩)
      · rw [hst] at hbad
        cases hbad
      · rw [hst] at hbad
        cases hbad

/-- The kernel refuses to change what is registered. -/
theorem failed_update_iff_changed :
    let s := after (mute (step .debug)) .fresh [.make 1 5 kReadEvent 1, .update 1 true,
      .call 1 (.addEvent kWriteEvent)]
    (∃ s', s.updateEvents .debug 1 false = .ok (s', false) ∧ s'.events = s.events) ↔
      (EventsState.MOD = .MOD ∧ (s.events 5).isSome) ∨
      (Build.debug = .release ∧ EventsState.MOD = .NEW ∧ s.events 5 = some 1) :=
  failed_update_iff
    (o := ⟨5, 1, .MOD, kReadEvent ||| kWriteEvent, kNoneEvent⟩) rfl (.inr (.inl rfl))
    (fun _ => rfl) rfl

/-- The kernel refuses to watch descriptor 5, and the table has an entry for
    it. A removal that the kernel refuses returns true, and the entry is gone. -/
theorem failed_add_stays :
    let s := after (mute (step .debug)) .fresh [.make 1 5 kReadEvent 1]
    let s' := after (mute (step .debug)) s [.update 1 true, .call 1 (.setState .DEL)]
    (s.events 5 = none ∧ ∃ u, s.updateEvents .debug 1 false = .ok (u, false) ∧
      u.events 5 = some 1) ∧
    (s'.events 5 = some 1 ∧ ∃ u, s'.updateEvents .debug 1 false = .ok (u, true) ∧
      u.events 5 = none) :=
  ⟨⟨rfl, _, rfl, rfl⟩, ⟨rfl, _, rfl, rfl⟩⟩

end Fasco
