import Fasco.Theory.FirstUse
import Fasco.Theory.Mirror

/-!
# With and Without Assertions

What the assertions do to the program. Most only look, but one does work:
`assert(events_.erase(fd))` in `pollUpdate`. Without assertions a removal
leaves the entry in the loop's table, and with it the last pointer to the
object. `builds_agree_iff` says that the builds differ in this and nothing
else, for every run of one loop in which no assertion fails.

For the coroutines it says that the builds agree on every run in which no
assertion fails. Those are few: `Theory.FirstUse` shows that the first use of
a coroutine ends the program if the size assertions are there.

## Main definitions

* `WatchOp.Deletes`: An update of an object in state `DEL`.

## Theorems

* `updateEvents_release`: An update that returns with assertions, without.
* `step_release_iff`: Where the builds of the loop agree.
* `builds_agree_iff`: Where the builds agree.
* `removal_without_assertions`: Where they do not.
-/

namespace Fasco

open Fallible

/-- The call tells the loop about an object in state `DEL`. -/
def WatchOp.Deletes (s : Watch) : WatchOp → Prop
  | .update e _ => ∃ o, s.obj e = some o ∧ o.state = .DEL
  | _ => False

instance (s : Watch) : ∀ a, Decidable (WatchOp.Deletes s a)
  | .make _ _ _ _ => isFalse id
  | .call _ _ => isFalse id
  | .update e _ => inferInstanceAs (Decidable (∃ o, s.obj e = some o ∧ o.state = .DEL))
  | .get _ => isFalse id

/-! ### One loop -/

namespace Watch

variable {s s' : Watch} {e : EvRef} {o : Events} {ok r : Bool}

-- A removal that returns has erased the entry.
theorem Updated.of_del (h : Updated s e o ok s' r) (hst : o.state = .DEL) :
    (s.events o.fd).isSome ∧ s' = { s with
      events := Function.update s.events o.fd none
      interest := (s.interest.ctl .del o.fd o.eorigin ok).1 } := by
  cases h with
  | ignored hi =>
      rw [hst] at hi
      cases hi
  | idle hi =>
      rw [hst] at hi
      cases hi
  | added hi _ => rcases hi with hi | hi <;> rw [hst] at hi <;> cases hi
  | changed hi _ =>
      rw [hst] at hi
      cases hi
  | removed _ hin => exact ⟨hin, rfl⟩

-- An assertion without effect is as good as none when it holds.
theorem eventCtl_release {op : CtlOp} {sd : Fd} {events : UInt32} {x : Watch × Bool}
    (h : s.eventCtl .debug op sd events ok = .ok x) :
    s.eventCtl .release op sd events ok = .ok x := by
  rcases (bind_eq_ok_iff _ _ _).mp h with ⟨_, _, h1⟩
  exact h1

/-- Without assertions an update that would return with them does the same,
    unless it is a removal, which leaves the entry in the table. -/
theorem updateEvents_release (h : s.updateEvents .debug e ok = .ok (s', r))
    (ho : s.obj e = some o) :
    (o.state ≠ .DEL ∧ s.updateEvents .release e ok = .ok (s', r)) ∨
    (o.state = .DEL ∧ ∃ s'' r', s.updateEvents .release e ok = .ok (s'', r') ∧
      (s'.events o.fd).isSome = false ∧ (s''.events o.fd).isSome = true) := by
  rcases updateEvents_debug h with ⟨o', ho', hup⟩
  rw [ho] at ho'
  injection ho' with ho'
  rw [← ho'] at hup
  cases hst : o.state with
  | INVAILD =>
      rw [updateEvents_invaild ho hst] at h ⊢
      exact .inl ⟨by decide, h⟩
  | USED =>
      rw [updateEvents_used ho hst] at h ⊢
      exact .inl ⟨by decide, h⟩
  | NEW =>
      rw [updateEvents_new ho hst] at h ⊢
      rcases (bind_eq_ok_iff _ _ _).mp h with ⟨_, _, h1⟩
      exact .inl ⟨by decide, eventCtl_release h1⟩
  | MOD =>
      left
      refine ⟨by decide, ?_⟩
      cases hent : s.events o.fd with
      | none =>
          rw [updateEvents_mod_out ho hst hent] at h ⊢
          exact eventCtl_release h
      | some old =>
          rw [updateEvents_mod_in ho hst hent] at h ⊢
          exact eventCtl_release h
  | DEL =>
      right
      rw [updateEvents_del ho hst] at h
      rcases (bind_eq_ok_iff _ _ _).mp h with ⟨⟨s1, r1⟩, hc, _⟩
      rcases eventCtl_debug hc with ⟨_, hs1, _⟩
      rcases hup.of_del hst with ⟨hin, hs'⟩
      refine ⟨rfl, s1, true, ?_, ?_, ?_⟩
      · rw [updateEvents_del ho hst]
        change (eventCtl .release s .del o.fd o.eorigin ok >>= _) = _
        rw [eventCtl_release hc]
        rfl
      · rw [hs']
        simp only [Function.update_self, Option.isSome_none]
      · rw [hs1]
        exact hin

/-- A call that returns in the build with assertions has the same outcome in
    the one without exactly if it is no removal. -/
theorem step_release_iff {a : WatchOp} {y : Answer} (h : s.step .debug a = .ok (s', y)) :
    s.step .release a = s.step .debug a ↔ ¬ a.Deletes s := by
  cases a with
  | make e fd events t => exact ⟨fun _ hc => hc, fun _ => rfl⟩
  | call e m => exact ⟨fun _ hc => hc, fun _ => rfl⟩
  | get fd => exact ⟨fun _ hc => hc, fun _ => rfl⟩
  | update e ok =>
      rcases step_update h with ⟨r, _, hu⟩
      rcases updateEvents_debug hu with ⟨o, ho, _⟩
      rcases updateEvents_release hu ho with ⟨hne, hrel⟩ | ⟨hdel, s'', r', hrel, hout, hin⟩
      · constructor
        · rintro _ ⟨o', ho', hd⟩
          rw [ho] at ho'
          injection ho' with ho'
          exact hne (by rw [ho', hd])
        · intro _
          simp only [step, hu, hrel]
      · constructor
        · intro heq _
          simp only [step, hu, hrel] at heq
          injection heq with heq
          injection heq with heq _
          have hs : s'' = s' := heq
          rw [hs, hout] at hin
          cases hin
        · intro hn
          exact absurd ⟨o, ho, hdel⟩ hn

end Watch

/-! ### The two builds -/

/-- For every run of one loop in which no assertion fails, and every such run
    of coroutine operations: without assertions the run of the loop goes
    through the same states and answers exactly if it contains no removal, and
    the run of the coroutines always does. -/
theorem builds_agree_iff {s : Watch} {as : List WatchOp} {tr : List (Watch × Answer)}
    {w : World} {bs : List Op} {us : List (World × Option McoRef)}
    (hs : trace (Watch.step .debug) s as = .ok tr) (hw : Init w)
    (hus : trace (World.stepA (Build.asserts .debug)) w bs = .ok us) :
    (trace (Watch.step .release) s as = .ok tr ↔
      Along (mute (Watch.step .debug)) (fun s a => ¬ a.Deletes s) s as) ∧
    trace (World.stepA (Build.asserts .release)) w bs = .ok us := by
  constructor
  · rw [trace_eq_iff hs]
    refine along_congr (I := fun _ => True) (fun _ _ _ _ _ _ _ => trivial) ?_ as s trivial
      (along_of_trace hs)
    rintro v a - ⟨⟨v', x⟩, hv⟩
    exact Watch.step_release_iff hv
  · rw [trace_eq_iff hus]
    -- A step that returns has started nothing, and the builds differ in nothing else.
    have hcalm : ∀ (v : World) (a : Op), v.Unused →
        (∃ r, v.stepA (Build.asserts .debug) a = .ok r) →
        ∃ v' x, (∀ A, v.stepA A a = .ok (v', x)) ∧ v'.Unused := by
      rintro v a hu ⟨r, hv⟩
      by_cases hst : a.Starts v
      · rw [World.stepA_starts_size hu hst] at hv
        cases hv
      · rcases World.stepA_calm hu hst with ⟨f, hf⟩ | hok
        · rw [hf] at hv
          cases hv
        · exact hok
    refine along_of_invariant (I := World.Unused) ?_ ?_ bs w (World.unused_init hw)
      (along_of_trace hus)
    · intro v a v' hu hret hstep
      rcases hcalm v a hu hret with ⟨v1, x, hv, hu1⟩
      rcases mute_eq_ok hstep with ⟨y, hy⟩
      rw [hv] at hy
      injection hy with hy
      injection hy with hy _
      rw [← hy]
      exact hu1
    · intro v a hu hret
      rcases hcalm v a hu hret with ⟨v1, x, hv, _⟩
      rw [hv, hv]

/-- An object is registered, changed and looked up; a coroutine is created,
    yields before it has run, and is freed. -/
theorem builds_agree_iff_changed :
    let as : List WatchOp := [.make 1 5 kReadEvent 1, .update 1 true,
      .call 1 (.addEvent kWriteEvent), .update 1 true, .get 5]
    let bs : List Op := [.create 0 10 false, .yield 0 (some 10) 0, .free 0 (some 10)]
    ∃ tr us, (trace (Watch.step .release) .fresh as = .ok tr ↔
        Along (mute (Watch.step .debug)) (fun s a => ¬ a.Deletes s) .fresh as) ∧
      trace (World.stepA (Build.asserts .release)) .blank bs = .ok us :=
  ⟨_, _, builds_agree_iff rfl blank_init rfl⟩

/-- A descriptor is registered and removed. With assertions it is gone from the
    table, and without it is still there. -/
theorem removal_without_assertions :
    let as : List WatchOp := [.make 1 5 kReadEvent 1, .update 1 true, .call 1 (.setState .DEL),
      .update 1 true]
    (∃ tr, trace (Watch.step .debug) .fresh as = .ok tr ∧
      trace (Watch.step .release) .fresh as ≠ .ok tr) ∧
    (after (mute (Watch.step .debug)) .fresh as).events 5 = none ∧
    (after (mute (Watch.step .release)) .fresh as).events 5 = some 1 := by
  refine ⟨⟨_, rfl, fun h => ?_⟩, rfl, rfl⟩
  have hlast := congrArg
    (fun x => x.toOption.bind (fun l => l.getLast?.map (fun p => p.1.events 5))) h
  cases hlast

end Fasco
