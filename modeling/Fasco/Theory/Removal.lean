import Fasco.Theory.Hooked
import Fasco.Theory.Mirror

/-!
# Removal and Re-registration

`RemoveEventFromLoop` sets the state of an object to `DEL` and tells the loop,
which takes the descriptor out of its table and its epoll set. `DEL` is meant
to stay: `eventHandleAble` drops what is reported for such an object. But
every mask operation writes `MOD` over it, and for an object in that state
whose descriptor is not in the table `pollUpdate` adds the descriptor.

`removal_final_iff` says when an object that has been removed stays removed:
exactly if no mask operation has been applied to it since, or its descriptor
is in the table anyway. A hooked `read` or `accept` that goes on after its
suspension applies one always, so it puts a descriptor that was closed in the
meantime back, unless the table has it again.

## Main definitions

* `WatchOp.masks`, `WatchOp.Spares`: What a call does to the state of one
  object.
* `Watch.StaysOut`, `Io.StaysOut`: A descriptor that is out stays out.

## Theorems

* `run_state`: The state of an object along a run.
* `leave_staysOut_iff`: When a hooked call that goes on leaves its descriptor
  out.
* `removal_final_iff`: When a removal is final.
* `read_after_close`: A descriptor closed during a hooked read is put back.
-/

namespace Fasco

open Fallible

/-- The call is a mask operation on `e`. -/
def WatchOp.masks (e : EvRef) : WatchOp → Bool
  | .call e' m => decide (e' = e) && m.isMask
  | _ => false

/-- The call does not make an object at `e`, nor set the state of the one
    there by hand. -/
def WatchOp.Spares (e : EvRef) : WatchOp → Prop
  | .make e' _ _ _ => e' ≠ e
  | .call e' (.setState _) => e' ≠ e
  | _ => True

instance (e : EvRef) : ∀ a, Decidable (WatchOp.Spares e a)
  | .make e' _ _ _ => inferInstanceAs (Decidable (e' ≠ e))
  | .call e' (.setState _) => inferInstanceAs (Decidable (e' ≠ e))
  | .call _ (.setMutable _) => isTrue trivial
  | .call _ (.updateEvents _) => isTrue trivial
  | .call _ (.addEvent _) => isTrue trivial
  | .call _ (.deleteEvent _) => isTrue trivial
  | .call _ (.addEventMutable _) => isTrue trivial
  | .call _ (.deleteEventMutable _) => isTrue trivial
  | .update _ _ => isTrue trivial
  | .get _ => isTrue trivial

namespace Watch

variable {s s' : Watch} {e : EvRef} {o : Events}

/-- If `fd` is in neither the table nor the epoll set of `s`, it is in neither
    of `s'`, and if it is out of one it stays out of that. -/
def StaysOut (s s' : Watch) (fd : Fd) : Prop :=
  (s.events fd = none → s'.events fd = none) ∧ (s.interest fd = none → s'.interest fd = none)

-- Telling the loop about an object changes no object.
theorem updateEvents_obj {ok r : Bool} (h : s.updateEvents .debug e ok = .ok (s', r)) :
    s'.obj = s.obj := by
  rcases updateEvents_debug h with ⟨o, _, hup⟩
  cases hup <;> rfl

/-- One call sets the state of `e` to `MOD` if it is a mask operation on it,
    and otherwise leaves it. -/
theorem step_state {a : WatchOp} {x : Answer} (ho : s.obj e = some o) (ha : a.Spares e)
    (h : s.step .debug a = .ok (s', x)) :
    ∃ o', s'.obj e = some o' ∧ o'.fd = o.fd ∧
      o'.state = if a.masks e then .MOD else o.state := by
  cases a with
  | make e' fd events t =>
      injection h with h
      injection h with h1 _
      rw [← h1]
      have hne : e ≠ e' := fun hc => ha hc.symm
      exact ⟨o, by rw [← ho]; exact Function.update_of_ne hne _ _, rfl, rfl⟩
  | call e' m =>
      simp only [step] at h
      cases ho' : s.obj e' with
      | none =>
          rw [ho'] at h
          cases h
      | some q =>
          rw [ho'] at h
          injection h with h
          injection h with h1 _
          rw [← h1]
          by_cases hee : e' = e
          · rw [hee, ho] at ho'
            injection ho' with ho'
            refine ⟨m.run o, ?_, ?_, ?_⟩
            · rw [hee, ← ho']
              exact Function.update_self _ _ _
            · cases m <;> rfl
            · cases m with
              | setState st => exact absurd hee ha
              | setMutable event => simp [WatchOp.masks, EventsCall.isMask, EventsCall.run,
                  Events.setMutable]
              | updateEvents events => simp [WatchOp.masks, EventsCall.isMask, EventsCall.run,
                  Events.updateEvents, hee]
              | addEvent event => simp [WatchOp.masks, EventsCall.isMask, EventsCall.run,
                  Events.addEvent, hee]
              | deleteEvent event => simp [WatchOp.masks, EventsCall.isMask, EventsCall.run,
                  Events.deleteEvent, hee]
              | addEventMutable event => simp [WatchOp.masks, EventsCall.isMask, EventsCall.run,
                  Events.addEventMutable, hee]
              | deleteEventMutable event => simp [WatchOp.masks, EventsCall.isMask,
                  EventsCall.run, Events.deleteEventMutable, hee]
          · have hmask : (WatchOp.call e' m).masks e = false := by
              simp [WatchOp.masks, hee]
            rw [hmask]
            exact ⟨o, by rw [← ho]; exact Function.update_of_ne (Ne.symm hee) _ _, rfl, rfl⟩
  | update e' ok =>
      rcases step_update h with ⟨r, _, hu⟩
      rw [updateEvents_obj hu]
      exact ⟨o, ho, rfl, rfl⟩
  | get fd =>
      injection h with h
      injection h with h1 _
      rw [← h1]
      exact ⟨o, ho, rfl, rfl⟩

/-- The state of `e` along a run: `MOD` from the first mask operation on, and
    until then what it was. -/
theorem run_state {bs : List WatchOp} (h : Runs (mute (step .debug)) (fun _ a => a.Spares e)
    s bs s') :
    ∀ o, s.obj e = some o → ∃ o', s'.obj e = some o' ∧ o'.fd = o.fd ∧
      o'.state = if bs.any (WatchOp.masks e) then .MOD else o.state := by
  induction h with
  | nil s => exact fun o ho => ⟨o, ho, rfl, rfl⟩
  | cons s s1 s' a as ha hstep hrest ih =>
      intro o ho
      rcases mute_eq_ok hstep with ⟨x, hx⟩
      rcases step_state ho ha hx with ⟨o1, ho1, hfd1, hst1⟩
      rcases ih o1 ho1 with ⟨o2, ho2, hfd2, hst2⟩
      refine ⟨o2, ho2, hfd2.trans hfd1, ?_⟩
      rw [hst2, hst1, List.any_cons]
      cases a.masks e <;> cases as.any (WatchOp.masks e) <;> rfl

/-- An update leaves the object's descriptor out unless the object asks to be
    added and the table has no entry for it. -/
theorem Updated.staysOut_iff {ok r : Bool} (h : Updated s e o ok s' r)
    (hst : o.state = .DEL ∨ o.state = .MOD) :
    StaysOut s s' o.fd ↔ (o.state = .DEL ∨ (s.events o.fd).isSome) := by
  cases h with
  | ignored hi => exact absurd hi (by rcases hst with hst | hst <;> rw [hst] <;> decide)
  | idle hi => exact absurd hi (by rcases hst with hst | hst <;> rw [hst] <;> decide)
  | added hadd hfree =>
      constructor
      · rintro ⟨htab, _⟩
        have := htab hfree
        simp only [Function.update_self] at this
        cases this
      · rintro (hd | hin)
        · rcases hadd with hadd | hadd <;> rw [hd] at hadd <;> cases hadd
        · rw [hfree] at hin
          cases hin
  | changed hmod hin =>
      refine ⟨fun _ => .inr hin, fun _ => ⟨fun hnone => hnone, fun hnone => ?_⟩⟩
      simp only [Interest.ctl, hnone, Option.isSome_none, Bool.and_false, Bool.false_eq_true,
        if_false]
  | removed hdel hin =>
      refine ⟨fun _ => .inl hdel, fun _ => ⟨fun _ => Function.update_self _ _ _, fun hnone => ?_⟩⟩
      simp only [Interest.ctl, hnone, Option.isSome_none, Bool.and_false, Bool.false_eq_true,
        if_false]

end Watch

/-! ### The hooks -/

namespace Io

variable {s s' : Io} {e : EvRef} {t : Tid} {fd : Fd}

/-- The same for thread `t`'s loop among all tables. -/
def StaysOut (s s' : Io) (t : Tid) (fd : Fd) : Prop :=
  (s.entry t fd = none → s'.entry t fd = none) ∧
    (s.kern.interest t fd = none → s'.kern.interest t fd = none)

-- Losing a pointer leaves the tables alone; of the kernel's sets it can only
-- take the object's descriptor out.
theorem dropped_loop (s : Io) (e : EvRef) (obj : Events) (n : Nat) (k : Kernel) :
    (s.dropped e obj n k).loop = s.loop := by
  unfold dropped
  by_cases h : n ≤ 1
  · rw [if_pos h]
    rfl
  · rw [if_neg h]
    rfl

theorem dropped_interest {obj : Events} {n : Nat} {k : Kernel} (h : k.interest t fd = none) :
    (s.dropped e obj n k).kern.interest t fd = none := by
  unfold dropped
  by_cases hn : n ≤ 1
  · rw [if_pos hn]
    change Function.update (k.interest t) obj.fd none fd = none
    by_cases hfd : fd = obj.fd
    · rw [hfd, Function.update_self]
    · rw [Function.update_of_ne hfd]
      exact h
  · rw [if_neg hn]
    exact h

theorem eventMod_interest {k : Kernel} {g : Fd} {u : Tid} {events : UInt32} {ok : Bool}
    (h : k.interest t fd = none) : (k.eventMod u g events ok).1.interest t fd = none := by
  unfold Kernel.eventMod
  by_cases hc : (ok && (k.interest u g).isSome) = true
  · rw [if_pos hc]
    change Function.update k.interest u (Function.update (k.interest u) g (some events)) t fd = none
    have hne : ¬ (t = u ∧ fd = g) := by
      rintro ⟨rfl, rfl⟩
      rw [h, Option.isSome_none, Bool.and_false] at hc
      cases hc
    by_cases htu : t = u
    · have hfg : fd ≠ g := fun hfg => hne ⟨htu, hfg⟩
      rw [htu, Function.update_self, Function.update_of_ne hfg, ← htu]
      exact h
    · rw [Function.update_of_ne htu]
      exact h
  · rw [if_neg hc]
    exact h

/-- The end of a hooked call leaves its descriptor out unless the thread has a
    loop whose table has no entry for it. -/
theorem hookLeave_staysOut_iff {x : EventsCell} {ok : Bool} (hx : s.ev e = some x)
    (hn : 1 ≤ x.useCount) (h : s.hookLeave e ok = .ok s') :
    s.StaysOut s' x.obj.tid x.obj.fd ↔
      (s.loop x.obj.tid = none ∨ (s.entry x.obj.tid x.obj.fd).isSome) := by
  rcases hookLeave_cases hx hn h with ⟨l, hl, hent, rfl⟩ | ⟨k, rfl, hk⟩
  · constructor
    · rintro ⟨htab, _⟩
      have hnone := htab hent
      have hsome : (s.setTable x.obj.tid l x.obj.fd (some e)).entry x.obj.tid x.obj.fd
        = some e := by
        rw [setTable_entry s _ l _ _ hl, if_pos ⟨rfl, rfl⟩]
      have hnone' : (s.setTable x.obj.tid l x.obj.fd (some e)).entry x.obj.tid x.obj.fd = none :=
        hnone
      rw [hsome] at hnone'
      cases hnone'
    · rintro (hno | hin)
      · rw [hl] at hno
        cases hno
      · rw [hent] at hin
        cases hin
  · constructor
    · intro _
      rcases hk with ⟨hl, _⟩ | ⟨old, hold, _⟩
      · exact .inl hl
      · exact .inr (by rw [hold]; rfl)
    · intro _
      refine ⟨fun hnone => ?_, fun hnone => dropped_interest ?_⟩
      · rw [entry, dropped_loop]
        exact hnone
      · rcases hk with ⟨_, rfl⟩ | ⟨old, _, rfl⟩
        · exact hnone
        · exact eventMod_interest hnone

end Io

/-- In every run, a hooked call that goes on leaves its descriptor out of the
    loop exactly if the thread of its object has no loop, or that loop's table
    has an entry for the descriptor already. -/
theorem leave_staysOut_iff {s₀ s s' : Sys} {as : List SysOp} {c : McoRef} {fr : HookFrame}
    {ok : Bool} (h₀ : SysInit s₀) (h : Runs Sys.step Sys.Supplied s₀ as s)
    (hfr : s.frame c = some fr) (hs : s.leave c ok = .ok s') :
    ∃ x, s.io.ev fr.event = some x ∧ x.obj.fd = fr.fd ∧
      (s.io.StaysOut s'.io x.obj.tid fr.fd ↔
        (s.io.loop x.obj.tid = none ∨ (s.io.entry x.obj.tid fr.fd).isSome)) := by
  have ht := Sys.tidy_run h₀ (fun _ _ ha => ha) h
  rcases ht.made hfr with ⟨x, hx, hpos, _⟩
  have hfd := ht.framed c fr x hfr hx
  rcases Sys.leave_cases hs with ⟨fr', io, hfr', hl, rfl⟩
  rw [hfr] at hfr'
  injection hfr' with hfr'
  rw [← hfr'] at hl
  refine ⟨x, hx, hfd, ?_⟩
  rw [← hfd]
  exact Io.hookLeave_staysOut_iff hx hpos hl

/-! ### Both together -/

open Watch

/-- A removal is final exactly as long as no mask operation is applied to the
    object afterwards or the table has its descriptor. For a hooked call, which
    always applies one, it is the table and the loop alone that decide. -/
theorem removal_final_iff {s₁ s₂ s₃ s₄ : Watch} {e : EvRef} {o : Events} {ok ok' : Bool}
    {x y : Answer} {bs : List WatchOp} (ho : s₁.obj e = some o) (hdel : o.state = .DEL)
    (h₁ : s₁.step .debug (.update e ok) = .ok (s₂, x))
    (h₂ : Runs (mute (Watch.step .debug)) (fun _ a => a.Spares e) s₂ bs s₃)
    (h₃ : s₃.step .debug (.update e ok') = .ok (s₄, y)) :
    (s₃.StaysOut s₄ o.fd ↔
      ((∀ b, b ∈ bs → b.masks e = false) ∨ (s₃.events o.fd).isSome)) ∧
    ∀ (t₀ t t' : Sys) (as : List SysOp) (c : McoRef) (fr : HookFrame) (ok : Bool), SysInit t₀ →
      Runs Sys.step Sys.Supplied t₀ as t → t.frame c = some fr → t.leave c ok = .ok t' →
      ∃ z, t.io.ev fr.event = some z ∧ z.obj.fd = fr.fd ∧
        (t.io.StaysOut t'.io z.obj.tid fr.fd ↔
          (t.io.loop z.obj.tid = none ∨ (t.io.entry z.obj.tid fr.fd).isSome)) := by
  refine ⟨?_, fun t₀ t t' as c fr ok ht₀ ht hfr hs => leave_staysOut_iff ht₀ ht hfr hs⟩
  rcases step_update h₁ with ⟨r1, _, hu1⟩
  have ho2 : s₂.obj e = some o := by
    rw [updateEvents_obj hu1]
    exact ho
  rcases run_state h₂ o ho2 with ⟨o3, ho3, hfd3, hst3⟩
  rw [hdel] at hst3
  rcases step_update h₃ with ⟨r3, _, hu3⟩
  rcases updateEvents_debug hu3 with ⟨o4, ho4, hup⟩
  rw [ho3] at ho4
  injection ho4 with ho4
  rw [← ho4] at hup
  have hmask : bs.any (WatchOp.masks e) = false ↔ ∀ b, b ∈ bs → b.masks e = false := by
    simp only [List.any_eq_false, Bool.not_eq_true]
  have hstate : o3.state = .DEL ∨ o3.state = .MOD := by
    rw [hst3]
    cases bs.any (WatchOp.masks e) with
    | false => exact .inl rfl
    | true => exact .inr rfl
  have hdel3 : o3.state = .DEL ↔ bs.any (WatchOp.masks e) = false := by
    rw [hst3]
    cases bs.any (WatchOp.masks e) with
    | false => exact ⟨fun _ => rfl, fun _ => rfl⟩
    | true => exact ⟨fun hc => (by cases hc), fun hc => (by cases hc)⟩
  rw [← hfd3, hup.staysOut_iff hstate, hdel3, hmask]

-- A step in which a hooked call goes on, as the call itself.
theorem leave_after {s : Sys} {t : Tid} {c : McoRef} {ok : Bool} (hx : s.w.exec t = some c)
    (h : (s.step (.wake t ok)).isOk = true) :
    s.leave c ok = .ok (after Sys.step s [.wake t ok]) := by
  have hstep := step_next h
  rw [Sys.step, hx] at hstep
  exact hstep

/-- Object 1 is removed and a second object takes its descriptor; nothing
    touches object 1, and it stays out. A hooked read of descriptor 5 goes on
    after 5 has been closed, and it does not stay out. -/
theorem removal_final_iff_spared :
    let s₁ := after (mute (Watch.step .debug)) .fresh
      [.make 1 5 kReadEvent 1, .update 1 true, .call 1 (.setState .DEL)]
    let s₂ := after (mute (Watch.step .debug)) s₁ [.update 1 true]
    let bs : List WatchOp := [.make 2 5 kReadEvent 1, .update 2 true]
    let s₃ := after (mute (Watch.step .debug)) s₂ bs
    let s₄ := after (mute (Watch.step .debug)) s₃ [.update 1 true]
    let e : CallSite := { sp := 0x10fe0, main := 1, mainBlk := 0x7000, blk := 0 }
    let as : List SysOp := [.newLoop 0 3, .openFd 5 false, .spawn 10, .spawn 11, .resume 0 10 e,
      .read 0 5 0x10fe0 true true, .resume 0 11 e, .close 0 5 true, .finish 0 0x10fe0,
      .resume 0 10 e]
    let t := after Sys.step .blank as
    let t' := after Sys.step t [.wake 0 true]
    (s₃.StaysOut s₄ 5 ↔ ((∀ b, b ∈ bs → b.masks 1 = false) ∨ (s₃.events 5).isSome)) ∧
      t.frame 10 = some ⟨5, 1, 1⟩ ∧
      ∃ z, t.io.ev 1 = some z ∧ z.obj.fd = 5 ∧
        (t.io.StaysOut t'.io z.obj.tid 5 ↔
          (t.io.loop z.obj.tid = none ∨ (t.io.entry z.obj.tid 5).isSome)) := by
  intro s₁ s₂ bs s₃ s₄ e as t t'
  have hbs : Checks (mute (Watch.step .debug)) (fun _ a => a.Spares 1) s₂ bs := by decide
  have h1 : s₁.step .debug (.update 1 true) = .ok (s₂, .bool true) := rfl
  have h3 : s₃.step .debug (.update 1 true) = .ok (s₄, .bool true) := rfl
  have hrun : Runs Sys.step Sys.Supplied .blank as t := Checks.runs (by decide +kernel)
  have hfr : t.frame 10 = some ⟨5, 1, 1⟩ := by decide +kernel
  have hexec : t.w.exec 0 = some 10 := by decide +kernel
  have hwake : (t.step (.wake 0 true)).isOk = true := by decide +kernel
  have hgo : t.leave 10 true = .ok t' := leave_after hexec hwake
  clear_value as t t'
  obtain ⟨hwatch, hhook⟩ := removal_final_iff (o := (Events.make 5 kReadEvent 1).setState .DEL)
    rfl rfl h1 hbs.runs h3
  exact ⟨hwatch, hfr, hhook _ t t' as 10 _ true sysBlank_init hrun hfr hgo⟩

/-- Coroutine 10 is suspended in a hooked read of descriptor 5; 11 closes 5,
    and ends; the thread's own code resumes 10. The descriptor is neither in
    the table nor in the epoll set before 10 goes on, and in both after. -/
theorem read_after_close :
    let e : CallSite := { sp := 0x10fe0, main := 1, mainBlk := 0x7000, blk := 0 }
    let as : List SysOp := [.newLoop 0 3, .openFd 5 false, .spawn 10, .spawn 11, .resume 0 10 e,
      .read 0 5 0x10fe0 true true, .resume 0 11 e, .close 0 5 true, .finish 0 0x10fe0,
      .resume 0 10 e]
    let s := after Sys.step .blank as
    let s' := after Sys.step s [.wake 0 true]
    Checks Sys.step Sys.Supplied .blank (as ++ [.wake 0 true]) ∧
      s.io.entry 0 5 = none ∧ s.io.kern.interest 0 5 = none ∧
      (s'.io.entry 0 5).isSome ∧ (s'.io.kern.interest 0 5).isSome := by
  refine ⟨by decide, rfl, rfl, rfl, rfl⟩

end Fasco
