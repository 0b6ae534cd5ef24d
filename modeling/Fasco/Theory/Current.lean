import Fasco.Theory.DeepResume
import Fasco.Theory.Descriptors
import Fasco.Theory.OneLoop

/-!
# The Current Coroutine

`McoPool` keeps the coroutine that was resumed last, and `Mcosops::Yield` and
the hooks take it for the one that executes. `Mcosops::Resume` sets it and
nobody sets it back: when a coroutine that another one resumed yields, the
other goes on with the wrong coroutine as the current one, and its own next
`Mcosops::Yield` does nothing, as does the yield in its next hooked read. And
`close` clears it when the descriptor is one that the coroutine has read from,
also when there are others that it goes on to read from.

`current_on_top` says that the two agree in every state of a run in which a
coroutine gives up control only to the thread's own code, resumes neither a
finished coroutine nor one below its own resumer, and closes no descriptor that
it has read from. Then the assertion in the hooks does not fail, and a yield
suspends. One thing more is needed for the assertion: no descriptor goes away
while the pool still has a coroutine for it. A hooked call that ends can do
that, by letting go of the last pointer to its object.

## Main definitions

* `Sys.CurrentOnTop`: The current coroutine is the one on top.
* `Sys.Yields`: The operation calls `Mcosops::Yield`.
* `Sys.ReadByOne`: An opening is read by one coroutine.
* `Sys.KeepsCurrent`: The conditions.
* `Io.Filed`: The coroutines the pool has for the descriptors.

## Theorems

* `hookEnter_asserts`: What it takes for the assertion to fail.
* `Filed.hookEnter`, `Filed.hookLeave`, `Filed.close`: The parts of the hooks.
* `Carried.yield_suspends`: The topmost coroutine yields.
* `instep_step`: The invariant.
* `current_on_top`: The states and the operations of a run.
* `yield_without_effect`: A coroutine that is not the current one.
-/

namespace Fasco

open Fallible World

namespace Io

variable {s s' : Io} {loc : McoRef → Option EvRef} {t : Tid} {fd : Fd} {e : EvRef} {ok : Bool}

/-! ### Where the assertion is -/

theorem share_asserts (s : Io) (e : EvRef) : s.share e ≠ .error .notCurMco := by
  unfold share
  cases s.ev e with
  | none => exact fun h => by cases h
  | some c => exact fun h => by cases h

theorem modifyEvents_asserts (s : Io) (e : EvRef) (g : Events → Events) :
    s.modifyEvents e g ≠ .error .notCurMco := by
  unfold modifyEvents
  cases s.ev e with
  | none => exact fun h => by cases h
  | some c => exact fun h => by cases h

theorem release_asserts (s : Io) (e : EvRef) : s.release e ≠ .error .notCurMco := by
  unfold release
  cases s.ev e with
  | none => exact fun h => by cases h
  | some c =>
      by_cases h : c.useCount ≤ 1
      · simp only [if_pos h]
        exact fun h => by cases h
      · simp only [if_neg h]
        exact fun h => by cases h

theorem getEvents_asserts (s : Io) (t : Tid) (fd : Fd) : s.getEvents t fd ≠ .error .notCurMco := by
  unfold getEvents
  cases s.loop t with
  | none => exact fun h => by cases h
  | some l =>
      cases h : l.events fd with
      | none =>
          simp only [h]
          exact fun h => by cases h
      | some e =>
          simp only [h]
          exact bind_ne_error (share_asserts s e) (fun _ _ h => by cases h)

theorem eventsFor_asserts (s : Io) (t : Tid) (fd : Fd) : s.eventsFor t fd ≠ .error .notCurMco := by
  refine bind_ne_error (getEvents_asserts s t fd) ?_
  rintro ⟨s1, found⟩ _
  cases found with
  | none => exact fun h => by cases h
  | some e => exact fun h => by cases h

theorem tableAdd_asserts (s : Io) (t : Tid) (l : EventLoop) (e : EvRef) (obj : Events) (ok : Bool) :
    s.tableAdd t l e obj ok ≠ .error .notCurMco :=
  bind_ne_error (share_asserts s e) (fun _ _ h => by cases h)

/-- None of the assertions on a table is the one in question. -/
theorem pollUpdate_asserts (s : Io) (t : Tid) (l : EventLoop) (e : EvRef) (ok : Bool) :
    s.pollUpdate t l e ok ≠ .error .notCurMco := by
  unfold pollUpdate
  cases s.ev e with
  | none => exact fun h => by cases h
  | some c =>
      simp only
      split
      · exact fun h => by cases h
      · split
        · cases l.events c.obj.fd with
          | none => exact tableAdd_asserts s t l e c.obj ok
          | some _ => exact fun h => by cases h
        · split
          · cases l.events c.obj.fd with
            | none => exact tableAdd_asserts s t l e c.obj ok
            | some _ => exact fun h => by cases h
          · split
            · cases l.events c.obj.fd with
              | none => exact fun h => by cases h
              | some old => exact release_asserts _ old
            · exact fun h => by cases h

theorem updateLoopEvents_asserts (s : Io) (e : EvRef) (ok : Bool) :
    s.updateLoopEvents e ok ≠ .error .notCurMco := by
  unfold updateLoopEvents
  cases s.ev e with
  | none => exact fun h => by cases h
  | some c =>
      cases h : s.loop c.obj.tid with
      | none =>
          simp only [h]
          exact fun h => by cases h
      | some l =>
          simp only [h]
          exact pollUpdate_asserts s c.obj.tid l e ok

theorem removeEventFromLoop_asserts (s : Io) (e : EvRef) (ok : Bool) :
    s.removeEventFromLoop e ok ≠ .error .notCurMco := by
  unfold removeEventFromLoop
  cases s.ev e with
  | none => exact fun h => by cases h
  | some c =>
      cases h : s.loop c.obj.tid with
      | none =>
          simp only [h]
          exact fun h => by cases h
      | some l =>
          simp only [h]
          exact bind_ne_error (modifyEvents_asserts s e _)
            (fun _ _ => pollUpdate_asserts _ c.obj.tid l e ok)

theorem hookLeave_asserts (s : Io) (e : EvRef) (ok : Bool) :
    s.hookLeave e ok ≠ .error .notCurMco :=
  bind_ne_error (modifyEvents_asserts s e _) (fun _ _ =>
    bind_ne_error (updateLoopEvents_asserts _ e ok) (fun _ _ => release_asserts _ e))

theorem close_asserts (s : Io) (t : Tid) (fd : Fd) (ok : Bool) :
    s.close t fd ok ≠ .error .notCurMco := by
  unfold close
  simp only
  split
  · exact fun h => by cases h
  · refine bind_ne_error (getEvents_asserts _ t fd) ?_
    rintro ⟨s1, event⟩ _
    cases event with
    | none => exact fun h => by cases h
    | some e =>
        exact bind_ne_error (removeEventFromLoop_asserts s1 e ok) (fun _ _ => release_asserts _ e)

theorem newLoop_asserts (s : Io) (t : Tid) (fd : Fd) : s.newLoop t fd ≠ .error .notCurMco := by
  unfold newLoop
  exact pollUpdate_asserts _ _ _ _ _

theorem loopEntry_asserts (s : Io) (t : Tid) (p : PollerEvent) :
    s.loopEntry t p ≠ .error .notCurMco := by
  unfold loopEntry
  cases s.loop t with
  | none => exact fun h => by cases h
  | some l =>
      cases h : l.events p.fd with
      | none =>
          simp only [h]
          exact fun h => by cases h
      | some e =>
          simp only [h]
          cases s.ev e with
          | none => exact fun h => by cases h
          | some c =>
              simp only
              split
              · exact fun h => by cases h
              · split
                · exact fun h => by cases h
                · exact fun h => by cases h

/-- The assertion fails when the pool has a coroutine for the descriptor that
    is not the current one. -/
theorem hookEnter_asserts (h : s.hookEnter t fd ok = .error .notCurMco) :
    s.hookable = true ∧ ∃ mco, s.getMcoRoutine t fd = some mco ∧ s.getCurMco t ≠ some mco := by
  unfold hookEnter at h
  by_cases hd : (s.kern.nonblocking fd || !s.hookable) = true
  · rw [if_pos hd] at h
    cases h
  · rw [if_neg hd] at h
    simp only [Bool.not_eq_true, Bool.or_eq_false_iff, Bool.not_eq_false'] at hd
    refine ⟨hd.2, ?_⟩
    cases hm : s.getMcoRoutine t fd with
    | some mco =>
        refine ⟨mco, rfl, fun hcur => ?_⟩
        rw [hm] at h
        simp only [] at h
        rw [if_neg (fun hc => hc hcur)] at h
        refine bind_ne_error (eventsFor_asserts s t fd) ?_ h
        rintro ⟨s1, e⟩ _
        exact bind_ne_error (modifyEvents_asserts s1 e _) (fun s2 _ =>
          bind_ne_error (updateLoopEvents_asserts s2 e ok) (fun _ _ h => by cases h))
    | none =>
        exfalso
        rw [hm] at h
        simp only [] at h
        cases hc : s.getCurMco t with
        | none =>
            rw [hc] at h
            cases h
        | some mco =>
            rw [hc] at h
            simp only [] at h
            refine bind_ne_error (updateLoopEvents_asserts _ _ ok) ?_ h
            exact fun _ _ h => by cases h

end Io

/-! ### The coroutines the pool has for descriptors -/

/-- Which descriptors are open, and who has read from each last. -/
def Kernel.usage (k : Kernel) := (k.isOpen, k.user)

namespace Kernel

variable {k k' : Kernel}

/-- Which descriptors are open, and who uses them, does not depend on the
    interest. -/
theorem eventAdd_usage (k : Kernel) (t : Tid) (fd : Fd) (i : UInt32) (ok : Bool) :
    (k.eventAdd t fd i ok).1.usage = k.usage := by
  unfold eventAdd
  by_cases h : (ok && k.isOpen fd && (k.interest t fd).isNone) = true
  · rw [if_pos h]
    rfl
  · rw [if_neg h]

theorem eventMod_usage (k : Kernel) (t : Tid) (fd : Fd) (i : UInt32) (ok : Bool) :
    (k.eventMod t fd i ok).1.usage = k.usage := by
  unfold eventMod
  by_cases h : (ok && (k.interest t fd).isSome) = true
  · rw [if_pos h]
    rfl
  · rw [if_neg h]

theorem usage_eq (h : k'.usage = k.usage) : k'.isOpen = k.isOpen ∧ k'.user = k.user := by
  simpa only [usage, Prod.mk.injEq] using h

end Kernel

namespace Io

variable {s s' : Io} {loc : McoRef → Option EvRef} {t : Tid} {fd : Fd} {e : EvRef} {ok : Bool}

/-- If the hooks are on, the coroutine the pool has for a descriptor is the one
    that reads from it, and the descriptor is open. -/
def Filed (s : Io) (t : Tid) : Prop :=
  s.hookable = true → ∀ fd c, s.getMcoRoutine t fd = some c →
    s.kern.user fd = some c ∧ s.kern.isOpen fd = true

/-- A hooked call that ends lets go of the last pointer to its object: there is
    no other, and the object does not go back into a table. -/
def Last (s : Io) (e : EvRef) : Prop :=
  ∃ x, s.ev e = some x ∧ x.useCount ≤ 1 ∧
    (s.loop x.obj.tid = none ∨ (s.entry x.obj.tid x.obj.fd).isSome)

namespace Filed

-- Neither the pool nor the use of the descriptors changes.
theorem congr (hf : s.Filed t) (hh : s'.hookable = s.hookable)
    (hp : ∀ g, s'.getMcoRoutine t g = s.getMcoRoutine t g) (hk : s'.kern.usage = s.kern.usage) :
    s'.Filed t := by
  intro hon g c hc
  rw [hp g] at hc
  rcases Kernel.usage_eq hk with ⟨ho, hu⟩
  rw [ho, hu]
  exact hf (by rw [← hh, hon]) g c hc

-- The descriptor that an operation concerns has no coroutine, before or after.
theorem except (hf : s.Filed t) (hh : s'.hookable = s.hookable)
    (hv : ∀ g, g ≠ fd → s'.view t g = s.view t g)
    (hnone : s.hookable = true → s'.getMcoRoutine t fd = none) : s'.Filed t := by
  intro hon g c hc
  rw [hh] at hon
  by_cases hg : g = fd
  · rw [hg, hnone hon] at hc
    cases hc
  · have hgv := hv g hg
    have hc' : s.getMcoRoutine t g = some c := by
      rw [← hc]
      exact (congrArg FdView.coroutine hgv).symm
    rcases hf hon g c hc' with ⟨hu, ho⟩
    have hk : s'.kern.view t g = s.kern.view t g := congrArg FdView.kern hgv
    exact ⟨(congrArg KernView.user hk).trans hu, (congrArg KernView.isOpen hk).trans ho⟩

/-- A number that is not open has no coroutine, and may be given out. -/
theorem openFd (hf : s.Filed t) (hshut : s.kern.isOpen fd = false) (nonblock : Bool) :
    ({ s with kern := s.kern.openFd fd nonblock } : Io).Filed t := by
  refine @except s _ t fd hf rfl (fun g hg => ?_) (fun hon => ?_)
  · exact view_congr rfl rfl (fun _ _ => rfl) (Kernel.openFd_view hg nonblock)
  · cases hm : s.getMcoRoutine t fd with
    | none => exact hm
    | some c =>
        have hopen := (hf hon fd c hm).2
        rw [hshut] at hopen
        cases hopen

/-- A coroutine reads from a descriptor that no other has read from. -/
theorem use {c : McoRef} (hf : s.Filed t) (hone : ∀ u, s.kern.user fd = some u → u = c) :
    ({ s with kern := s.kern.use fd c } : Io).Filed t := by
  intro hon g d hd
  rcases hf hon g d hd with ⟨hu, ho⟩
  refine ⟨?_, ho⟩
  by_cases hg : g = fd
  · rw [hg] at hu ⊢
    rw [hone d hu]
    exact Function.update_self _ _ _
  · rw [← hu]
    exact Function.update_of_ne hg _ _

/-- A hooked call of the coroutine that reads from the descriptor. -/
theorem hookEnter {r : Option EvRef} (hf : s.Filed t) (ht : s.Tidy loc)
    (huser : ∀ m, s.getCurMco t = some m → s.kern.user fd = some m)
    (h : s.hookEnter t fd ok = .ok (s', r)) :
    s'.Filed t ∧ s'.getCurMco t = s.getCurMco t := by
  rcases hookEnter_cases ht h with ⟨_, rfl, _⟩ | ⟨hblock, hh, mco, e, _, hcur, hcase⟩
  · exact ⟨hf, rfl⟩
  · have hopen : s.kern.isOpen fd = true := by
      rw [Kernel.nonblocking, Bool.or_eq_false_iff, Bool.not_eq_false'] at hblock
      exact hblock.1
    have hmap : (s.setMcoRoutine t fd mco).Filed t := by
      intro _ g d hd
      by_cases hg : g = fd
      · rw [hg, setMcoRoutine_self] at hd
        injection hd with hd
        rw [hg, ← hd]
        exact ⟨huser mco hcur, hopen⟩
      · rw [setMcoRoutine_ne hg] at hd
        exact hf hh g d hd
    have hcur' : (s.setMcoRoutine t fd mco).getCurMco t = s.getCurMco t := setMcoRoutine_cur mco
    rcases hcase with ⟨_, hfound | ⟨_, had | hst⟩⟩ | ⟨_, _, had | hst⟩
    · rcases hfound.eq with ⟨x, _, _, _, rfl⟩
      exact ⟨hf.congr rfl (fun _ => rfl) (Kernel.eventMod_usage _ _ _ _ _), rfl⟩
    · rcases had.eq with ⟨l, _, rfl⟩
      exact ⟨hf.congr rfl (fun _ => rfl) (Kernel.eventAdd_usage _ _ _ _ _), rfl⟩
    · rw [hst.eq]
      exact ⟨hf.congr rfl (fun _ => rfl) rfl, rfl⟩
    · rcases had.eq with ⟨l, _, rfl⟩
      exact ⟨hmap.congr rfl (fun _ => rfl) (Kernel.eventAdd_usage _ _ _ _ _), hcur'⟩
    · rw [hst.eq]
      exact ⟨hmap.congr rfl (fun _ => rfl) rfl, hcur'⟩

/-- The end of a hooked call that does not take the descriptor away from the
    coroutine the pool has for it. -/
theorem hookLeave {x : EventsCell} (hf : s.Filed t) (hx : s.ev e = some x) (hpos : 1 ≤ x.useCount)
    (hlast : s.Last e → s.getMcoRoutine t x.obj.fd = none) (h : s.hookLeave e ok = .ok s') :
    s'.Filed t := by
  rcases hookLeave_cases hx hpos h with ⟨l, _, _, rfl⟩ | ⟨k, rfl, hkern⟩
  · exact hf.congr rfl (fun _ => rfl) (Kernel.eventAdd_usage _ _ _ _ _)
  · have hk : k.usage = s.kern.usage := by
      rcases hkern with ⟨_, rfl⟩ | ⟨_, _, rfl⟩
      · rfl
      · exact Kernel.eventMod_usage _ _ _ _ _
    have hk' : ({ s with kern := k } : Io).Filed t := hf.congr rfl (fun _ => rfl) hk
    unfold Io.dropped
    by_cases hn : x.useCount ≤ 1
    · rw [if_pos hn]
      -- The descriptor is closed with the object.
      have hnone : s.getMcoRoutine t x.obj.fd = none := by
        refine hlast ⟨x, hx, hn, ?_⟩
        rcases hkern with ⟨hl, _⟩ | ⟨old, ho, _⟩
        · exact Or.inl hl
        · exact Or.inr (by rw [ho]; rfl)
      intro hon g c hc
      have hg : g ≠ x.obj.fd := by
        rintro rfl
        exact absurd (hnone.symm.trans hc) (fun h => by cases h)
      rcases hk' hon g c hc with ⟨hu, ho⟩
      refine ⟨hu, ?_⟩
      rw [← ho]
      exact Function.update_of_ne hg _ _
    · rw [if_neg hn]
      exact hk'.congr rfl (fun _ => rfl) rfl

/-- Closing a descriptor removes its coroutine. -/
theorem close (hf : s.Filed t) (ht : s.Tidy loc) (h : s.close t fd ok = .ok s') : s'.Filed t := by
  cases hh : s.hookable with
  | true =>
      have hc := Io.closed ht hh h
      exact hf.except hc.hookable hc.other (fun _ => hc.coroutine)
  | false =>
      rcases close_cases ht h with ⟨_, rfl⟩ | ⟨hh', _⟩ | ⟨hh', _⟩
      · intro hon
        have hon' : s.hookable = true := hon
        rw [hh] at hon'
        cases hon'
      · rw [hh] at hh'
        cases hh'
      · rw [hh] at hh'
        cases hh'

/-- A new loop watches a descriptor that was not open. -/
theorem newLoop (hf : s.Filed t) {u : Tid} (hshut : s.kern.isOpen fd = false)
    (h : s.newLoop u fd = .ok s') : s'.Filed t := by
  rcases newLoop_cases h with ⟨l, _, _, _, rfl⟩
  exact (hf.openFd hshut true).congr rfl (fun _ => rfl) (Kernel.eventAdd_usage _ _ _ _ _)

end Filed

end Io

/-! ### The coroutine on top -/

namespace Carried

variable {w w' : World} {f : Frames} {t : Tid} {c : McoRef} {sp : Nat}

/-- The coroutine that executes is on top, and is in the call stack. -/
theorem executing (hc : Carried w f t) (hi : 1 < (w.callstack t).index) :
    ∃ c s l, f t = c :: s :: l ∧ w.exec t = some c ∧ w.top t = some c := by
  have hlen := (hc.orderly.steady.holds t).length
  cases hf : f t with
  | nil =>
      rw [hf, List.length_nil] at hlen
      omega
  | cons c l =>
      cases l with
      | nil =>
          rw [hf, List.length_singleton] at hlen
          omega
      | cons s l =>
          refine ⟨c, s, l, rfl, ?_, hc.top_eq hf⟩
          rw [hc.orderly.steady.exec t, hf, List.head?_cons]

/-- A yield leaves the call stack or pops it. -/
theorem yielded {co : Option McoRef} (hc : Carried w f t) (h : w.mcoYield t co sp = .ok w') :
    (∃ f', Carried w' f' t) ∧ (w' = w ∨ w'.callstack t = (w.callstack t).pop) := by
  rcases hc.orderly.yield h with ⟨rfl, _⟩ | ⟨c, s, l, rfl, hf, hp, ho⟩
  · exact ⟨⟨f, hc⟩, Or.inl rfl⟩
  · refine ⟨⟨_, (hc.yield_pop hf h hp ho).1⟩, Or.inr ?_⟩
    rw [hp.callstack, Function.update_self]

theorem finished (hc : Carried w f t) (h : w.coroutineRun t sp = .ok w') :
    (∃ f', Carried w' f' t) ∧ w'.callstack t = (w.callstack t).pop := by
  rcases hc.orderly.finish h with ⟨c, s, l, hf, hp, ho⟩
  refine ⟨⟨_, (hc.finish_pop hf h hp ho).1⟩, ?_⟩
  rw [hp.callstack, Function.update_self]

/-- A coroutine that is resumed executes, unless it was running already or has
    finished. -/
theorem resumed {e : CallSite} (hc : Carried w f t) (hcode : w.InCode t) (hsite : w.OnStack t e.sp)
    (hfresh : w.FreshMain t e)
    (hnear : ∀ i, i + 2 < (w.callstack t).index → (w.callstack t).slot i ≠ some c)
    (h : w.mcoResume t (some c) e = .ok w') :
    (∃ f', Carried w' f' t) ∧
      ((w' = w ∧ ∃ r, w.co c = some r ∧ (r.running = true ∨ r.finished = true)) ∨
        w'.exec t = some c) := by
  have hlive : w.Live (some c) := by
    intro d hd
    injection hd with hd
    cases hco : w.co c with
    | none =>
        simp only [mcoResume, hco] at h
        cases h
    | some r =>
        rw [← hd, hco]
        rfl
  have hflat : Flat w (.resume t (some c) e) :=
    flat_of_disciplined hc.orderly hc.alone rfl (by exact hnear)
  rcases carried_step hc (a := .resume t (some c) e) rfl ⟨hcode, hlive, hsite, hfresh⟩ hflat h with
    ⟨f', hc', _⟩
  refine ⟨⟨f', hc'⟩, ?_⟩
  rcases hc.orderly.resume hcode hfresh hflat h with ⟨hw, hq⟩ |
    ⟨d, r, cur, l, hd, _, _, _, _, hcase⟩
  · exact Or.inl ⟨hw, hq c rfl⟩
  · right
    injection hd with hd
    rcases hcase with ⟨_, _, _, _, hp, _⟩ | ⟨_, _, hp, _⟩
    · rw [hp.exec, Function.update_self, hd]
    · rw [hp.exec, Function.update_self, hd]

-- A running coroutine is the one that executes.
theorem executing_of_running {r : McoRoutine} (hc : Carried w f t) (hr : w.co c = some r)
    (hrun : r.running = true) : w.exec t = some c := by
  rw [hc.orderly.steady.exec t, hc.head_of_running (ctl_of_co hr) hrun]

/-- The coroutine on top gives up control when it yields. -/
theorem yield_suspends (sp : Nat) (hc : Carried w f t) (hi : 1 < (w.callstack t).index)
    (hx : w.exec t = some c) : ∃ w', w.mcoYield t (some c) sp = .ok w' ∧ w'.exec t ≠ some c := by
  rcases hc.executing hi with ⟨d, s, l, hf, hd, _⟩
  rw [hx] at hd
  injection hd with hd
  rw [← hd] at hf
  rcases hc.yield_returns sp hf with ⟨w', hw'⟩
  refine ⟨w', hw', ?_⟩
  rcases hc.orderly.yield hw' with ⟨_, hq⟩ | ⟨c', s', l', hco, _, hp, _⟩
  · -- The coroutine on top is running.
    have hruns := hc.orderly.steady.head_runs (t := t) (c := c) (by rw [hf]; rfl)
    rw [hq c rfl] at hruns
    cases hruns
  · injection hco with hco
    rw [hp.exec, Function.update_self, hco]
    intro hs
    injection hs with hs
    exact hp.ne hs.symm

end Carried

namespace Sys

/-- While a coroutine executes, it is the one on top of the call stack and the
    pool's current one. -/
def CurrentOnTop (t : Tid) (s : Sys) : Prop :=
  1 < (s.w.callstack t).index →
    ∃ c, s.w.exec t = some c ∧ s.w.top t = some c ∧ s.io.getCurMco t = some c

/-- The operation calls `Mcosops::Yield`: by itself, or in a hooked call that
    gets as far as that. -/
def Yields (s : Sys) : SysOp → Prop
  | .yield _ _ => True
  | .read t fd _ ok _ => ∃ c io e, s.w.exec t = some c ∧
      (s.reading fd c).hookEnter t fd ok = .ok (io, some e)
  | .accept t fd _ ok _ => ∃ c io e, s.w.exec t = some c ∧
      (s.reading fd c).hookEnter t fd ok = .ok (io, some e)
  | _ => False

/-- Whatever is not the kernel's is on thread `t`, and the coroutine that reads
    from an opening is the one that has done so before. -/
def ReadByOne (t : Tid) (s : Sys) (a : SysOp) : Prop :=
  (∀ u, a.thread = some u → u = t) ∧
    ∀ p, a.reads = some p → ∀ c, s.w.exec t = some c →
      ∀ u, s.io.kern.user p.1 = some u → u = c

/-- A coroutine gives up control only to the thread's own code. It resumes
    neither a finished coroutine nor one below its own resumer, and does not
    close a descriptor the pool has it for. A hooked call that ends does not let
    go of the last pointer to its object while the pool has a coroutine for the
    descriptor. -/
def KeepsCurrent (s : Sys) : SysOp → Prop
  | .resume t c _ => s.InMain t ∨ ((∀ r, s.w.co c = some r → r.finished = false) ∧
      ∀ i, i < (s.w.callstack t).index - 2 → (s.w.callstack t).slot i ≠ some c)
  | .yield t _ => (s.w.callstack t).index ≤ 2
  | .finish t _ => (s.w.callstack t).index ≤ 2
  | .read t fd _ _ _ => s.io.Straight t fd ∨ (s.w.callstack t).index ≤ 2
  | .accept t fd _ _ _ => s.io.Straight t fd ∨ (s.w.callstack t).index ≤ 2
  | .wake t _ => ∀ c, s.w.exec t = some c → ∀ fr, s.frame c = some fr → s.io.Last fr.event →
      s.io.getMcoRoutine t fr.fd = none
  | .close t fd _ => s.io.hookable = true → s.io.getMcoRoutine t fd ≠ s.io.getCurMco t
  | _ => True

instance (s : Io) (e : EvRef) : Decidable (s.Last e) :=
  decidable_of_iff (∃ x, s.ev e = some x ∧ x.useCount ≤ 1 ∧
      ((s.loop x.obj.tid).isNone = true ∨ (s.entry x.obj.tid x.obj.fd).isSome))
    (by simp only [Io.Last, Option.isNone_iff_eq_none])

instance (t : Tid) (s : Sys) (a : SysOp) : Decidable (s.ReadByOne t a) :=
  inferInstanceAs (Decidable ((∀ u, _ = some u → _) ∧
    ∀ p, _ = some p → ∀ c, _ = some c → ∀ u, _ = some u → _))

instance (s : Sys) : ∀ a, Decidable (s.KeepsCurrent a)
  | .resume _ _ _ => inferInstanceAs (Decidable (_ ∨ ((∀ r, _ = some r → _) ∧ ∀ i, i < _ → _)))
  | .yield _ _ => inferInstanceAs (Decidable (_ ≤ 2))
  | .finish _ _ => inferInstanceAs (Decidable (_ ≤ 2))
  | .read _ _ _ _ _ => inferInstanceAs (Decidable (_ ∨ _ ≤ 2))
  | .accept _ _ _ _ _ => inferInstanceAs (Decidable (_ ∨ _ ≤ 2))
  | .wake _ _ => inferInstanceAs (Decidable (∀ c, _ = some c → ∀ fr, _ = some fr → _ → _))
  | .close _ _ _ => inferInstanceAs (Decidable (_ → _ ≠ _))
  | .newLoop _ _ => isTrue trivial
  | .openFd _ _ => isTrue trivial
  | .spawn _ => isTrue trivial
  | .poll _ _ => isTrue trivial
  | .dispatch _ _ => isTrue trivial

variable {s s' : Sys} {t : Tid} {fd : Fd} {sp : Nat} {ok ok' : Bool}

/-- What holds along a run that meets the conditions. -/
structure InStep (t : Tid) (s : Sys) : Prop where
  tidy : s.Tidy
  carried : ∃ f, Carried s.w f t
  current : 1 < (s.w.callstack t).index → s.io.getCurMco t = s.w.exec t
  filed : s.io.Filed t

theorem instep_init (h : SysInit s) : s.InStep t := by
  refine ⟨tidy_init h, ⟨_, carried_init h.world t⟩, fun hi => ?_, fun _ fd c hc => ?_⟩
  · rw [h.world.callstack t] at hi
    cases hi
  · rw [Io.getMcoRoutine, h.pool t] at hc
    cases hc

theorem InStep.currentOnTop (hi : s.InStep t) : s.CurrentOnTop t := by
  intro hidx
  rcases hi.carried with ⟨f, hc⟩
  rcases hc.executing hidx with ⟨c, _, _, _, hx, htop⟩
  exact ⟨c, hx, htop, by rw [hi.current hidx, hx]⟩

/-- The coroutine that executes starts a hooked call. -/
theorem InStep.reading {c : McoRef} (hi : s.InStep t) (hidx : 1 < (s.w.callstack t).index)
    (hx : s.w.exec t = some c) (hone : ∀ u, s.io.kern.user fd = some u → u = c) :
    (s.reading fd c).Tidy s.locals ∧ (s.reading fd c).Filed t ∧
      ∀ m, (s.reading fd c).getCurMco t = some m → (s.reading fd c).kern.user fd = some m := by
  refine ⟨hi.tidy.io.congr rfl rfl rfl, hi.filed.use hone, fun m hm => ?_⟩
  have hcur : s.io.getCurMco t = some m := hm
  rw [hi.current hidx, hx] at hcur
  rw [← hcur]
  exact Function.update_self _ _ _

/-! ### Where the assertion is not -/

theorem liftMco_asserts {α : Type} (x : Except Fault α) : liftMco x ≠ .error .notCurMco := by
  cases x with
  | ok a => exact fun h => by cases h
  | error f => exact fun h => by cases h

theorem mcosopsResume_asserts (s : Sys) (t : Tid) (c : McoRef) (e : CallSite) :
    s.mcosopsResume t c e ≠ .error .notCurMco :=
  bind_ne_error (liftMco_asserts _) (fun _ _ h => by cases h)

theorem mcosopsYield_asserts (s : Sys) (t : Tid) (sp : Nat) :
    s.mcosopsYield t sp ≠ .error .notCurMco := by
  unfold mcosopsYield
  cases s.io.getCurMco t with
  | none => exact fun h => by cases h
  | some c => exact bind_ne_error (liftMco_asserts _) (fun _ _ h => by cases h)

theorem leave_asserts (s : Sys) (c : McoRef) (ok : Bool) : s.leave c ok ≠ .error .notCurMco := by
  unfold leave
  cases s.frame c with
  | none => exact fun h => by cases h
  | some fr => exact bind_ne_error (Io.hookLeave_asserts _ _ _) (fun _ _ h => by cases h)

/-- The loop does not make that assertion. -/
theorem dispatch_asserts (s : Sys) (t : Tid) (e : CallSite) :
    s.dispatch t e ≠ .error .notCurMco := by
  unfold dispatch
  cases s.batch t with
  | nil => exact fun h => by cases h
  | cons p rest =>
      refine bind_ne_error (Io.loopEntry_asserts _ _ _) ?_
      rintro ⟨io, mco⟩ _
      cases mco with
      | none => exact fun h => by cases h
      | some c => exact mcosopsResume_asserts _ t c e

/-- Only the hooked calls have the assertion. -/
theorem step_asserts {a : SysOp} (ha : a.reads = none) : s.step a ≠ .error .notCurMco := by
  cases a with
  | newLoop u fd => exact bind_ne_error (Io.newLoop_asserts _ u fd) (fun _ _ h => by cases h)
  | openFd fd nonblock => exact fun h => by cases h
  | spawn c => exact fun h => by cases h
  | resume u c e => exact mcosopsResume_asserts s u c e
  | yield u sp => exact mcosopsYield_asserts s u sp
  | finish u sp => exact bind_ne_error (liftMco_asserts _) (fun _ _ h => by cases h)
  | read _ _ _ _ _ => cases ha
  | accept _ _ _ _ _ => cases ha
  | wake u ok =>
      simp only [step]
      cases s.w.exec u with
      | none => exact fun h => by cases h
      | some c => exact leave_asserts s c ok
  | close u fd ok => exact bind_ne_error (Io.close_asserts _ u fd ok) (fun _ _ h => by cases h)
  | poll u events => exact fun h => by cases h
  | dispatch u e => exact dispatch_asserts s u e

/-- A hooked call that gets as far as its yield is suspended in it. -/
theorem InStep.hooked_suspends {c : McoRef} {io : Io} {e : EvRef} (hi : s.InStep t)
    (hidx : 1 < (s.w.callstack t).index) (hx : s.w.exec t = some c)
    (hone : ∀ u, s.io.kern.user fd = some u → u = c)
    (hio : (s.reading fd c).hookEnter t fd ok = .ok (io, some e)) :
    ∃ w, s.w.mcoYield t (io.getCurMco t) sp = .ok w ∧ w.exec t ≠ some c ∧
      s.hooked t fd sp ok ok' = .ok { s with
        w := w
        io := io
        frame := Function.update s.frame c
          (some { fd := fd, event := e, opening := s.io.kern.opening fd }) } := by
  rcases hi.reading hidx hx hone with ⟨hread, hfiled, huser⟩
  rcases hi.carried with ⟨f, hc⟩
  rcases hc.yield_suspends sp hidx hx with ⟨w, hw, hleft⟩
  have hcur : io.getCurMco t = some c := by
    rw [(hfiled.hookEnter hread huser hio).2]
    exact (hi.current hidx).trans hx
  refine ⟨w, by rw [hcur]; exact hw, hleft, ?_⟩
  have hio' : ({ s.io with kern := s.io.kern.use fd c } : Io).hookEnter t fd ok =
      .ok (io, some e) :=
    hio
  simp only [hooked, hx, hio', ok_bind, mcosopsYield, hcur, hw, liftMco, if_neg hleft]

/-- A hooked call keeps the pool in step. -/
theorem InStep.hooked (hi : s.InStep t) (hidx : 1 < (s.w.callstack t).index)
    (hone : ∀ c, s.w.exec t = some c → ∀ u, s.io.kern.user fd = some u → u = c)
    (hk : s.io.Straight t fd ∨ (s.w.callstack t).index ≤ 2)
    (h : s.hooked t fd sp ok ok' = .ok s') :
    (∃ f, Carried s'.w f t) ∧ (1 < (s'.w.callstack t).index → s'.io.getCurMco t = s'.w.exec t) ∧
      s'.io.Filed t := by
  rcases hi.carried with ⟨f, hc⟩
  rcases hooked_cases h with ⟨c, hx, ⟨io, hio, rfl⟩ | ⟨io, e, w, hio, _⟩⟩
  · rcases hi.reading hidx hx (hone c hx) with ⟨hread, hfiled, huser⟩
    rcases hfiled.hookEnter hread huser hio with ⟨hf, hcur⟩
    exact ⟨hi.carried, fun _ => hcur.trans (hi.current hidx), hf⟩
  · rcases hi.reading hidx hx (hone c hx) with ⟨hread, hfiled, huser⟩
    rcases @InStep.hooked_suspends s t fd sp ok ok' c io e hi hidx hx (hone c hx) hio with
      ⟨w', hw', hleft, heq⟩
    rw [heq] at h
    injection h with h
    rw [← h]
    rcases hc.yielded hw' with ⟨hc', hw⟩
    refine ⟨hc', fun hidx' => ?_, (hfiled.hookEnter hread huser hio).1⟩
    -- The thread's own code goes on.
    exfalso
    have hle : (s.w.callstack t).index ≤ 2 := by
      rcases hk with hst | hle
      · rcases Io.hookEnter_cases hread hio with ⟨hr, _⟩ | ⟨hblock, hh, mco, _, _, hcur, _⟩
        · cases hr
        · rcases hst with h1 | h1 | h1
          · exact absurd (hblock.symm.trans h1) (fun h => by cases h)
          · exact absurd (h1.symm.trans hh) (fun h => by cases h)
          · exact absurd (h1.2.symm.trans hcur) (fun h => by cases h)
      · exact hle
    rcases hw with rfl | hpop
    · exact hleft hx
    · have hidx'' : 1 < (w'.callstack t).index := hidx'
      rw [hpop] at hidx''
      have : (s.w.callstack t).pop.index = (s.w.callstack t).index - 1 := rfl
      omega

/-- A resume after which the coroutine resumed executes, unless nothing has
    happened. -/
theorem InStep.resumed {w : World} {c : McoRef} {e : CallSite} (hi : s.InStep t)
    (hcode : s.w.InCode t)
    (hsite : s.w.OnStack t e.sp) (hfresh : s.w.FreshMain t e)
    (hk : s.InMain t ∨ ((∀ r, s.w.co c = some r → r.finished = false) ∧
      ∀ i, i < (s.w.callstack t).index - 2 → (s.w.callstack t).slot i ≠ some c))
    (h : s.w.mcoResume t (some c) e = .ok w) :
    (∃ f, Carried w f t) ∧ (1 < (w.callstack t).index → w.exec t = some c) := by
  rcases hi.carried with ⟨f, hc⟩
  have hnear : ∀ i, i + 2 < (s.w.callstack t).index → (s.w.callstack t).slot i ≠ some c := by
    intro i hlt
    rcases hk with hmain | ⟨_, hnear⟩
    · have hle : (s.w.callstack t).index ≤ 1 := hmain
      omega
    · exact hnear i (by omega)
  rcases hc.resumed hcode hsite hfresh hnear h with ⟨hc', ⟨hw, r, hr, hq⟩ | hx⟩
  · refine ⟨hc', fun hidx => ?_⟩
    rw [hw] at hidx ⊢
    rcases hk with hmain | ⟨hlive, _⟩
    · have hle : (s.w.callstack t).index ≤ 1 := hmain
      omega
    · rcases hq with hrun | hfin
      · exact hc.executing_of_running hr hrun
      · rw [hlive r hr] at hfin
        cases hfin
  · exact ⟨hc', fun _ => hx⟩

/-- Every operation that meets the conditions keeps the invariant. -/
theorem instep_step {a : SysOp} (hi : s.InStep t) (hsup : s.Supplied a) (hone : s.ReadByOne t a)
    (hk : s.KeepsCurrent a) (h : s.step a = .ok s') : s'.InStep t := by
  have htidy := tidy_step hi.tidy hsup h
  -- The thread's call stack is left alone.
  have hsame : s'.w = s.w → s'.io.getCurMco t = s.io.getCurMco t → s'.io.Filed t → s'.InStep t := by
    intro hw hcur hf
    refine ⟨htidy, by rw [hw]; exact hi.carried, fun hidx => ?_, hf⟩
    rw [hw] at hidx ⊢
    rw [hcur]
    exact hi.current hidx
  -- The thread's own code goes on.
  have hback : (∃ f, Carried s'.w f t) → s'.w.callstack t = (s.w.callstack t).pop →
      (s.w.callstack t).index ≤ 2 → s'.io.Filed t → s'.InStep t := by
    intro hc hpop hle hf
    refine ⟨htidy, hc, fun hidx => ?_, hf⟩
    rw [hpop] at hidx
    have : (s.w.callstack t).pop.index = (s.w.callstack t).index - 1 := rfl
    omega
  cases a with
  | newLoop u fd =>
      rcases newLoop_ok h with ⟨io, hio, rfl⟩
      refine hsame rfl ?_ (hi.filed.newLoop hsup.2 hio)
      rcases Io.newLoop_cases hio with ⟨l, _, _, _, rfl⟩
      rfl
  | openFd fd nonblock =>
      injection h with h
      rw [← h] at hsame ⊢
      exact hsame rfl rfl (hi.filed.openFd hsup nonblock)
  | spawn c =>
      injection h with h
      rcases hi.carried with ⟨f, hc⟩
      rw [← h] at htidy ⊢
      exact ⟨htidy, ⟨f, (hc.created hsup).1⟩, hi.current, hi.filed⟩
  | resume u c e =>
      obtain rfl := hone.1 u rfl
      rcases mcosopsResume_ok h with ⟨w, hw, rfl⟩
      have hcur : (s.io.setCurMco u (some c)).getCurMco u = some c := by
        simp [Io.getCurMco, Io.setCurMco]
      rcases hi.resumed hsup.2.1 hsup.1.2.1 hsup.1.2.2 hk hw with ⟨hc, hx⟩
      refine ⟨htidy, hc, fun hidx => hcur.trans (hx hidx).symm, hi.filed.congr
        rfl (fun g => ?_) rfl⟩
      exact congrArg FdView.coroutine Io.setCurMco_view
  | yield u sp =>
      obtain rfl := hone.1 u rfl
      rcases hi.carried with ⟨f, hc⟩
      rcases mcosopsYield_ok h with ⟨w, rfl, hw⟩
      rcases hc.yielded hw with ⟨hc', rfl | hpop⟩
      · exact hsame rfl rfl hi.filed
      · exact hback hc' hpop hk hi.filed
  | finish u sp =>
      obtain rfl := hone.1 u rfl
      rcases hi.carried with ⟨f, hc⟩
      rcases finish_ok h with ⟨w, hw, rfl⟩
      rcases hc.finished hw with ⟨hc', hpop⟩
      exact hback hc' hpop hk hi.filed
  | read u fd sp ok ok' =>
      obtain rfl := hone.1 u rfl
      rcases hi.hooked hsup.1.1 (hone.2 (fd, ok) rfl) hk h with ⟨hc, hcur, hf⟩
      exact ⟨htidy, hc, hcur, hf⟩
  | accept u fd sp ok ok' =>
      obtain rfl := hone.1 u rfl
      rcases hi.hooked hsup.1.1 (hone.2 (fd, ok) rfl) hk h with ⟨hc, hcur, hf⟩
      exact ⟨htidy, hc, hcur, hf⟩
  | wake u ok =>
      obtain rfl := hone.1 u rfl
      rcases wake_ok h with ⟨c, hx, h⟩
      rcases leave_cases h with ⟨fr, io, hfr, hl, rfl⟩
      rcases hi.tidy.made hfr with ⟨x, hx', hpos, _⟩
      have hfd := hi.tidy.framed c fr x hfr hx'
      refine hsame rfl ?_ (hi.filed.hookLeave hx' hpos (fun hlast => ?_) hl)
      · exact congrArg McoPool.cur (congrFun (Io.hookLeave_pool hx' hpos hl) u)
      · rw [hfd]
        exact hk c hx fr hfr hlast
  | close u fd ok =>
      obtain rfl := hone.1 u rfl
      rcases close_ok h with ⟨io, hio, rfl⟩
      refine hsame rfl ?_ (hi.filed.close hi.tidy.io hio)
      cases hh : s.io.hookable with
      | true => exact (Io.closed hi.tidy.io hh hio).current.trans (if_neg (hk hh).symm)
      | false =>
          rcases Io.close_cases hi.tidy.io hio with ⟨_, rfl⟩ | ⟨hh', _⟩ | ⟨hh', _⟩
          · rfl
          · exact absurd (hh.symm.trans hh') (fun h => by cases h)
          · exact absurd (hh.symm.trans hh') (fun h => by cases h)
  | poll u events =>
      injection h with h
      rw [← h] at hsame ⊢
      exact hsame rfl rfl hi.filed
  | dispatch u e =>
      obtain rfl := hone.1 u rfl
      rcases dispatch_cases h with ⟨p, rest, io, r, _, hio, hcase⟩
      rcases Io.loopEntry_view hi.tidy.io hio with ⟨hv, hpool, _, hkern, hh⟩
      have hf : io.Filed u := by
        refine hi.filed.congr hh (fun g => ?_) (by rw [hkern])
        exact congrArg FdView.coroutine (hv g)
      rcases hcase with ⟨_, rfl⟩ | ⟨mco, w, _, hw, rfl⟩
      · exact hsame rfl (congrArg McoPool.cur (congrFun hpool u)) hf
      · have hcur : (io.setCurMco u (some mco)).getCurMco u = some mco := by
          simp [Io.getCurMco, Io.setCurMco]
        rcases hi.resumed hsup.2.2.1 hsup.2.2.2.1 hsup.2.2.2.2 (Or.inl hsup.1) hw with ⟨hc, hx⟩
        refine ⟨htidy, hc, fun hidx => hcur.trans (hx hidx).symm, hf.congr rfl (fun g => ?_) rfl⟩
        exact congrArg FdView.coroutine Io.setCurMco_view

/-- No operation of a run that meets the conditions fails the assertion of the
    hooks. -/
theorem InStep.asserts {a : SysOp} (hi : s.InStep t) (hsup : s.Supplied a)
    (hone : s.ReadByOne t a) : s.step a ≠ .error .notCurMco := by
  -- A hooked call of either kind.
  have hhooked : ∀ fd sp ok ok', a.reads = some (fd, ok) → 1 < (s.w.callstack t).index →
      s.hooked t fd sp ok ok' ≠ .error .notCurMco := by
    intro fd sp ok ok' hreads hidx
    unfold Sys.hooked
    cases hx : s.w.exec t with
    | none => exact fun h => by cases h
    | some c =>
        refine bind_ne_error (fun hbad => ?_) ?_
        · -- The coroutine the pool has for the descriptor would be another one.
          rcases hi.reading hidx hx (hone.2 (fd, ok) hreads c hx) with ⟨_, hfiled, _⟩
          rcases Io.hookEnter_asserts (s := s.reading fd c) hbad with ⟨hh, m, hm, hne⟩
          have huse : (s.reading fd c).kern.user fd = some c := Function.update_self _ _ _
          refine hne (((hi.current hidx).trans hx).trans ?_)
          rw [← (hfiled hh fd m hm).1, huse]
        · rintro ⟨io, event⟩ _
          cases event with
          | none => exact fun h => by cases h
          | some e =>
              refine bind_ne_error (mcosopsYield_asserts _ t sp) (fun s1 _ => ?_)
              split
              · exact leave_asserts _ _ _
              · exact fun h => by cases h
  cases a with
  | read u fd sp ok ok' =>
      obtain rfl := hone.1 u rfl
      exact hhooked fd sp ok ok' rfl hsup.1.1
  | accept u fd sp ok ok' =>
      obtain rfl := hone.1 u rfl
      exact hhooked fd sp ok ok' rfl hsup.1.1
  | newLoop _ _ => exact step_asserts rfl
  | openFd _ _ => exact step_asserts rfl
  | spawn _ => exact step_asserts rfl
  | resume _ _ _ => exact step_asserts rfl
  | yield _ _ => exact step_asserts rfl
  | finish _ _ => exact step_asserts rfl
  | wake _ _ => exact step_asserts rfl
  | close _ _ _ => exact step_asserts rfl
  | poll _ _ => exact step_asserts rfl
  | dispatch _ _ => exact step_asserts rfl

/-- Every yield of a run that meets the conditions suspends its caller. -/
theorem InStep.suspends {a : SysOp} (hi : s.InStep t) (hsup : s.Supplied a)
    (hone : s.ReadByOne t a) (hy : s.Yields a) :
    ∃ s', s.step a = .ok s' ∧ s'.w.exec t ≠ s.w.exec t := by
  rcases hi.carried with ⟨f, hc⟩
  -- A hooked call of either kind.
  have hhooked : ∀ fd sp ok ok', a.reads = some (fd, ok) → 1 < (s.w.callstack t).index →
      (∃ c io e, s.w.exec t = some c ∧ (s.reading fd c).hookEnter t fd ok = .ok (io, some e)) →
      ∃ s', s.hooked t fd sp ok ok' = .ok s' ∧ s'.w.exec t ≠ s.w.exec t := by
    rintro fd sp ok ok' hreads hidx ⟨c, io, e, hx, hio⟩
    have huse := hone.2 (fd, ok) hreads c hx
    rcases @InStep.hooked_suspends s t fd sp ok ok' c io e hi hidx hx huse hio with
      ⟨w, _, hleft, heq⟩
    exact ⟨_, heq, by rw [hx]; exact hleft⟩
  cases a with
  | yield u sp =>
      obtain rfl := hone.1 u rfl
      have hidx := hsup.1.1
      rcases hc.executing hidx with ⟨c, _, _, _, hx, _⟩
      rcases hc.yield_suspends sp hidx hx with ⟨w, hw, hleft⟩
      have hcur : s.io.getCurMco u = some c := (hi.current hidx).trans hx
      refine ⟨{ s with w := w }, ?_, by rw [hx]; exact hleft⟩
      simp only [step, mcosopsYield, hcur, hw]
      rfl
  | read u fd sp ok ok' =>
      obtain rfl := hone.1 u rfl
      exact hhooked fd sp ok ok' rfl hsup.1.1 hy
  | accept u fd sp ok ok' =>
      obtain rfl := hone.1 u rfl
      exact hhooked fd sp ok ok' rfl hsup.1.1 hy
  | newLoop _ _ => exact hy.elim
  | openFd _ _ => exact hy.elim
  | spawn _ => exact hy.elim
  | resume _ _ _ => exact hy.elim
  | finish _ _ => exact hy.elim
  | wake _ _ => exact hy.elim
  | close _ _ _ => exact hy.elim
  | poll _ _ => exact hy.elim
  | dispatch _ _ => exact hy.elim

end Sys

/-- In every state of every run of one thread that meets the conditions, the
    current coroutine is the one on top of the call stack while a coroutine
    executes; no operation possible there fails the assertion of the hooks, and
    every yield suspends its caller. -/
theorem current_on_top {t : Tid} {s₀ s : Sys} {as : List SysOp} (h₀ : SysInit s₀)
    (h : Runs Sys.step (fun s a => (s.Supplied a ∧ s.ReadByOne t a) ∧ s.KeepsCurrent a) s₀ as s) :
    s.CurrentOnTop t ∧ ∀ a, s.Supplied a → s.ReadByOne t a →
      s.step a ≠ .error .notCurMco ∧
        (s.Yields a → ∃ s', s.step a = .ok s' ∧ s'.w.exec t ≠ s.w.exec t) := by
  have hi : s.InStep t := h.invariant
    (fun _ _ _ hi ha hs => Sys.instep_step hi ha.1.1 ha.1.2 ha.2 hs) (Sys.instep_init h₀)
  exact ⟨hi.currentOnTop, fun a hsup hone => ⟨hi.asserts hsup hone, hi.suspends hsup hone⟩⟩

/-- Coroutine 10 has read from descriptor 5 and resumed 11, which has closed a
    descriptor it has not read from and gone back to 10 by resuming it. -/
theorem current_on_top_nested :
    let e : CallSite := { sp := 0x10fe0, main := 1, mainBlk := 0x7000, blk := 0 }
    let as : List SysOp := [.newLoop 0 3, .openFd 5 false, .openFd 6 false, .spawn 10, .spawn 11,
      .resume 0 10 e, .read 0 5 0x10fe0 true true, .poll 0 [(5, pollIn)], .dispatch 0 e,
      .wake 0 true, .resume 0 11 e, .close 0 6 true, .resume 0 10 e]
    let s := after Sys.step .blank as
    s.CurrentOnTop 0 ∧ ∀ a, s.Supplied a → s.ReadByOne 0 a →
      s.step a ≠ .error .notCurMco ∧
        (s.Yields a → ∃ s', s.step a = .ok s' ∧ s'.w.exec 0 ≠ s.w.exec 0) :=
  current_on_top sysBlank_init (Checks.runs (by decide +kernel))

/-- A test for the assertion of the hooks. -/
def failsAssert : Except Abort Sys → Bool
  | .error .notCurMco => true
  | _ => false

theorem failsAssert_iff {x : Except Abort Sys} : failsAssert x = true ↔ x = .error .notCurMco := by
  constructor
  · intro h
    unfold failsAssert at h
    split at h
    · rfl
    · cases h
  · rintro rfl
    rfl

/-- Coroutine 10 has read from descriptors 5 and 6. Then it resumes 11, which
    yields; or it closes 5. Either way it is not the current coroutine any more:
    its next yield does nothing, and a hooked read from 6 fails the assertion. -/
theorem yield_without_effect :
    let e : CallSite := { sp := 0x10fe0, main := 1, mainBlk := 0x7000, blk := 0 }
    let as : List SysOp := [.newLoop 0 3, .openFd 5 false, .openFd 6 false, .spawn 10, .spawn 11,
      .resume 0 10 e, .read 0 5 0x10fe0 true true, .poll 0 [(5, pollIn)], .dispatch 0 e,
      .wake 0 true, .read 0 6 0x10fe0 true true, .poll 0 [(6, pollIn)], .dispatch 0 e, .wake 0 true]
    let ok : Sys → SysOp → Prop := fun s a => s.Supplied a ∧ s.ReadByOne 0 a
    ∀ bs, bs = [.resume 0 11 e, .yield 0 0x10fe0] ∨ bs = [.close 0 5 true] →
      let s := after Sys.step .blank (as ++ bs)
      Checks Sys.step ok .blank (as ++ bs) ∧ ¬ s.CurrentOnTop 0 ∧
        (ok s (.read 0 6 0x10fe0 true true) ∧
          s.step (.read 0 6 0x10fe0 true true) = .error .notCurMco) ∧
        ok s (.yield 0 0x10fe0) ∧ (s.step (.yield 0 0x10fe0)).isOk = true ∧
          (next Sys.step s (.yield 0 0x10fe0)).w.exec 0 = s.w.exec 0 := by
  intro e as ok bs hbs
  have hcur : ∀ s : Sys, ¬ s.CurrentOnTop 0 ↔ 1 < (s.w.callstack 0).index ∧
      ∀ c, s.w.exec 0 = some c → s.w.top 0 = some c → s.io.getCurMco 0 ≠ some c := by
    intro s
    simp only [Sys.CurrentOnTop, not_forall, not_exists, not_and, exists_prop]
  rcases hbs with rfl | rfl
  · simp only [hcur, ← failsAssert_iff]
    decide +kernel
  · simp only [hcur, ← failsAssert_iff]
    decide +kernel

end Fasco
