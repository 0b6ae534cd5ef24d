import Fasco.Theory.Progress

/-!
# Resuming Further Down

`McoResume` yields back when its target is the coroutine that resumed the
caller, and pushes in every other case. So a coroutine that waits further down
is pushed a second time: it is then in two slots, and its one `sink` is
overwritten. The call stack unwinds correctly down to the lower slot, where the
next `McoYield` finds a `sink` that is not the entry below and fails its
assertion.

This is the only way to spoil the call stack. `wellFormed_along_iff` says that
the operations of a run keep it well formed, and none fails an assertion,
exactly as long as no `McoResume` reaches below the caller's parent.

## Main definitions

* `WellFormed`: Distinct entries, linked by `sink`, the topmost one running.
* `KeepsWellFormed`: An operation that fails no assertion and leaves the call
  stack well formed.
* `ShallowResume`: No resume below the caller's parent.

## Theorems

* `Carried.wellFormed`: The invariant of a thread that behaves includes it.
* `keepsWellFormed_iff`: One operation.
* `wellFormed_along_iff`: A whole run.
* `deep_resume_breaks`: A cycle of three resumes that fails the assertion.
-/

namespace Fasco

open World

/-- The slots below the index hold distinct live coroutines, each but the
    lowest with its `sink` in the slot below, and exactly the one in the
    topmost slot is running. -/
structure WellFormed (w : World) (t : Tid) : Prop where
  live : ∀ i, i < (w.callstack t).index → ∃ c, (w.callstack t).slot i = some c ∧ (w.co c).isSome
  distinct : ∀ i j, i < (w.callstack t).index → j < (w.callstack t).index →
    (w.callstack t).slot i = (w.callstack t).slot j → i = j
  linked : ∀ i c r, i + 1 < (w.callstack t).index → (w.callstack t).slot (i + 1) = some c →
    w.co c = some r → r.sink = (w.callstack t).slot i
  running : ∀ c r, w.co c = some r → (r.running = true ↔
    0 < (w.callstack t).index ∧ (w.callstack t).slot ((w.callstack t).index - 1) = some c)

/-- The operation fails no assertion and leaves the call stack well formed. -/
def KeepsWellFormed (t : Tid) (w : World) (a : Op) : Prop :=
  w.step a ≠ .error .assertion ∧ ∀ w', w.step a = .ok w' → WellFormed w' t

/-- No coroutine below the caller's parent is resumed. -/
def ShallowResume (w : World) : Op → Prop
  | .resume t (some c) _ => ∀ i, i + 2 < (w.callstack t).index → (w.callstack t).slot i ≠ some c
  | _ => True

/-- An operation of thread `t` that may resume any live coroutine, but does
    not yield a main coroutine or free one in the call stack. -/
def AnyResume (t : Tid) (w : World) (a : Op) : Prop :=
  a.thread = t ∧ Admissible w a ∧
    match a with
    | .resume _ _ _ => True
    | a => Disciplined w a

instance (t : Tid) (w : World) : ∀ a, Decidable (AnyResume t w a)
  | .resume u c e => inferInstanceAs (Decidable (u = t ∧ Admissible w (.resume u c e) ∧ True))
  | .create u c p => inferInstanceAs (Decidable (OnThread t w (.create u c p)))
  | .mainMco u e => inferInstanceAs (Decidable (OnThread t w (.mainMco u e)))
  | .yield u c sp => inferInstanceAs (Decidable (OnThread t w (.yield u c sp)))
  | .finish u sp => inferInstanceAs (Decidable (OnThread t w (.finish u sp)))
  | .free u c => inferInstanceAs (Decidable (OnThread t w (.free u c)))
  | .write u x b => inferInstanceAs (Decidable (OnThread t w (.write u x b)))

theorem onThread_of_shallow {t : Tid} {w : World} {a : Op} (ha : AnyResume t w a)
    (hs : ShallowResume w a) : OnThread t w a := by
  rcases ha with ⟨ht, hadm, hd⟩
  refine ⟨ht, hadm, ?_⟩
  cases a with
  | resume u co e =>
      cases co with
      | none => trivial
      | some c => exact hs
  | create _ _ _ => exact hd
  | mainMco _ _ => exact hd
  | yield _ _ _ => exact hd
  | finish _ _ => exact hd
  | free _ _ => exact hd
  | write _ _ _ => exact hd

namespace Carried

variable {w w' : World} {f : Frames} {t : Tid}

theorem wellFormed (hc : Carried w f t) : WellFormed w t := by
  have hs := hc.orderly.steady
  have hh := hs.holds t
  refine ⟨?_, hh.nodup.mp (hc.orderly.nodup t), ?_, ?_⟩
  · intro i hi
    rcases hh.slot_some hi with ⟨c, hci⟩
    rcases hs.ready t c (hh.slot_mem hi hci) with ⟨r, hr, _⟩
    refine ⟨c, hci, ?_⟩
    rw [← ctl_isSome, hr]
    rfl
  · intro i c r hi hci hr
    rw [← (hc.orderly.linked t).slot hh i c hi hci, sinkOf_ctl (ctl_of_co hr)]
    rfl
  · intro c r hr
    constructor
    · intro hrun
      have hu := hc.head_of_running (ctl_of_co hr) hrun
      have hpos := hh.pos (List.mem_of_head? hu)
      exact ⟨hpos, by rw [hh.top hpos, hu]⟩
    · rintro ⟨hpos, htop⟩
      rw [hh.top hpos] at htop
      have hruns := hs.head_runs htop
      rw [runs_of_ctl (ctl_of_co hr)] at hruns
      injection hruns

/-- Resuming a coroutine below the caller's parent puts it in a second slot. -/
theorem deep_resume_duplicates {c : McoRef} {e : CallSite} {i : Nat} (hc : Carried w f t)
    (hcode : w.InCode t) (hfresh : w.FreshMain t e) (hi : i + 2 < (w.callstack t).index)
    (hci : (w.callstack t).slot i = some c) (h : w.mcoResume t (some c) e = .ok w') :
    ¬ WellFormed w' t := by
  have hs := hc.orderly.steady
  have hh := hs.holds t
  have hmem : c ∈ (f t).tail := hh.pop.slot_mem (by omega) hci
  have hne : f t ≠ [] := by
    intro hnil
    rw [hnil] at hmem
    exact List.not_mem_nil hmem
  have hw : (w.mainMco t e).1 = w :=
    mainMco_of_nonempty (fun h0 => hne ((hs.empty_iff t).mp h0))
  rcases hs.resume_moved hcode hfresh h with ⟨_, hq⟩ | ⟨d, r, cur, l, hd, _, _, _, _, hf, hcase⟩
  · -- A coroutine that waits is neither running nor finished.
    exfalso
    rcases hq c rfl with ⟨r, hr, hrun | hfin⟩
    · rcases hc.orderly.head_of_running (ctl_of_co hr) hrun with ⟨u, hu⟩
      exact hc.orderly.head_not_tail hu hmem
    · have hdy := hc.orderly.unfinished (List.mem_of_mem_tail hmem) (ctl_of_co hr)
      have hdy' : r.doneYield = false := hdy
      rw [McoRoutine.finished, hdy', Bool.and_false] at hfin
      cases hfin
  · injection hd with hd
    rw [← hd, hw] at hcase
    rcases hcase with ⟨hbelow, _⟩ | ⟨_, _, hp⟩
    · -- The parent is in one slot only, and that is higher up.
      exfalso
      rcases McoCallStack.fromTop_some hbelow with ⟨hk, hslot⟩
      have := hc.wellFormed.distinct i ((w.callstack t).index - 2) (by omega) (by omega)
        (by rw [hci, hslot])
      omega
    -- The lower slot keeps `c`, and the new topmost one holds it as well.
    · intro hwf
      have hcs : w'.callstack t = (w.callstack t).push c := by
        rw [hp.callstack, Function.update_self]
      have hlt : (w'.callstack t).index = (w.callstack t).index + 1 := by
        rw [hcs, McoCallStack.push_index]
      have h1 : (w'.callstack t).slot i = some c := by
        rw [hcs, McoCallStack.push_slot, if_neg (by omega)]
        exact hci
      have h2 : (w'.callstack t).slot (w.callstack t).index = some c := by
        rw [hcs, McoCallStack.push_slot, if_pos rfl]
      have := hwf.distinct i (w.callstack t).index (by omega) (by omega) (by rw [h1, h2])
      omega

end Carried

/-- From a well-formed call stack, exactly the resumes below the caller's
    parent spoil it. -/
theorem keepsWellFormed_iff {w : World} {t : Tid} {a : Op} (hc : ∃ f, Carried w f t)
    (ha : AnyResume t w a) : KeepsWellFormed t w a ↔ ShallowResume w a := by
  rcases hc with ⟨f, hc⟩
  constructor
  · intro hk
    cases a with
    | resume u co e =>
        cases co with
        | none => trivial
        | some c =>
            rcases ha with ⟨ht, ⟨hcode, hlive, _, hfresh⟩, _⟩
            change u = t at ht
            change w.InCode u at hcode
            rw [ht] at hcode hfresh hk ⊢
            -- If it did reach further down it would return, with `c` in two slots.
            intro i hi hci
            rcases hc.resume_returns hlive hfresh with ⟨w', hw'⟩
            exact hc.deep_resume_duplicates hcode hfresh hi hci hw' (hk.2 w' hw')
    | create _ _ _ => trivial
    | mainMco _ _ => trivial
    | yield _ _ _ => trivial
    | finish _ _ => trivial
    | free _ _ => trivial
    | write _ _ _ => trivial
  · intro hs
    have hon := onThread_of_shallow ha hs
    rcases onThread_returns hc hon with ⟨w', hw'⟩
    refine ⟨?_, fun w'' hw'' => ?_⟩
    · rw [hw']
      intro h
      cases h
    · rcases onThread_step ⟨f, hc⟩ hon hw'' with ⟨⟨f', hc'⟩, _⟩
      exact hc'.wellFormed

/-- The operations of a run fail no assertion and keep the call stack well
    formed exactly as long as none resumes below its caller's parent. -/
theorem wellFormed_along_iff {w : World} {t : Tid} {as : List Op} (hinit : Init w)
    (hadm : Fallible.Along World.step (AnyResume t) w as) :
    Fallible.Along World.step (KeepsWellFormed t) w as ↔
      Fallible.Along World.step ShallowResume w as :=
  Fallible.along_congr (I := fun v => ∃ f, Carried v f t)
    (fun _ _ _ hc ha hs hstep => (onThread_step hc (onThread_of_shallow ha hs) hstep).1)
    (fun _ _ hc ha => keepsWellFormed_iff hc ha) as w ⟨_, carried_init hinit t⟩ hadm

/-- A coroutine that resumes another one stays within its caller's parent. -/
theorem wellFormed_along_iff_two :
    let e : CallSite := { sp := 0, main := 1, mainBlk := 0x7000, blk := 0 }
    let as : List Op := [.create 0 10 false, .create 0 11 false, .resume 0 (some 10) e,
      .resume 0 (some 11) { e with sp := 0x10fe0 }, .resume 0 (some 10) { e with sp := 0x10fe0 }]
    Fallible.Along World.step (KeepsWellFormed 0) World.blank as ↔
      Fallible.Along World.step ShallowResume World.blank as :=
  wellFormed_along_iff blank_init (Fallible.Checks.along (by decide))

/-- The thread's own code resumes 10, which resumes 11, which resumes 12,
    which resumes 10 again. The last resume puts 10 in a second slot. Three
    yields later, when 10 is on top for the second time, its `sink` is 12. -/
theorem deep_resume_breaks :
    let e : CallSite := { sp := 0x10fe0, main := 1, mainBlk := 0x7000, blk := 0 }
    let as : List Op := [.create 0 10 false, .create 0 11 false, .create 0 12 false,
      .resume 0 (some 10) e, .resume 0 (some 11) e, .resume 0 (some 12) e, .resume 0 (some 10) e]
    let bs : List Op := [.yield 0 (some 10) 0x10fe0, .yield 0 (some 12) 0x10fe0,
      .yield 0 (some 11) 0x10fe0]
    Fallible.Checks World.step (AnyResume 0) World.blank (as ++ bs) ∧
      ¬ WellFormed (Fallible.after World.step World.blank as) 0 ∧
      AnyResume 0 (Fallible.after World.step World.blank (as ++ bs)) (.yield 0 (some 10) 0x10fe0) ∧
      (Fallible.after World.step World.blank (as ++ bs)).step (.yield 0 (some 10) 0x10fe0)
        = .error .assertion := by
  refine ⟨by decide, fun hwf => ?_, by decide, rfl⟩
  have := hwf.distinct 1 4 (by decide) (by decide) (by decide)
  omega

end Fasco
