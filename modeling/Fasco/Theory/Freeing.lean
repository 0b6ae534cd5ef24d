import Fasco.Theory.CallStack

/-!
# What May Be Freed

`McoFree` destroys every coroutine that is not running. A coroutine that
resumed another one is not running either, but control comes back to it: it
lies in a call stack, and the one above it has it as `sink`. And the occupant
that `McoFree` clears is the calling thread's, while another thread's manager
may hold the object too.

`FreesUnneeded` is what a free should guarantee: the object it destroys is in
no call stack, and afterwards no `sink` in a call stack and no occupant refers
to it. `freesUnneeded_along_iff` says which frees do, in runs of any number of
threads that keep the call stacks in order: those of a running coroutine, and
those of one that waits nowhere and is no other thread's occupant.

## Main definitions

* `Destroys`: The object is gone after the call.
* `Unneeded`: Nothing refers to it.
* `FreesUnneeded`: A free destroys only what is not needed.
* `FreesIdle`: A free of a running coroutine, or of an idle one.
* `ResumesFlat`: An operation that resumes nothing that waits, except the
  caller's parent.

## Theorems

* `freesUnneeded_iff`: One free.
* `freesUnneeded_along_iff`: All the frees of a run.
* `free_of_waiting`: A coroutine frees the one that resumed it.
-/

namespace Fasco

open World

/-- The object at `c` was live and is gone. -/
def Destroys (w w' : World) (c : McoRef) : Prop := (w.co c).isSome ∧ w'.co c = none

/-- The destroyed object was in no call stack, and nothing that is left
    refers to it. -/
structure Unneeded (w w' : World) (c : McoRef) : Prop where
  slot : ∀ u i, ¬ w.InSlot u i c
  sink : ∀ u i d r, w'.InSlot u i d → w'.co d = some r → r.sink ≠ some c
  occupant : ∀ u, (w'.mgr u).commonOccupy ≠ some c

/-- If the operation is a free that destroys an object, the object is not
    needed. -/
def FreesUnneeded (w : World) : Op → Prop
  | .free t (some c) => ∀ w', w.mcoFree t (some c) = .ok w' → Destroys w w' c → Unneeded w w' c
  | _ => True

/-- If the operation is a free, its coroutine is running, or it waits in no
    call stack and no other thread's manager has it as its occupant. -/
def FreesIdle (w : World) : Op → Prop
  | .free t (some c) => w.runs c = some true ∨
      (∀ u, ¬ w.Waits u c) ∧ ∀ u, u ≠ t → (w.mgr u).commonOccupy ≠ some c
  | _ => True

/-- An operation of any thread. What it resumes is the coroutine that resumed
    the caller, or waits nowhere. -/
def ResumesFlat (w : World) (a : Op) : Prop :=
  Admissible w a ∧
    match a with
    | .resume t (some c) _ => ∀ u, w.Waits u c → u = t ∧ w.parent t = some c
    | _ => True

namespace Orderly

variable {w w' : World} {f : Frames}

-- A coroutine is in a slot when it is in the list the slots hold.
theorem inSlot_mem (ho : Orderly w f) {u : Tid} {i : Nat} {c : McoRef} (h : w.InSlot u i c) :
    c ∈ f u := (ho.steady.holds u).slot_mem h.1 h.2

theorem not_waits_of_running (ho : Orderly w f) {c : McoRef} (h : w.runs c = some true) (u : Tid) :
    ¬ w.Waits u c := by
  intro hw
  rcases ctl_of_runs h with ⟨r, hr, hrun⟩
  rcases ho.head_of_running hr hrun with ⟨v, hv⟩
  exact ho.head_not_tail hv (ho.waits_iff.mp hw)

theorem flat_of_idle (ho : Orderly w f) {a : Op} (ha : ResumesFlat w a) (hi : FreesIdle w a) :
    Flat w a := by
  cases a with
  | free t co =>
      cases co with
      | none => trivial
      | some c =>
          rcases hi with hrun | ⟨hw, _⟩
          · exact ho.not_waits_of_running hrun
          · exact hw
  | resume t co e =>
      cases co with
      | none => trivial
      | some c => exact ha.2
  | create _ _ _ => trivial
  | mainMco _ _ => trivial
  | yield _ _ _ => trivial
  | finish _ _ => trivial
  | write _ _ _ => trivial

/-- Where the call stacks are in order, an idle coroutine is not needed: an
    entry's `sink` is the entry below, which waits. -/
theorem unneeded_of_idle (ho : Orderly w f) {t : Tid} {c : McoRef} (hc : w.runs c = some false)
    (hwaits : ∀ u, ¬ w.Waits u c) (hocc : ∀ u, u ≠ t → (w.mgr u).commonOccupy ≠ some c)
    (h : w.mcoFree t (some c) = .ok w') : Unneeded w w' c := by
  rcases ctl_of_runs hc with ⟨r, hr, hrun⟩
  have hnot := ho.not_mem hr hrun hwaits
  have hflat : Flat w (.free t (some c)) := hwaits
  have ho' := ho.free hflat h
  refine ⟨fun u i hin => hnot u (ho.inSlot_mem hin), ?_, ?_⟩
  · intro u i d rd hin hrd hsink
    have hsink' : w'.sinkOf d = some c := by
      rw [sinkOf_ctl (ctl_of_co hrd)]
      exact hsink
    exact hnot u (List.mem_of_mem_tail ((ho'.linked u).below_mem (ho'.inSlot_mem hin) hsink'))
  · intro u hu
    rcases mcoFree_cases h with ⟨hco, _⟩ | ⟨d, rd, hd, hrd, hrund, _⟩ | ⟨d, rd, hd, _, _, rfl⟩
    · cases hco
    · injection hd with hd
      rw [← hd] at hrd
      have hc' := runs_of_ctl (ctl_of_co hrd)
      rw [hc] at hc'
      injection hc' with hc'
      rw [show (forget rd).running = rd.running from rfl, hrund] at hc'
      cases hc'
    · injection hd with hd
      rw [← hd] at hu
      by_cases hut : u = t
      · -- The calling thread's occupant is cleared if it was the object.
        rw [hut] at hu
        by_cases hoc : (w.mgr t).commonOccupy = some c
        · simp only [if_pos hoc, setCommonOccupy, Function.update_self] at hu
          cases hu
        · simp only [if_neg hoc] at hu
          exact hoc hu
      · have hkept : (w.mgr u).commonOccupy = some c := by
          by_cases hoc : (w.mgr t).commonOccupy = some c
          · simp only [if_pos hoc, setCommonOccupy, Function.update_of_ne hut] at hu
            exact hu
          · simp only [if_neg hoc] at hu
            exact hu
        exact hocc u hut hkept

end Orderly

/-- The occupants of other threads are left alone. -/
theorem mcoFree_other_occupant {w w' : World} {t u : Tid} {co : Option McoRef} (hut : u ≠ t)
    (h : w.mcoFree t co = .ok w') : (w'.mgr u).commonOccupy = (w.mgr u).commonOccupy := by
  rcases mcoFree_cases h with ⟨_, rfl⟩ | ⟨c, r, _, _, _, rfl⟩ | ⟨c, r, _, _, _, rfl⟩
  · rfl
  · rfl
  · by_cases hoc : (w.mgr t).commonOccupy = some c
    · simp only [if_pos hoc, setCommonOccupy, Function.update_of_ne hut]
    · simp only [if_neg hoc]

/-- A coroutine that is not running is destroyed. -/
theorem mcoFree_destroys {w : World} {t : Tid} {c : McoRef} {r : McoRoutine}
    (hr : w.co c = some r) (hrun : r.running = false) :
    ∃ w', w.mcoFree t (some c) = .ok w' ∧ Destroys w w' c := by
  unfold mcoFree
  simp only [hr, hrun]
  refine ⟨_, rfl, ?_, ?_⟩
  · rw [hr]
    rfl
  · simp only [Function.update_self]

/-- With the call stacks in order, a free destroys only what is not needed
    exactly when its coroutine is running or idle. -/
theorem freesUnneeded_iff {w : World} {a : Op} (ho : ∃ f, Orderly w f) (ha : ResumesFlat w a) :
    FreesUnneeded w a ↔ FreesIdle w a := by
  rcases ho with ⟨f, ho⟩
  cases a with
  | free t co =>
      cases co with
      | none => exact Iff.rfl
      | some c =>
          have hlive : w.Live (some c) := ha.1.2
          rcases Option.isSome_iff_exists.mp (hlive c rfl) with ⟨r, hr⟩
          have hruns : w.runs c = some (forget r).running := runs_of_ctl (ctl_of_co hr)
          cases hrun : r.running with
          | true =>
              rw [show (forget r).running = true from hrun] at hruns
              refine iff_of_true ?_ (Or.inl hruns)
              -- A running coroutine is not destroyed.
              intro w' h ⟨_, hgone⟩
              rcases mcoFree_cases h with ⟨hco, _⟩ | ⟨d, rd, hd, _, _, rfl⟩ |
                ⟨d, rd, hd, hrd, hf, _⟩
              · cases hco
              · injection hd with hd
                rw [hd] at hgone
                simp only [setCo, Function.update_self] at hgone
                cases hgone
              · injection hd with hd
                rw [← hd, hr] at hrd
                injection hrd with hrd
                rw [← hrd, hrun] at hf
                cases hf
          | false =>
              rw [show (forget r).running = false from hrun] at hruns
              constructor
              · intro hf
                right
                rcases mcoFree_destroys (t := t) hr hrun with ⟨w', hw', hd⟩
                have hun := hf w' hw' hd
                constructor
                · rintro u ⟨i, hi, hs⟩
                  exact hun.slot u i ⟨by omega, hs⟩
                · intro u hut
                  have hocc := hun.occupant u
                  rw [mcoFree_other_occupant hut hw'] at hocc
                  exact hocc
              · rintro (hbad | ⟨hw, hocc⟩)
                · rw [hruns] at hbad
                  cases hbad
                · intro w' hw' _
                  exact ho.unneeded_of_idle hruns hw hocc hw'
  | create _ _ _ => exact Iff.rfl
  | mainMco _ _ => exact Iff.rfl
  | resume _ _ _ => exact Iff.rfl
  | yield _ _ _ => exact Iff.rfl
  | finish _ _ => exact Iff.rfl
  | write _ _ _ => exact Iff.rfl

/-- The frees of a run destroy only what is not needed exactly when each is of
    a running or of an idle coroutine. -/
theorem freesUnneeded_along_iff {w : World} {as : List Op} (hinit : Init w)
    (hadm : Fallible.Along World.step ResumesFlat w as) :
    Fallible.Along World.step FreesUnneeded w as ↔ Fallible.Along World.step FreesIdle w as := by
  refine Fallible.along_congr (I := fun v => ∃ f, Orderly v f) ?_ ?_ as w
    ⟨_, orderly_init hinit⟩ hadm
  · rintro v a v' ⟨f, ho⟩ ha hi hstep
    rcases orderly_step ho ha.1 (ho.flat_of_idle ha hi) hstep with ⟨f', ho', _⟩
    exact ⟨f', ho'⟩
  · intro v a ho ha
    exact freesUnneeded_iff ho ha

/-- A coroutine is resumed, yields, and is freed. -/
theorem freesUnneeded_along_iff_idle :
    let e : CallSite := { sp := 0, main := 1, mainBlk := 0x7000, blk := 0 }
    let as : List Op := [.create 0 10 false, .resume 0 (some 10) e, .yield 0 (some 10) 0x10fe0,
      .free 0 (some 10)]
    Fallible.Along World.step FreesUnneeded World.blank as ↔
      Fallible.Along World.step FreesIdle World.blank as :=
  freesUnneeded_along_iff blank_init (Fallible.Checks.along
    ⟨⟨by decide, trivial⟩, rfl,
      ⟨by decide, fun _ ⟨i, hi, _⟩ => absurd hi (Nat.not_lt_zero (i + 1))⟩, rfl,
      ⟨by decide, trivial⟩, rfl, ⟨by decide, trivial⟩, rfl, trivial⟩)

/-- The thread's own code resumes 10, which resumes 11, which frees 10. The
    object is destroyed, and the `sink` of 11 points to it. -/
theorem free_of_waiting :
    let e : CallSite := { sp := 0x10fe0, main := 1, mainBlk := 0x7000, blk := 0 }
    let as : List Op := [.create 0 10 false, .create 0 11 false, .resume 0 (some 10) e,
      .resume 0 (some 11) e]
    Fallible.Checks World.step Admissible World.blank (as ++ [.free 0 (some 10)]) ∧
      ¬ FreesUnneeded (Fallible.after World.step World.blank as) (.free 0 (some 10)) := by
  refine ⟨by decide, fun h => ?_⟩
  exact (h _ rfl ⟨rfl, rfl⟩).slot 0 1 ⟨by decide, rfl⟩

end Fasco
