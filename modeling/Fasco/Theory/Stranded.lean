import Fasco.Theory.OneLoop

/-!
# Stranded Coroutines

A coroutine suspended in a hooked `read` or `accept` is resumed by the loop
when its descriptor is reported, so it needs three entries: the pool must have
it for the descriptor, the table must have the descriptor, and the kernel must
have been asked for reading. The hooks write the three one after the other and
do not look at the result of `epoll_ctl`; and `close` takes all three away,
whoever calls it.

`nobody_stranded` says that this is all that can go wrong on one loop thread:
if the `epoll_ctl` of every hooked call that is suspended succeeds, or the
kernel has been asked for reading before, and nobody closes a descriptor that
is waited for, the three entries are there in every state of every run.

## Main definitions

* `AsksRead`: An interest that includes `kReadEvent`.
* `Sys.Awaited`: The three entries.
* `Sys.CtlAnswers`, `Sys.Heard`: The kernel is asked for reading, and has
  been.

## Theorems

* `heard_step`: Every operation keeps the interest of suspended calls.
* `nobody_stranded`: The three entries along a run.
* `stranded`: A refused descriptor, and one that is closed.
-/

namespace Fasco

open Fallible

/-- There is an interest, and it includes `kReadEvent`. -/
def AsksRead (i : Option UInt32) : Prop := ∃ m, i = some m ∧ m &&& kReadEvent = kReadEvent

instance (i : Option UInt32) : Decidable (AsksRead i) :=
  inferInstanceAs (Decidable (∃ m, i = some m ∧ _))

namespace Sys

/-- Readiness of `fd` is reported to `t`'s loop and resumes `c`. -/
structure Awaited (s : Sys) (t : Tid) (c : McoRef) (fd : Fd) : Prop where
  coroutine : s.io.getMcoRoutine t fd = some c
  entry : (s.io.entry t fd).isSome
  interest : AsksRead (s.io.kern.interest t fd)

/-- The kernel accepts the interest of a hooked call that may be suspended, or
    has one that includes reading. -/
def CtlAnswers (s : Sys) : SysOp → Prop
  | .read t fd _ ok _ =>
    s.io.Straight t fd ∨ (s.io.askCtl t fd ok).2 = true ∨ AsksRead (s.io.kern.interest t fd)
  | .accept t fd _ ok _ =>
    s.io.Straight t fd ∨ (s.io.askCtl t fd ok).2 = true ∨ AsksRead (s.io.kern.interest t fd)
  | _ => True

instance (s : Sys) : ∀ a, Decidable (s.CtlAnswers a)
  | .read _ _ _ _ _ => inferInstanceAs (Decidable (_ ∨ _ ∨ _))
  | .accept _ _ _ _ _ => inferInstanceAs (Decidable (_ ∨ _ ∨ _))
  | .newLoop _ _ => isTrue trivial
  | .openFd _ _ => isTrue trivial
  | .spawn _ => isTrue trivial
  | .resume _ _ _ => isTrue trivial
  | .yield _ _ => isTrue trivial
  | .finish _ _ => isTrue trivial
  | .wake _ _ => isTrue trivial
  | .close _ _ _ => isTrue trivial
  | .poll _ _ => isTrue trivial
  | .dispatch _ _ => isTrue trivial

variable {s s' : Sys} {t : Tid} {fd : Fd} {sp : Nat} {ok ok' : Bool}

/-- The kernel has been asked for reading for every hooked call in
    progress. -/
def Heard (t : Tid) (s : Sys) : Prop :=
  ∀ c fr, s.frame c = some fr → AsksRead (s.io.kern.interest t fr.fd)

-- The kernel's answer does not depend on who reads.
theorem reading_askCtl (s : Sys) (c : McoRef) :
    ((s.reading fd c).askCtl t fd ok).2 = (s.io.askCtl t fd ok).2 := by
  have hent : (s.reading fd c).entry t fd = s.io.entry t fd := rfl
  unfold Io.askCtl
  rw [hent]
  cases s.io.entry t fd with
  | none =>
      simp only [Kernel.eventAdd_snd]
      rfl
  | some e =>
      simp only [Kernel.eventMod_snd]
      rfl

-- Reads are the operations the condition is about.
theorem CtlAnswers.of_reads {a : SysOp} (hctl : s.CtlAnswers a) (hon : s.FromLoop t a)
    (hr : a.reads = some (fd, ok)) : s.io.Straight t fd ∨ (s.io.askCtl t fd ok).2 = true ∨
      AsksRead (s.io.kern.interest t fd) := by
  cases a with
  | read u g sp b b' =>
      obtain rfl := hon.thread rfl
      injection hr with hr
      injection hr with hg hb
      rw [← hg, ← hb]
      exact hctl
  | accept u g sp b b' =>
      obtain rfl := hon.thread rfl
      injection hr with hr
      injection hr with hg hb
      rw [← hg, ← hb]
      exact hctl
  | newLoop _ _ => cases hr
  | openFd _ _ => cases hr
  | spawn _ => cases hr
  | resume _ _ _ => cases hr
  | yield _ _ => cases hr
  | finish _ _ => cases hr
  | wake _ _ => cases hr
  | close _ _ _ => cases hr
  | poll _ _ => cases hr
  | dispatch _ _ => cases hr

/-- Every operation keeps the interest of the suspended calls. -/
theorem heard_step {a : SysOp} (ht : s.Tidy) (hsh : s.Shallow t) (hs : s.Served t)
    (hh : s.Heard t) (hsup : s.Supplied a) (hon : s.FromLoop t a) (hloop : s.Looped a)
    (hspare : s.SparesWaiting a) (hctl : s.CtlAnswers a) (h : s.step a = .ok s') : s'.Heard t := by
  intro d fr hd
  rcases calls_step ht hsh hs hsup hon hloop hspare h hd with ⟨hd', u, hv⟩ | ⟨ok, hr, hent, _⟩
  · have hi : s'.io.kern.interest t fr.fd = s.io.kern.interest t fr.fd :=
      congrArg (fun v => v.kern.interest) hv
    rw [hi]
    exact hh d fr hd'
  · -- The kernel has just been asked, or had been before.
    have hi : (s.reading fr.fd d |>.askCtl t fr.fd ok).1.interest t fr.fd = _ :=
      congrArg KernView.interest ((s.reading fr.fd d).askCtl_view_self t fr.fd ok)
    rw [← hent.kern, reading_askCtl] at hi
    rw [hi]
    rcases hctl.of_reads hon hr with hst | hok | hask
    · exact absurd hst hent.not_straight
    · rw [if_pos hok]
      exact ⟨kReadEvent, rfl, rfl⟩
    · by_cases hok : (s.io.askCtl t fr.fd ok).2 = true
      · rw [if_pos hok]
        exact ⟨kReadEvent, rfl, rfl⟩
      · rw [if_neg hok]
        exact hask

end Sys

/-- On one loop thread whose kernel accepts what the hooked calls ask for, and
    where nobody closes a descriptor that is waited for, every coroutine that
    is suspended in a hooked call is resumed when its descriptor is ready, in
    every state of every run. -/
theorem nobody_stranded {t : Tid} {s₀ s : Sys} {as : List SysOp} (h₀ : SysInit s₀)
    (h : Runs Sys.step (fun s a => (s.Supplied a ∧ s.FromLoop t a ∧ s.Looped a) ∧
      s.SparesWaiting a ∧ s.CtlAnswers a) s₀ as s)
    {c : McoRef} {fr : HookFrame} (hfr : s.frame c = some fr) : s.Awaited t c fr.fd := by
  have hinv := h.invariant (I := fun s => s.Tidy ∧ s.Shallow t ∧ s.Served t ∧ s.Heard t)
    (fun s a s' hi hok hs => by
      rcases hi with ⟨ht, hsh, hsv, hh⟩
      rcases hok with ⟨⟨hsup, hon, hloop⟩, hspare, hctl⟩
      exact ⟨Sys.tidy_step ht hsup hs, Sys.shallow_step ht hsh hsup hon hloop hs,
        Sys.served_step ht hsh hsv hsup hon hloop hspare hs,
        Sys.heard_step ht hsh hsv hh hsup hon hloop hspare hctl hs⟩)
    ⟨Sys.tidy_init h₀, Sys.shallow_init h₀, Sys.served_init h₀, fun c fr hfr => by
      rw [h₀.frame c] at hfr
      cases hfr⟩
  have hserve := hinv.2.2.1 c fr hfr
  refine ⟨hserve.coroutine, ?_, hinv.2.2.2 c fr hfr⟩
  have hent : s.io.entry t fr.fd = some fr.event := hserve.entry
  rw [hent]
  rfl

/-- Coroutine 11 reads from descriptor 6 twice. The two `epoll_ctl`s in between
    fail, which leaves the interest as it was. Coroutine 10 waits for 5. -/
theorem nobody_stranded_two :
    let e : CallSite := { sp := 0x10fe0, main := 1, mainBlk := 0x7000, blk := 0 }
    let as : List SysOp := [.newLoop 0 3, .openFd 5 false, .openFd 6 false, .spawn 10, .spawn 11,
      .resume 0 11 e, .read 0 6 0x10fe0 true true, .poll 0 [(6, pollIn)], .dispatch 0 e,
      .wake 0 false, .read 0 6 0x10fe0 false true, .resume 0 10 e, .accept 0 5 0x10fe0 true true]
    (after Sys.step .blank as).Awaited 0 11 6 :=
  nobody_stranded sysBlank_init (Checks.runs (by decide))
    (show (after Sys.step .blank _).frame 11 = some ⟨6, 1, 1⟩ from rfl)

/-- Two ways to be stranded: `epoll_ctl` refuses the descriptor, and another
    coroutine closes it. -/
theorem stranded :
    let e : CallSite := { sp := 0x10fe0, main := 1, mainBlk := 0x7000, blk := 0 }
    let as : List SysOp := [.newLoop 0 3, .openFd 5 false, .spawn 10, .spawn 11, .resume 0 10 e]
    let refused := as ++ [.read 0 5 0x10fe0 false true]
    let shut := as ++ [.read 0 5 0x10fe0 true true, .resume 0 11 e, .close 0 5 true]
    let ok : Sys → SysOp → Prop := fun s a => s.Supplied a ∧ s.FromLoop 0 a ∧ s.Looped a
    (Checks Sys.step ok .blank refused ∧
      (after Sys.step .blank refused).frame 10 = some ⟨5, 1, 1⟩ ∧
      ¬ (after Sys.step .blank refused).Awaited 0 10 5) ∧
    Checks Sys.step ok .blank shut ∧ (after Sys.step .blank shut).frame 10 = some ⟨5, 1, 1⟩ ∧
      ¬ (after Sys.step .blank shut).Awaited 0 10 5 := by
  refine ⟨⟨by decide, rfl, fun h => ?_⟩, by decide, rfl, fun h => ?_⟩
  · exact absurd h.interest (by decide)
  · cases h.coroutine

end Fasco
