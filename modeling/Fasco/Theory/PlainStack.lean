import Fasco.Theory.Progress

/-!
# A Plain Stack of Coroutines

What `McoResume` and `McoYield` are for, without the flags, the `sink`
pointers and the map. `Plain` is a list of coroutines with the running one at
its head, and `Plain.next` is the whole meaning of every operation: resuming
pushes, or pops when the target is the one that resumed the caller; yielding
and ending pop; everything else leaves the list alone.

`Simulates` says how the program's state represents such a list.
`plain_stack_refinement` is the refinement, for every run of one thread whose
callers behave: the state represents the list the reference machine has, and
the next operation returns and represents the next list.

## Main definitions

* `Plain`, `Plain.next`: The reference machine.
* `Simulates`: How the program's state represents it.
* `Follows`: The invariant behind the simulation.

## Theorems

* `follows_step`: One operation follows the reference machine.
* `Follows.simulates`: What follows the machine represents its state.
* `plain_stack_refinement`: The refinement over runs.
-/

namespace Fasco

open World

/-- The reference: the coroutines from the running one down to the main one,
    and which ones have been entered and have finished. -/
structure Plain where
  list : List McoRef
  entered : McoRef → Bool
  finished : McoRef → Bool

namespace Plain

def empty : Plain := { list := [], entered := fun _ => false, finished := fun _ => false }

/-- The thread's own code becomes the coroutine `m`, the first time. -/
def start (p : Plain) (m : McoRef) : Plain :=
  if p.list = [] then
    { list := [m]
      entered := Function.update p.entered m true
      finished := Function.update p.finished m false }
  else p

def push (p : Plain) (c : McoRef) : Plain :=
  { p with list := c :: p.list, entered := Function.update p.entered c true }

def pop (p : Plain) : Plain := { p with list := p.list.tail }

/-- `c` is resumed: nothing if it runs or has finished, a pop if it is the
    running coroutine's parent, a push otherwise. -/
def resume (p : Plain) (m c : McoRef) : Plain :=
  if p.finished c = true ∨ p.list.head? = some c then p
  else if (p.start m).list.tail.head? = some c then (p.start m).pop
  else (p.start m).push c

/-- The running coroutine's callback ends. -/
def finish (p : Plain) : Plain :=
  match p.list with
  | [] => p
  | c :: l => { p with list := l, finished := Function.update p.finished c true }

def next (p : Plain) : Op → Plain
  | .create _ c _ =>
      { p with
        entered := Function.update p.entered c false
        finished := Function.update p.finished c false }
  | .mainMco _ e => p.start e.main
  | .resume _ none _ => p
  | .resume _ (some c) e => p.resume e.main c
  | .yield _ none _ => p
  | .yield _ (some c) _ => if p.list.head? = some c then p.pop else p
  | .finish _ _ => p.finish
  | .free _ _ => p
  | .write _ _ _ => p

end Plain

/-- The program's state on thread `t` represents the reference's. -/
structure Simulates (w : World) (t : Tid) (p : Plain) : Prop where
  /-- The slots below the index are the list, read from its end. -/
  index : (w.callstack t).index = p.list.length
  slots : ∀ i, i < (w.callstack t).index → (w.callstack t).slot i = p.list.reverse[i]?
  /-- Each coroutine in the list has its `sink` at the next. -/
  sink : ∀ i c r, i < p.list.length → p.list[i]? = some c → w.co c = some r →
    r.sink = p.list[i + 1]?
  running : ∀ c r, w.co c = some r → (r.running = true ↔ p.list.head? = some c)
  exec : w.exec t = p.list.head?
  start : ∀ c r, w.co c = some r → r.start = (p.entered c && !p.finished c)
  done : ∀ c r, w.co c = some r → r.done = p.finished c ∧ r.doneYield = p.finished c
  /-- A callback is called at most once, when the coroutine is entered. -/
  once : ∀ c r, w.co c = some r → r.coctx.coruns ≤ 1 ∧
    (p.entered c = false → r.coctx.coruns = 0)
  /-- Whoever the thread executes or will return to has not finished. -/
  alive : ∀ c, c ∈ p.list → (w.co c).isSome ∧ p.finished c = false

/-- The invariant behind the simulation. -/
structure Follows (w : World) (f : Frames) (t : Tid) (p : Plain) : Prop where
  carried : Carried w f t
  list : f t = p.list
  flags : ∀ c r, w.ctl c = some r → r.doneYield = p.finished c ∧
    r.start = (p.entered c && !p.finished c)
  fresh : ∀ c, p.finished c = true → p.entered c = true

/-- At the start both stacks are empty. -/
theorem follows_init {w : World} (h : Init w) (t : Tid) :
    Follows w (fun _ => []) t Plain.empty := by
  refine ⟨carried_init h t, rfl, fun c r hr => ?_, fun c hc => by cases hc⟩
  rw [ctl_eq_none.mpr (h.co c)] at hr
  cases hr

namespace Follows

variable {w w' : World} {f : Frames} {t : Tid} {p : Plain}

theorem unfinished_of_mem (hf : Follows w f t p) {c : McoRef} (hc : c ∈ p.list) :
    p.finished c = false := by
  rw [← hf.list] at hc
  rcases hf.carried.orderly.started t c hc with ⟨r, hr, _⟩
  rw [← (hf.flags c r hr).1]
  exact hf.carried.orderly.unfinished hc hr

/-- The coroutine on top runs, and no other. -/
theorem running_iff (hf : Follows w f t p) {c : McoRef} {r : McoRoutine} (hr : w.ctl c = some r) :
    r.running = true ↔ p.list.head? = some c := by
  rw [← hf.list]
  constructor
  · intro hrun
    exact hf.carried.head_of_running hr hrun
  · intro hhead
    have hruns := hf.carried.orderly.steady.head_runs hhead
    rw [runs_of_ctl hr] at hruns
    injection hruns

theorem simulates (hf : Follows w f t p) : Simulates w t p := by
  have hs := hf.carried.orderly.steady
  have hh := hs.holds t
  rw [hf.list] at hh
  have hlen := hh.length
  refine ⟨hlen.symm, ?_, ?_, ?_, ?_, ?_, ?_, ?_, ?_⟩
  · intro i hi
    rw [hh.slot_eq hi, List.getElem?_reverse (by omega), hlen]
  · intro i c r hi hc hr
    have hl := hf.carried.orderly.linked t
    rw [hf.list] at hl
    rw [← hl.below_eq hi hc, sinkOf_ctl (ctl_of_co hr)]
    rfl
  · intro c r hr
    have h := hf.running_iff (ctl_of_co hr)
    exact h
  · rw [hs.exec t, hf.list]
  · intro c r hr
    exact (hf.flags c _ (ctl_of_co hr)).2
  · intro c r hr
    have hdy := (hf.flags c _ (ctl_of_co hr)).1
    have hd := (hs.sound c _ (ctl_of_co hr)).done
    exact ⟨hd.trans hdy, hdy⟩
  · intro c r hr
    have hsound := hs.sound c _ (ctl_of_co hr)
    refine ⟨hsound.calls, fun hent => ?_⟩
    have hfl := hf.flags c _ (ctl_of_co hr)
    -- What has not been entered has not finished either.
    have hfin : p.finished c = false := by
      cases hp : p.finished c with
      | false => rfl
      | true =>
          rw [hf.fresh c hp] at hent
          cases hent
    rw [hent, hfin] at hfl
    exact hsound.fresh hfl.2 hfl.1
  · intro c hc
    refine ⟨?_, hf.unfinished_of_mem hc⟩
    rw [← hf.list] at hc
    rcases hs.ready t c hc with ⟨r, hr, _⟩
    rw [← ctl_isSome, hr]
    rfl

/-- Taking the topmost coroutine off, with or without an end. -/
theorem popped {c s : McoRef} {l : List McoRef} {ended : Bool} (hf : Follows w f t p)
    (hfc : f t = c :: s :: l) (hp : Popped w w' t c s ended)
    (hc : Carried w' (Function.update f t (s :: l)) t) :
    Follows w' (Function.update f t (s :: l)) t
      { p with list := s :: l, finished := if ended then Function.update p.finished c true
        else p.finished } := by
  rcases hp.ctl_from with ⟨rc, rc', hrc, _, hrc', hy⟩
  rcases hp.ctl_to with ⟨rs, hrs, hrs'⟩
  have hmem : c ∈ p.list := by
    rw [← hf.list, hfc]
    exact List.mem_cons_self
  have hdy : rc.doneYield = false := by
    rw [(hf.flags c rc hrc).1]
    exact hf.unfinished_of_mem hmem
  have hdn : rc.done = false := by
    rw [(hf.carried.orderly.steady.sound c rc hrc).done, hdy]
  have hent : p.entered c = true := by
    have hst := (hf.flags c rc hrc).2
    rcases hf.carried.orderly.started t c (by rw [hf.list]; exact hmem) with ⟨r0, hr0, hst0⟩
    rw [hrc] at hr0
    injection hr0 with hr0
    rw [hr0, hst0, hf.unfinished_of_mem hmem, Bool.not_false, Bool.and_true] at hst
    exact hst.symm
  -- `done` was not set before, so it is set exactly if the callback ends here.
  have hdone : (rc.ending ended).done = ended := by
    simp only [McoRoutine.ending, hdn, Bool.false_or]
  refine ⟨hc, by rw [Function.update_self], ?_, ?_⟩
  · intro d rd hrd
    by_cases hdc : d = c
    · rw [hdc, hrc'] at hrd
      injection hrd with hrd
      rw [← hrd, hdc, hy.start, hy.doneYield, hdone]
      cases ended with
      | true =>
          simp only [if_true, Function.update_self, Bool.not_true, Bool.and_false, and_self]
      | false =>
          simp only [Bool.false_eq_true, if_false]
          exact hf.flags c rc hrc
    · have hfin : (if ended then Function.update p.finished c true else p.finished) d
          = p.finished d := by
        cases ended with
        | true => simp only [if_true, Function.update_of_ne hdc]
        | false => simp only [Bool.false_eq_true, if_false]
      change rd.doneYield = (if ended then Function.update p.finished c true else p.finished) d ∧
        rd.start = (p.entered d && !(if ended then Function.update p.finished c true
          else p.finished) d)
      rw [hfin]
      by_cases hds : d = s
      · rw [hds, hrs'] at hrd
        injection hrd with hrd
        rw [← hrd, hds]
        exact hf.flags s rs hrs
      · rw [hp.ctl_other d hdc hds] at hrd
        exact hf.flags d rd hrd
  · intro d hd
    by_cases hdc : d = c
    · rw [hdc]
      exact hent
    · cases ended with
      | true =>
          simp only [if_true, Function.update_of_ne hdc] at hd
          exact hf.fresh d hd
      | false =>
          simp only [Bool.false_eq_true, if_false] at hd
          exact hf.fresh d hd

/-- A push is a push of the plain stack. -/
theorem pushed {cur c : McoRef} {r : McoRoutine} {l : List McoRef} (hf : Follows w f t p)
    (hfc : f t = cur :: l) (hr : w.ctl c = some r) (hfin : r.finished = false)
    (hp : Pushed w w' t cur c) (hc : Carried w' (Function.update f t (c :: cur :: l)) t) :
    Follows w' (Function.update f t (c :: cur :: l)) t (p.push c) := by
  rcases hp.ctl_from with ⟨rc, hrc, hrc'⟩
  rcases hp.ctl_to with ⟨r0, r', hr0, hr', hres⟩
  rw [hr] at hr0
  injection hr0 with hr0
  rw [← hr0] at hres
  have hdy : r.doneYield = false :=
    (hf.carried.orderly.steady.sound c r hr).unfinished.mp hfin
  refine ⟨hc, ?_, ?_, ?_⟩
  · rw [Function.update_self]
    change c :: cur :: l = c :: p.list
    rw [← hf.list, hfc]
  · intro d rd hrd
    by_cases hdc : d = c
    · rw [hdc, hr'] at hrd
      injection hrd with hrd
      rw [← hrd, hdc]
      change r'.doneYield = p.finished c ∧
        r'.start = (Function.update p.entered c true c && !p.finished c)
      rw [hres.doneYield, hres.start, Function.update_self, ← (hf.flags c r hr).1, hdy]
      exact ⟨rfl, rfl⟩
    · change rd.doneYield = p.finished d ∧
        rd.start = (Function.update p.entered c true d && !p.finished d)
      rw [Function.update_of_ne hdc]
      by_cases hdcur : d = cur
      · rw [hdcur, hrc'] at hrd
        injection hrd with hrd
        rw [← hrd, hdcur]
        exact hf.flags cur rc hrc
      · rw [hp.ctl_other d hdcur hdc] at hrd
        exact hf.flags d rd hrd
  · intro d hd
    change Function.update p.entered c true d = true
    by_cases hdc : d = c
    · rw [hdc, Function.update_self]
    · rw [Function.update_of_ne hdc]
      exact hf.fresh d hd

/-- `MainMco` puts the main coroutine of a new thread at the bottom. -/
theorem mainMco {e : CallSite} (hf : Follows w f t p) (hfresh : w.FreshMain t e) :
    Follows (w.mainMco t e).1 (booted f t e.main) t (p.start e.main) := by
  have hc := (hf.carried.mainMco hfresh).1
  unfold Plain.start
  by_cases hnil : f t = []
  · have h0 := (hf.carried.orderly.steady.empty_iff t).mpr hnil
    have hpn : p.list = [] := by rw [← hf.list, hnil]
    rcases (mainMco_booted w t e h0).ctl with ⟨size, sp, hctl⟩
    rw [if_pos hpn]
    refine ⟨hc, ?_, ?_, ?_⟩
    · rw [booted, if_pos hnil, Function.update_self]
    · intro d rd hrd
      rw [hctl] at hrd
      by_cases hd : d = e.main
      · rw [hd, Function.update_self] at hrd
        injection hrd with hrd
        rw [← hrd, hd]
        simp only [Function.update_self, mainRecord, Bool.not_false, Bool.and_true, and_self]
      · rw [Function.update_of_ne hd] at hrd
        simp only [Function.update_of_ne hd]
        exact hf.flags d rd hrd
    · intro d hd
      by_cases hdm : d = e.main
      · simp only [hdm, Function.update_self]
      · simp only [Function.update_of_ne hdm] at hd ⊢
        exact hf.fresh d hd
  -- The thread has a main coroutine already, and neither does anything.
  · rw [if_neg (by rw [← hf.list]; exact hnil)]
    have hne : (w.callstack t).index ≠ 0 :=
      fun h0 => hnil ((hf.carried.orderly.steady.empty_iff t).mp h0)
    rw [mainMco_of_nonempty hne, booted_of_nonempty hnil]
    exact hf

theorem start_of_cons {c : McoRef} {l : List McoRef} (m : McoRef) (h : p.list = c :: l) :
    p.start m = p := by
  unfold Plain.start
  rw [if_neg]
  rw [h]
  exact List.cons_ne_nil c l

/-- Where the program has nothing to resume, nor has the reference. -/
theorem resume_idle {m c : McoRef} {r : McoRoutine} (hf : Follows w f t p) (hr : w.co c = some r)
    (hq : r.running = true ∨ r.finished = true) : p.resume m c = p := by
  unfold Plain.resume
  rw [if_pos]
  rcases hq with hrun | hfin
  · have h := hf.running_iff (ctl_of_co hr)
    exact Or.inr (h.mp hrun)
  · left
    rw [← (hf.flags c _ (ctl_of_co hr)).1]
    rw [McoRoutine.finished, Bool.and_eq_true] at hfin
    exact hfin.2

/-- The plain stack pops when what is resumed lies below its top. -/
theorem resume_active {m c : McoRef} {r : McoRoutine} (hf : Follows w f t p) (hr : w.co c = some r)
    (hrun : r.running = false) (hfin : r.finished = false) :
    p.resume m c = if (p.start m).list.tail.head? = some c then (p.start m).pop
      else (p.start m).push c := by
  unfold Plain.resume
  rw [if_neg]
  rintro (h | h)
  · rw [← (hf.flags c _ (ctl_of_co hr)).1] at h
    have hdy := (hf.carried.orderly.steady.sound c _ (ctl_of_co hr)).unfinished.mp hfin
    rw [hdy] at h
    cases h
  · have hiff := hf.running_iff (ctl_of_co hr)
    have hrun' := hiff.mpr h
    have hrun'' : r.running = true := hrun'
    rw [hrun] at hrun''
    cases hrun''

/-! ### The operations -/

theorem created {c : McoRef} {b : Bool} (hf : Follows w f t p) (hsup : w.co c = none) :
    Follows (w.mcoCreate c b) f t (p.next (.create t c b)) := by
  refine ⟨(hf.carried.created hsup).1, hf.list, fun d rd hrd => ?_, fun d hd => ?_⟩
  · rw [mcoCreate_ctl] at hrd
    change rd.doneYield = Function.update p.finished c false d ∧
      rd.start = (Function.update p.entered c false d && !Function.update p.finished c false d)
    by_cases hdc : d = c
    · rw [hdc, Function.update_self] at hrd
      injection hrd with hrd
      rw [hdc, Function.update_self, Function.update_self, ← hrd]
      exact ⟨rfl, rfl⟩
    · rw [Function.update_of_ne hdc] at hrd
      rw [Function.update_of_ne hdc, Function.update_of_ne hdc]
      exact hf.flags d rd hrd
  · change Function.update p.finished c false d = true at hd
    change Function.update p.entered c false d = true
    by_cases hdc : d = c
    · rw [hdc, Function.update_self] at hd
      cases hd
    · rw [Function.update_of_ne hdc] at hd ⊢
      exact hf.fresh d hd

/-- The running coroutine has yielded, which does not finish it. -/
theorem yielded {c s : McoRef} {l : List McoRef} {sp : Nat} (hf : Follows w f t p)
    (hfc : f t = c :: s :: l) (h : w.mcoYield t (some c) sp = .ok w')
    (hp : Popped w w' t c s false) (ho : Orderly w' (Function.update f t (s :: l))) :
    Follows w' (Function.update f t (s :: l)) t p.pop := by
  have hpop : p.pop = { p with list := s :: l, finished := p.finished } := by
    unfold Plain.pop
    rw [← hf.list, hfc]
    rfl
  rw [hpop]
  exact hf.popped hfc hp (hf.carried.yield_pop hfc h hp ho).1

/-- A coroutine that is pushed is nowhere in the list: not in the old one, and
    the new main coroutine is another object. -/
theorem pushed_elsewhere {c : McoRef} {r : McoRoutine} {e : CallSite} (hf : Follows w f t p)
    (hfresh : w.FreshMain t e) (hr : w.co c = some r) (hnot : ∀ u, c ∉ f u) :
    ¬ (p.start e.main).list.tail.head? = some c := by
  intro hc
  have hmem := List.mem_of_mem_tail (List.mem_of_head? hc)
  rw [← (hf.mainMco hfresh).list] at hmem
  unfold booted at hmem
  by_cases hnil : f t = []
  · rw [if_pos hnil, Function.update_self, List.mem_singleton] at hmem
    have h0 := hfresh ((hf.carried.orderly.steady.empty_iff t).mpr hnil)
    rw [← hmem, hr] at h0
    cases h0
  · rw [if_neg hnil] at hmem
    exact hnot t hmem

/-- A resume is one of the plain stack. -/
theorem resumed {co : Option McoRef} {e : CallSite} (hf : Follows w f t p) (hcode : w.InCode t)
    (hfresh : w.FreshMain t e) (hflat : Flat w (.resume t co e))
    (h : w.mcoResume t co e = .ok w') : ∃ f', Follows w' f' t (p.next (.resume t co e)) := by
  have hc := hf.carried
  rcases hc.orderly.resume hcode hfresh hflat h with ⟨rfl, hq⟩ | ⟨c, r, cur, l, hco, hr, hrun,
    hfin, hfb, hcase⟩
  · refine ⟨f, ?_⟩
    cases co with
    | none => exact hf
    | some c =>
        rcases hq c rfl with ⟨r, hr, hrf⟩
        change Follows _ f t (p.resume e.main c)
        rw [hf.resume_idle hr hrf]
        exact hf
  · rw [hco]
    change ∃ f', Follows w' f' t (p.resume e.main c)
    rw [hf.resume_active hr hrun hfin]
    rcases hcase with ⟨l', hl, hfc, hy, hp, ho⟩ | ⟨hnot, heq, hp, ho⟩
    · -- The list is `cur`, `c` and the rest: back to `c`.
      have hpl : p.list = cur :: c :: l' := by rw [← hf.list, hfc]
      rw [Follows.start_of_cons e.main hpl, if_pos (by rw [hpl]; rfl)]
      rw [hl] at ho
      exact ⟨_, hf.yielded hfc hy hp ho⟩
    · have hfm := hf.mainMco hfresh
      have hrb := mainMco_co hfresh hr
      have hcar : Carried w' (Function.update (booted f t e.main) t (c :: cur :: l)) t := by
        rcases heq with ⟨hst, hpush⟩ | ⟨hst, hpush⟩
        · exact (hfm.carried.push_again hfb hrb hst hrun hpush hp ho).1
        · exact (hfm.carried.push_first hfb hrb hst hfin hpush hp ho).1
      rw [if_neg (hf.pushed_elsewhere hfresh hr hnot)]
      exact ⟨_, hfm.pushed hfb (ctl_of_co hrb) hfin hp hcar⟩

/-- So is a yield. -/
theorem yields {co : Option McoRef} {sp : Nat} (hf : Follows w f t p)
    (h : w.mcoYield t co sp = .ok w') : ∃ f', Follows w' f' t (p.next (.yield t co sp)) := by
  rcases hf.carried.orderly.yield h with ⟨rfl, hq⟩ | ⟨c, s, l, hco, hfc, hp, ho⟩
  -- The coroutine is not the running one.
  · refine ⟨f, ?_⟩
    cases co with
    | none => exact hf
    | some c =>
        rcases ctl_of_runs (hq c rfl) with ⟨r, hr, hrun⟩
        change Follows _ f t (if p.list.head? = some c then p.pop else p)
        rw [if_neg]
        · exact hf
        · intro hhead
          have hrun' := (hf.running_iff hr).mpr hhead
          rw [hrun] at hrun'
          cases hrun'
  · rw [hco] at h ⊢
    change ∃ f', Follows w' f' t (if p.list.head? = some c then p.pop else p)
    rw [if_pos (by rw [← hf.list, hfc]; rfl)]
    exact ⟨_, hf.yielded hfc h hp ho⟩

/-- So is the end of a coroutine. -/
theorem finishes {sp : Nat} (hf : Follows w f t p) (h : w.coroutineRun t sp = .ok w') :
    ∃ f', Follows w' f' t (p.next (.finish t sp)) := by
  rcases hf.carried.orderly.finish h with ⟨c, s, l, hfc, hp, ho⟩
  have hpl : p.list = c :: s :: l := by rw [← hf.list, hfc]
  have hpop := hf.popped hfc hp (hf.carried.finish_pop hfc h hp ho).1
  refine ⟨Function.update f t (s :: l), ?_⟩
  have hpp : p.next (.finish t sp)
      = { p with list := s :: l, finished := Function.update p.finished c true } := by
    unfold Plain.next Plain.finish
    simp only [hpl]
  rw [hpp]
  exact hpop

/-- Freeing a coroutine leaves the plain stack as it is. -/
theorem freed {co : Option McoRef} (hf : Follows w f t p) (hflat : Flat w (.free t co))
    (h : w.mcoFree t co = .ok w') : Follows w' f t p := by
  refine ⟨(hf.carried.freed hflat h).1, hf.list, fun d rd hrd => ?_, hf.fresh⟩
  rcases mcoFree_cases h with ⟨_, rfl⟩ | ⟨c, r, _, hr, _, rfl⟩ | ⟨c, r, _, _, _, rfl⟩
  · exact hf.flags d rd hrd
  -- A running coroutine is only marked, which the reference does not see.
  · rw [setCo_ctl] at hrd
    by_cases hdc : d = c
    · rw [hdc, Function.update_self] at hrd
      injection hrd with hrd
      have hfl := hf.flags c _ (ctl_of_co hr)
      rw [← hrd, hdc]
      exact hfl
    · rw [Function.update_of_ne hdc] at hrd
      exact hf.flags d rd hrd
  · rw [mcoFree_ctl] at hrd
    by_cases hdc : d = c
    · rw [hdc, Function.update_self] at hrd
      cases hrd
    · rw [Function.update_of_ne hdc] at hrd
      exact hf.flags d rd hrd

end Follows

/-- One operation of the thread follows the reference machine. -/
theorem follows_step {w w' : World} {f : Frames} {t : Tid} {p : Plain} {a : Op}
    (hf : Follows w f t p) (ha : OnThread t w a) (h : w.step a = .ok w') :
    ∃ f', Follows w' f' t (p.next a) := by
  have hc := hf.carried
  rcases ha with ⟨ht, ⟨hcode, hsup⟩, hd⟩
  have hflat := flat_of_disciplined hc.orderly hc.alone ht hd
  rw [← ht] at hf ⊢
  cases a with
  | create u c b =>
      injection h with h
      rw [← h]
      exact ⟨f, hf.created hsup⟩
  | mainMco u e =>
      injection h with h
      rw [← h]
      exact ⟨_, hf.mainMco hsup⟩
  | resume u co e => exact hf.resumed hcode hsup.2.2 hflat h
  | yield u co sp => exact hf.yields h
  | finish u sp => exact hf.finishes h
  | free u co => exact ⟨f, hf.freed hflat h⟩
  | write u x b =>
      injection h with h
      rw [← h]
      exact ⟨f, (hf.carried.written hsup).1, hf.list, hf.flags, hf.fresh⟩

/-- A run of the thread follows the run of the reference machine. -/
theorem follows_run {w w' : World} {t : Tid} {as : List Op} (hinit : Init w)
    (h : Fallible.Runs World.step (OnThread t) w as w') :
    ∃ f, Follows w' f t (as.foldl Plain.next Plain.empty) := by
  have hsim : ∀ v p a v', (∃ f, Follows v f t p) → OnThread t v a → v.step a = .ok v' →
      ∃ f, Follows v' f t (Plain.next p a) := by
    rintro v p a v' ⟨f, hf⟩ ha hstep
    exact follows_step hf ha hstep
  exact h.simulate (R := fun v p => ∃ f, Follows v f t p) hsim ⟨_, follows_init hinit t⟩

-- Every state a run reaches represents the reference's, and so does the next: the operation
-- returns, so the simulation never gets stuck.
/-- `McoResume` and `McoYield` refine a plain stack of coroutines. -/
theorem plain_stack_refinement {w w' : World} {t : Tid} {as : List Op} (hinit : Init w)
    (h : Fallible.Runs World.step (OnThread t) w as w') :
    Simulates w' t (as.foldl Plain.next Plain.empty) ∧
      ∀ a, OnThread t w' a → ∃ w'', w'.step a = .ok w'' ∧
        Simulates w'' t ((as.foldl Plain.next Plain.empty).next a) := by
  rcases follows_run hinit h with ⟨f, hf⟩
  refine ⟨hf.simulates, fun a ha => ?_⟩
  rcases onThread_returns hf.carried ha with ⟨w'', hstep⟩
  rcases follows_step hf ha hstep with ⟨f', hf'⟩
  exact ⟨w'', hstep, hf'.simulates⟩

/-- A coroutine that resumes another one, which yields, is resumed, and ends. -/
theorem plain_stack_refinement_nested :
    let e : CallSite := { sp := 0, main := 1, mainBlk := 0x7000, blk := 0 }
    let as : List Op := [.create 0 10 false, .create 0 11 false, .resume 0 (some 10) e,
      .resume 0 (some 11) { e with sp := 0x10fe0 }, .yield 0 (some 11) 0x10ff0,
      .resume 0 (some 11) { e with sp := 0x10fe0 }, .finish 0 0x10fe8]
    Simulates (Fallible.after World.step World.blank as) 0 (as.foldl Plain.next Plain.empty) ∧
      ∀ a, OnThread 0 (Fallible.after World.step World.blank as) a →
        ∃ w'', (Fallible.after World.step World.blank as).step a = .ok w'' ∧
          Simulates w'' 0 ((as.foldl Plain.next Plain.empty).next a) :=
  plain_stack_refinement blank_init (Fallible.Checks.runs (by decide))

end Fasco
