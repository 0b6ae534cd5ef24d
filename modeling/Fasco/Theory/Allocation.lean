import Fasco.Theory.Flags

/-!
# The Common Block That Is Not There

The constructor of `McoStackManager` catches what `new` throws and records it
in `ready_`. `createCommonMcoStack` makes a stack record out of the pointer it
has, `InitMcoContext` sees a stack that is not null, and `ready_` is read
nowhere: a coroutine of a thread without a block is started at address 0.

When the block was allocated, everything that `McoResume` switches to lies in
it, in any run on any number of threads: a stack record is made at the start
of its coroutine, from the manager that the coroutine keeps, and what a
manager knows of its block never changes.

## Main definitions

* `Constructed`: Every manager as its constructor leaves it.
* `McoRoutine.manager`: The manager a coroutine has, or gets when it is
  started.
* `StopsStart`: A failed allocation stops the start.
* `Placed`, `Allocated`: The invariant.

## Theorems

* `allocated_step`: Every operation keeps it.
* `stops_start_iff`: The property holds when the allocation has not failed.
* `starts_without_block`: A coroutine is started at address 0.
-/

namespace Fasco

open World

/-- Nothing has been created, and the manager of each thread has just been
    constructed; `alloc` is the outcome of the allocation there. -/
structure Constructed (alloc : Tid → Option Nat) (cs ps : Nat) (w : World) : Prop where
  co : ∀ c, w.co c = none
  stack : ∀ c, w.stack c = none
  callstack : ∀ t, w.callstack t = { callStack := fun _ => none, size := 0, index := 0 }
  exec : ∀ t, w.exec t = none
  mgr : ∀ t, w.mgr t = .construct cs ps (alloc t)

/-- The size of a block. -/
def blockSize (cs ps : Nat) : Nat := (McoStackManager.construct cs ps none).commonSize

/-- The manager the coroutine has, or gets when it is started on `t`. -/
def McoRoutine.manager (r : McoRoutine) (t : Tid) : Option Tid :=
  if r.start then r.stackMgr else some t

/-- `[stack, stack + size)` of the coroutine's stack lies in a block that was
    allocated. -/
def InBlock (alloc : Tid → Option Nat) (cs ps : Nat) (w : World) (c : McoRef) : Prop :=
  ∃ u a s, alloc u = some a ∧ w.stack c = some s ∧ a ≤ s.stack ∧
    s.stack + s.size ≤ a + blockSize cs ps

/-- A call of `McoResume(c)` on `t`, where the manager of `c` is that of `u`:
    it switches only if the stack lies in an allocated block, and if there is
    none, `InitMcoContext` returns false, and the call stacks and the flags are
    as they were, the main coroutine apart. -/
structure StopsStart (alloc : Tid → Option Nat) (cs ps : Nat) (w : World) (t : Tid) (c : McoRef)
    (r : McoRoutine) (u : Tid) (e : CallSite) : Prop where
  inside : ∀ w', w.mcoResume t (some c) e = .ok w' → w'.callstack t ≠ w.callstack t →
    w'.callstack t ≠ (w.mainMco t e).1.callstack t → InBlock alloc cs ps w' c
  refused : alloc u = none → ((w.mainMco t e).1.initMcoContext t c r e.blk).1 = false
  unchanged : alloc u = none → ∀ w', w.mcoResume t (some c) e = .ok w' →
    (w'.callstack = w.callstack ∨ w'.callstack = (w.mainMco t e).1.callstack) ∧
    ∀ d rd, w.co d = some rd → ∃ rd', w'.co d = some rd' ∧ rd'.running = rd.running ∧
      rd'.start = rd.start ∧ rd'.inCallstack = rd.inCallstack

/-! ### The invariant -/

/-- The coroutine `d`, with record `r`, has no stack, or has been started; its
    stack is then its own, or the block its manager has. -/
def Placed (alloc : Tid → Option Nat) (cs ps : Nat) (w : World) (d : McoRef) (r : McoRoutine) :
    Prop :=
  ∀ a n e p, w.shape d = some (a, n, e, p) → (r.start = true ∨ r.finished = true) ∧
    (r.usePrivate = false →
      ∃ u, r.stackMgr = some u ∧ a = (alloc u).getD 0 ∧ n = blockSize cs ps)

/-- Every manager knows the block it was given, and every coroutine is where
    its manager put it. -/
structure Allocated (alloc : Tid → Option Nat) (cs ps : Nat) (w : World) : Prop where
  block : ∀ u, (w.mgr u).commonStack = (alloc u).getD 0 ∧ (w.mgr u).commonSize = blockSize cs ps
  placed : ∀ d r, w.flags d = some r → Placed alloc cs ps w d r

/-- What a coroutine keeps: where it runs, and that it has been started. -/
structure Inherits (r r' : McoRoutine) : Prop where
  usePrivate : r'.usePrivate = r.usePrivate
  stackMgr : r'.stackMgr = r.stackMgr
  begun : r.start = true ∨ r.finished = true → r'.start = true ∨ r'.finished = true

theorem Inherits.refl (r : McoRoutine) : Inherits r r := ⟨rfl, rfl, id⟩

/-- What is inherited is passed on. -/
theorem Inherits.trans {a b c : McoRoutine} (h1 : Inherits a b) (h2 : Inherits b c) :
    Inherits a c :=
  ⟨h2.usePrivate.trans h1.usePrivate, h2.stackMgr.trans h1.stackMgr, fun h => h2.begun (h1.begun h)⟩

/-- A coroutine that gives up its place keeps the rest. -/
theorem inherits_giveUp (r : McoRoutine) : Inherits (bare r) (bare r.giveUp) := by
  cases hd : r.done with
  | true =>
      refine ⟨?_, ?_, fun _ => Or.inr ?_⟩ <;>
        simp only [bare, McoRoutine.giveUp, McoRoutine.endDone, McoRoutine.finished, hd, if_true,
          Bool.and_self]
  | false =>
      refine ⟨?_, ?_, fun h => ?_⟩
      · simp only [bare, McoRoutine.giveUp, McoRoutine.endDone, hd, Bool.false_eq_true, if_false]
      · simp only [bare, McoRoutine.giveUp, McoRoutine.endDone, hd, Bool.false_eq_true, if_false]
      · simpa only [bare, McoRoutine.giveUp, McoRoutine.endDone, McoRoutine.finished, hd,
          Bool.false_eq_true, if_false] using h

section Effects

variable {alloc : Tid → Option Nat} {cs ps : Nat} {w w' : World} {t : Tid} {c s : McoRef}
  {r : McoRoutine}

/-- A coroutine is where it was, or has no stack, or is placed anew. -/
theorem Allocated.step (h : Allocated alloc cs ps w)
    (hblock : ∀ u, (w'.mgr u).commonStack = (w.mgr u).commonStack ∧
      (w'.mgr u).commonSize = (w.mgr u).commonSize)
    (hstep : ∀ d r', w'.flags d = some r' → Placed alloc cs ps w' d r' ∨
      (w'.shape d = w.shape d ∧ ∃ r, w.flags d = some r ∧ Inherits r r')) :
    Allocated alloc cs ps w' := by
  refine ⟨fun u => ?_, fun d r' hr' => ?_⟩
  · rw [(hblock u).1, (hblock u).2]
    exact h.block u
  · rcases hstep d r' hr' with hp | ⟨hsh, r, hr, hin⟩
    · exact hp
    · intro a n e p hs
      rw [hsh] at hs
      rcases h.placed d r hr a n e p hs with ⟨hst, hm⟩
      refine ⟨hin.begun hst, fun hpriv => ?_⟩
      rw [hin.stackMgr]
      exact hm (hin.usePrivate.symm.trans hpriv)

-- Two records are written, and the second write sets a flag only.
theorem inherits_update {fl fl' : McoRef → Option McoRoutine} {x rs y : McoRoutine}
    (hrs : Function.update fl c (some x) s = some rs)
    (hfl : fl' = Function.update (Function.update fl c (some x)) s (some y)) (hy : Inherits rs y)
    {d : McoRef} {r' : McoRoutine} (hr' : fl' d = some r') :
    (d = c ∧ Inherits x r') ∨ (d ≠ c ∧ ∃ r0, fl d = some r0 ∧ Inherits r0 r') := by
  have hfirst : ∀ d r0, Function.update fl c (some x) d = some r0 →
      (d = c ∧ r0 = x) ∨ (d ≠ c ∧ fl d = some r0) := by
    intro d r0 hr0
    by_cases hdc : d = c
    · rw [hdc, Function.update_self] at hr0
      injection hr0 with hr0
      exact Or.inl ⟨hdc, hr0.symm⟩
    · rw [Function.update_of_ne hdc] at hr0
      exact Or.inr ⟨hdc, hr0⟩
  rw [hfl] at hr'
  by_cases hds : d = s
  · rw [hds, Function.update_self] at hr'
    injection hr' with hr'
    rw [← hr', hds]
    rcases hfirst s rs hrs with ⟨hsc, rfl⟩ | ⟨hsc, hr0⟩
    · exact Or.inl ⟨hsc, hy⟩
    · exact Or.inr ⟨hsc, rs, hr0, hy⟩
  · rw [Function.update_of_ne hds] at hr'
    rcases hfirst d r' hr' with ⟨hdc, rfl⟩ | ⟨hdc, hr0⟩
    · exact Or.inl ⟨hdc, Inherits.refl r'⟩
    · exact Or.inr ⟨hdc, r', hr0, Inherits.refl r'⟩

theorem World.TookOff.inherits (h : TookOff w w' t c s r) (hr : w.co c = some r) {d : McoRef}
    {r' : McoRoutine} (hr' : w'.flags d = some r') :
    ∃ r0, w.flags d = some r0 ∧ Inherits r0 r' := by
  rcases h.flags with ⟨rs, hrs, hfl⟩
  rcases inherits_update hrs hfl ⟨rfl, rfl, id⟩ hr' with ⟨rfl, hin⟩ | ⟨_, hin⟩
  · exact ⟨bare r, flags_of_co hr, (inherits_giveUp r).trans hin⟩
  · exact hin

theorem World.PutOn.inherits (h : PutOn w w' t c s r) {d : McoRef} {r' : McoRoutine}
    (hr' : w'.flags d = some r') :
    (d = c ∧ Inherits (bare r) r') ∨ (d ≠ c ∧ ∃ r0, w.flags d = some r0 ∧ Inherits r0 r') := by
  rcases h.flags with ⟨rs, hrs, hfl⟩
  rcases inherits_update hrs hfl ⟨rfl, rfl, id⟩ hr' with ⟨hdc, hin⟩ | hin
  · have htake : Inherits (bare r) (bare (r.takeOver (some s))) := ⟨rfl, rfl, id⟩
    exact Or.inl ⟨hdc, htake.trans hin⟩
  · exact Or.inr hin

/-- Taking a coroutine off moves no stack. -/
theorem Allocated.tookOff (h : Allocated alloc cs ps w) (ht : TookOff w w' t c s r)
    (hr : w.co c = some r) : Allocated alloc cs ps w' :=
  h.step ht.block (fun d _ hr' => Or.inr ⟨congrFun ht.shape d, ht.inherits hr hr'⟩)

theorem Allocated.putOn (h : Allocated alloc cs ps w) (hp : PutOn w w' t c s r)
    (hr : w.co c = some r) : Allocated alloc cs ps w' := by
  refine h.step hp.block (fun d r' hr' => Or.inr ⟨congrFun hp.shape d, ?_⟩)
  rcases hp.inherits hr' with ⟨rfl, hin⟩ | ⟨_, hin⟩
  · exact ⟨bare r, flags_of_co hr, hin⟩
  · exact hin

/-- A coroutine that is started is put where the manager of the thread says. -/
theorem Allocated.started {blk : Nat} (h : Allocated alloc cs ps w)
    (hp : PutOn (w.started t c r blk).1 w' t c s (w.started t c r blk).2) :
    Allocated alloc cs ps w' := by
  have hother : ∀ d, d ≠ c → (w.started t c r blk).1.shape d = w.shape d ∧
      (w.started t c r blk).1.flags d = w.flags d := by
    intro d hd
    simp only [World.started, shape, World.flags, initMcoContext, setCo, setStack,
      Function.update_of_ne hd, and_self]
  refine h.step hp.block (fun d r' hr' => ?_)
  rcases hp.inherits hr' with ⟨rfl, hin⟩ | ⟨hdc, r0, hr0, hin⟩
  · left
    intro a n e p hs
    rw [hp.shape] at hs
    refine ⟨hin.begun (Or.inl rfl), fun hpriv => ⟨t, hin.stackMgr, ?_⟩⟩
    have hcommon : r.usePrivate = false := hin.usePrivate.symm.trans hpriv
    simp only [World.started, shape, initMcoContext, setCo, setStack, Function.update_self, hcommon,
      Bool.false_eq_true, if_false, Option.map_some, McoStackManager.createCommonMcoStack,
      Option.some.injEq, Prod.mk.injEq] at hs
    rw [← hs.1, ← hs.2.1]
    exact h.block t
  · right
    refine ⟨(congrFun hp.shape d).trans (hother d hdc).1, r0, ?_, hin⟩
    rw [← (hother d hdc).2]
    exact hr0

/-- Nor does `MainMco`. -/
theorem Allocated.mainMco {e : CallSite} (h : Allocated alloc cs ps w) :
    Allocated alloc cs ps (w.mainMco t e).1 := by
  by_cases h0 : (w.callstack t).index = 0
  · have hb := mainMco_booted w t e h0
    rcases mainMco_flags h0 with ⟨size, sp, hfl⟩
    refine h.step (fun u => by rw [hb.mgr]; exact ⟨rfl, rfl⟩) (fun d r' hr' => ?_)
    rw [hfl] at hr'
    by_cases hd : d = e.main
    · rw [hd, Function.update_self] at hr'
      injection hr' with hr'
      rw [← hr']
      exact Or.inl (fun a n e p _ => ⟨Or.inl rfl, fun hpriv => by cases hpriv⟩)
    · rw [Function.update_of_ne hd] at hr'
      exact Or.inr ⟨hb.shape d hd, r', hr', Inherits.refl r'⟩
  · rw [mainMco_of_nonempty h0]
    exact h

-- A change of a record that leaves its coroutine where it is.
theorem Allocated.setCo {r' : McoRoutine} (h : Allocated alloc cs ps w) (hr : w.co c = some r)
    (hin : Inherits (bare r) (bare r')) : Allocated alloc cs ps (w.setCo c r') := by
  refine h.step (fun _ => ⟨rfl, rfl⟩) (fun d rd hrd => Or.inr ⟨rfl, ?_⟩)
  rw [setCo_flags] at hrd
  by_cases hd : d = c
  · rw [hd, Function.update_self] at hrd
    injection hrd with hrd
    rw [← hrd, hd]
    exact ⟨bare r, flags_of_co hr, hin⟩
  · rw [Function.update_of_ne hd] at hrd
    exact ⟨rd, hrd, Inherits.refl rd⟩

theorem Allocated.yield {co : Option McoRef} {sp : Nat} (h : Allocated alloc cs ps w)
    (hy : w.mcoYield t co sp = .ok w') : Allocated alloc cs ps w' := by
  rcases mcoYield_flags hy with ⟨rfl, _⟩ | ⟨c, r, s, _, hr, _, _, htook⟩
  · exact h
  · exact h.tookOff htook hr

/-- A resume places what it starts where the manager says. -/
theorem Allocated.resume {co : Option McoRef} {e : CallSite} (h : Allocated alloc cs ps w)
    (hfresh : w.FreshMain t e) (hy : w.mcoResume t co e = .ok w') : Allocated alloc cs ps w' := by
  rcases mcoResume_cases hy with ⟨rfl, _⟩ | ⟨c, r, cur, rcur, _, hr, _, _, _, _, ⟨_, hy⟩ |
    ⟨_, _, hp⟩ | ⟨_, _, hp⟩⟩
  · exact h
  · exact h.mainMco.yield hy
  · rcases pushCallstack_flags hp with ⟨s, hput⟩
    exact h.mainMco.putOn hput (mainMco_co hfresh hr)
  · rcases pushCallstack_flags hp with ⟨s, hput⟩
    exact h.mainMco.started hput

theorem Allocated.finish {sp : Nat} (h : Allocated alloc cs ps w)
    (hf : w.coroutineRun t sp = .ok w') : Allocated alloc cs ps w' := by
  rcases coroutineRun_flags hf with ⟨c, r, s, _, hr, _, _, htook⟩
  have hin : Inherits (bare r) (bare { r with done := true }) := by
    refine ⟨rfl, rfl, Or.imp id fun hfin => ?_⟩
    have hfin' : (r.done && r.doneYield) = true := hfin
    rw [Bool.and_eq_true] at hfin'
    change (true && r.doneYield) = true
    rw [hfin'.2, Bool.and_self]
  exact (h.setCo hr hin).tookOff htook (Function.update_self _ _ _)

theorem Allocated.created {p : Bool} (h : Allocated alloc cs ps w) :
    Allocated alloc cs ps (w.mcoCreate c p) := by
  refine h.step (fun _ => ⟨rfl, rfl⟩) (fun d r' hr' => ?_)
  by_cases hd : d = c
  · -- A new coroutine has no stack.
    left
    intro a n e q hs
    rw [hd, shape] at hs
    simp only [mcoCreate, Function.update_self, Option.map_none] at hs
    cases hs
  · right
    refine ⟨?_, r', ?_, Inherits.refl r'⟩
    · simp only [shape, mcoCreate, Function.update_of_ne hd]
    · rw [← hr', World.flags, World.flags]
      simp only [mcoCreate, Function.update_of_ne hd]

/-- Freeing a coroutine takes its own stack only. -/
theorem Allocated.freed {u : Tid} {co : Option McoRef} (h : Allocated alloc cs ps w)
    (hf : w.mcoFree u co = .ok w') : Allocated alloc cs ps w' := by
  rcases mcoFree_cases hf with ⟨_, rfl⟩ | ⟨c, r, _, hr, _, rfl⟩ | ⟨c, r, _, _, _, rfl⟩
  · exact h
  · exact h.setCo hr ⟨rfl, rfl, id⟩
  · refine h.step (fun v => ?_) (fun d r' hr' => Or.inr ?_)
    · by_cases ho : (w.mgr u).commonOccupy = some c
      · simp only [if_pos ho]
        exact (setCommonOccupy_sameControl w u none).block v
      · simp only [if_neg ho, and_self]
    · rw [flags_ctl, mcoFree_ctl] at hr'
      by_cases hd : d = c
      · rw [hd, Function.update_self] at hr'
        cases hr'
      · rw [Function.update_of_ne hd, ← flags_ctl] at hr'
        exact ⟨by simp only [shape, Function.update_of_ne hd], r', hr', Inherits.refl r'⟩

end Effects

/-- Every operation keeps coroutines where they were put. -/
theorem allocated_step {alloc : Tid → Option Nat} {cs ps : Nat} {w w' : World} {a : Op}
    (h : Allocated alloc cs ps w) (ha : Admissible w a) (hstep : w.step a = .ok w') :
    Allocated alloc cs ps w' := by
  cases a with
  | create t c p =>
      injection hstep with hstep
      rw [← hstep]
      exact h.created
  | mainMco t e =>
      injection hstep with hstep
      rw [← hstep]
      exact h.mainMco
  | resume t co e => exact h.resume ha.2.2.2 hstep
  | yield t co sp => exact h.yield hstep
  | finish t sp => exact h.finish hstep
  | free t co => exact h.freed hstep
  | write t x b =>
      injection hstep with hstep
      rw [← hstep]
      exact ⟨h.block, h.placed⟩

theorem allocated_init {alloc : Tid → Option Nat} {cs ps : Nat} {w : World}
    (h : Constructed alloc cs ps w) : Allocated alloc cs ps w := by
  refine ⟨fun u => by rw [h.mgr u]; exact ⟨rfl, rfl⟩, fun d r hr => ?_⟩
  rw [World.flags, h.co d] at hr
  cases hr

/-- A stack that its coroutine's manager was asked for lies in the block of
    the manager. -/
theorem Allocated.inBlock {alloc : Tid → Option Nat} {cs ps : Nat} {w : World} {c : McoRef}
    {r : McoRoutine} {u : Tid} (h : Allocated alloc cs ps w) (hr : w.flags c = some r)
    (hcommon : r.usePrivate = false) (hs : (w.shape c).isSome) (hu : r.stackMgr = some u)
    (hsome : (alloc u).isSome) : InBlock alloc cs ps w c := by
  rcases Option.isSome_iff_exists.mp hsome with ⟨a, ha⟩
  cases hst : w.stack c with
  | none =>
      rw [shape, hst] at hs
      cases hs
  | some s =>
      have hsh : w.shape c = some (s.stack, s.size, s.stackBp, s.isPrivate) := by
        rw [shape, hst]
        rfl
      rcases (h.placed c r hr _ _ _ _ hsh).2 hcommon with ⟨v, hv, hstack, hsize⟩
      rw [hu] at hv
      injection hv with hv
      rw [← hv, ha, Option.getD_some] at hstack
      exact ⟨u, a, s, ha, hst, by omega, by omega⟩

/-- A `McoResume` that switches to a coroutine on a common block switches to
    one that lies in the block of its manager, if there is one. -/
theorem Allocated.switch_inBlock {alloc : Tid → Option Nat} {cs ps : Nat} {w w' : World} {t : Tid}
    {c : McoRef} {r : McoRoutine} {u : Tid} {e : CallSite} (h : Allocated alloc cs ps w)
    (hfresh : w.FreshMain t e) (hr : w.co c = some r) (hcommon : r.usePrivate = false)
    (hu : r.manager t = some u) (hsome : (alloc u).isSome)
    (hres : w.mcoResume t (some c) e = .ok w') (hne : w'.callstack t ≠ w.callstack t)
    (hnem : w'.callstack t ≠ (w.mainMco t e).1.callstack t) : InBlock alloc cs ps w' c := by
  have h' := h.resume hfresh hres
  have hrm := flags_of_co (mainMco_co hfresh hr)
  -- Whatever `c` has become, it has kept its manager.
  have hkept : ∀ {r'}, w'.flags c = some r' → (w'.shape c).isSome → r'.usePrivate = false →
      r'.stackMgr = some u → InBlock alloc cs ps w' c :=
    fun hr' hs hp hm => h'.inBlock hr' hp hs hm hsome
  have hpushed : ∀ {b r1 s}, PutOn b w' t c s r1 → r1.usePrivate = r.usePrivate →
      r1.stackMgr = some u → InBlock alloc cs ps w' c := by
    intro b r1 s hput hp hm
    rcases hput.live with ⟨r', hr'⟩
    rcases hput.inherits hr' with ⟨_, hin⟩ | ⟨hbad, _⟩
    · exact hkept hr' (by rw [hput.shape]; exact hput.stacked)
        (hin.usePrivate.trans (hp.trans hcommon)) (hin.stackMgr.trans hm)
    · exact absurd rfl hbad
  unfold McoRoutine.manager at hu
  rcases mcoResume_cases hres with ⟨rfl, _⟩ | ⟨c', r0, cur, rcur, hc, hr0, _, hfin, _, hrcur,
    hcase⟩
  · exact absurd rfl hne
  · injection hc with hc
    rw [← hc, hr] at hr0
    injection hr0 with hr0
    rw [← hc, ← hr0] at hcase
    rw [← hr0] at hfin
    rcases hcase with ⟨hsink, hy⟩ | ⟨_, hst, hp⟩ | ⟨_, hst, hp⟩
    · rcases mcoYield_flags hy with ⟨rfl, _⟩ | ⟨d, rd, s, hd, hrd, _, _, htook⟩
      · exact absurd rfl hnem
      · injection hd with hd
        rw [← hd, hrcur] at hrd
        injection hrd with hrd
        have hs := htook.sink
        rw [← hrd, hsink] at hs
        injection hs with hs
        have hstacked := htook.stacked
        rw [← hs] at hstacked htook
        -- A coroutine with a stack has been started.
        rcases Option.isSome_iff_exists.mp hstacked with ⟨⟨a, n, b, p⟩, hsh⟩
        have hbegun := (h.mainMco.placed c _ hrm a n b p hsh).1
        have hst : r.start = true := by
          rcases hbegun with hst | hbad
          · exact hst
          · have hbad' : r.finished = true := hbad
            rw [hfin] at hbad'
            cases hbad'
        rw [if_pos hst] at hu
        rcases htook.flags with ⟨rs, _, hfl⟩
        have hr' : w'.flags c = some { rs with running := true } := by
          rw [hfl, Function.update_self]
        rw [← hd, ← hrd] at htook
        rcases htook.inherits hrcur hr' with ⟨r1, hr1, hin⟩
        rw [hrm] at hr1
        injection hr1 with hr1
        rw [← hr1] at hin
        exact hkept hr' (by rw [htook.shape]; exact hstacked) (hin.usePrivate.trans hcommon)
          (hin.stackMgr.trans hu)
    · rcases pushCallstack_flags hp with ⟨s, hput⟩
      rw [if_pos hst] at hu
      exact hpushed hput rfl hu
    · rcases pushCallstack_flags hp with ⟨s, hput⟩
      rw [hst, if_neg (by decide)] at hu
      exact hpushed hput rfl hu

/-- `InitMcoContext` reports success in every case. -/
theorem initMcoContext_returns (w : World) (t : Tid) (c : McoRef) (r : McoRoutine) (blk : Nat) :
    (w.initMcoContext t c r blk).1 = true := by
  simp only [initMcoContext, setCo, setStack, Function.update_self, Option.isSome_some]

/-- In every state that is reached from constructed managers, a call of
    `McoResume` of a coroutine on a common block does what it should about a
    failed allocation exactly if the allocation has not failed. -/
theorem stops_start_iff {alloc : Tid → Option Nat} {cs ps : Nat} {w₀ w : World} {as : List Op}
    {t : Tid} {c : McoRef} {r : McoRoutine} {u : Tid} {e : CallSite}
    (hinit : Constructed alloc cs ps w₀) (hrun : Fallible.Runs World.step Admissible w₀ as w)
    (hadm : Admissible w (.resume t (some c) e)) (hr : w.co c = some r)
    (hcommon : r.usePrivate = false) (hu : r.manager t = some u) :
    StopsStart alloc cs ps w t c r u e ↔ (alloc u).isSome := by
  have hall : Allocated alloc cs ps w :=
    hrun.invariant (fun _ _ _ h ha hstep => allocated_step h ha hstep) (allocated_init hinit)
  constructor
  · intro h
    cases ha : alloc u with
    | some a => rfl
    | none =>
        -- `InitMcoContext` has a stack record, whatever it points to.
        have hret := h.refused ha
        rw [initMcoContext_returns] at hret
        cases hret
  · intro hsome
    have hno : alloc u ≠ none := by
      rintro hnone
      rw [hnone] at hsome
      cases hsome
    exact ⟨fun w' hres hne hnem =>
        hall.switch_inBlock hadm.2.2.2 hr hcommon hu hsome hres hne hnem,
      fun hnone => absurd hnone hno, fun hnone => absurd hnone hno⟩

/-- Managers that have been asked for 100 bytes. -/
def World.constructed (alloc : Tid → Option Nat) : World :=
  { World.blank with mgr := fun t => .construct 100 100 (alloc t) }

theorem constructed_constructed (alloc : Tid → Option Nat) :
    Constructed alloc 100 100 (World.constructed alloc) :=
  ⟨fun _ => rfl, fun _ => rfl, fun _ => rfl, fun _ => rfl, fun _ => rfl⟩

/-- Two threads, and a block each. -/
theorem stops_start_iff_two :
    let alloc : Tid → Option Nat := fun t => some (0x10000 * (t + 1))
    let e : CallSite := { sp := 0x10800, main := 1, mainBlk := 0x7000, blk := 0 }
    let w := Fallible.after World.step (World.constructed alloc) [.create 0 10 false,
      .resume 0 (some 10) e, .create 1 11 false]
    let e' : CallSite := { e with main := 2, mainBlk := 0x8000 }
    ∃ r, w.co 11 = some r ∧ (StopsStart alloc 100 100 w 1 11 r 1 e' ↔ (alloc 1).isSome) :=
  ⟨_, rfl, stops_start_iff (constructed_constructed fun t => some (0x10000 * (t + 1)))
    (Fallible.Checks.runs (by decide)) (by decide) rfl rfl rfl⟩

/-- The allocation has failed, and the coroutine is started: it is on top of
    the call stack, the thread executes it, and its stack is `[0, 0x1000)`. -/
theorem starts_without_block :
    let w := Fallible.after World.step (World.constructed fun _ => none) [.create 0 10 false]
    let e : CallSite := { sp := 0x800, main := 1, mainBlk := 0x7000, blk := 0 }
    let w' := Fallible.next World.step w (.resume 0 (some 10) e)
    Constructed (fun _ => none) 100 100 (World.constructed fun _ => none) ∧
      Fallible.Checks World.step Admissible (World.constructed fun _ => none)
        [.create 0 10 false, .resume 0 (some 10) e] ∧
      w'.top 0 = some 10 ∧ w'.exec 0 = some 10 ∧
      (w'.stack 10).map (fun s => (s.stack, s.size)) = some (0, 0x1000) ∧
      ∃ r, w.co 10 = some r ∧ ¬ StopsStart (fun _ => none) 100 100 w 0 10 r 0 e := by
  refine ⟨constructed_constructed _, by decide, rfl, rfl, rfl, _, rfl, fun h => ?_⟩
  have hret := h.refused rfl
  rw [initMcoContext_returns] at hret
  cases hret

end Fasco
