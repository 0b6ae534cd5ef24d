import Fasco.Theory.Steady

/-!
# The Call Stack in Order

What callers that behave can rely on. `McoResume` treats only the coroutine
that resumed the caller specially; any other it pushes, also one that is
already waiting further down. As long as no thread does that, the call stacks
hold distinct coroutines, no two threads share one, and every `sink` points to
the entry below.

`Orderly` is this invariant, on top of `Steady`, for any number of threads.
From it a thread can always pop (`Orderly.poppable`): a coroutine that passes
the assertion of `McoYield` is the caller's own, and the one below it waits.

## Main definitions

* `World.Waits`: A coroutine lies in a call stack below the top.
* `World.parent`: The coroutine that resumed the running one.
* `Flat`: The promise of a caller of `McoResume` and `McoFree`.
* `Orderly`: The call stacks hold distinct, linked coroutines.

## Theorems

* `Orderly.poppable`: A thread can pop.
* `Orderly.pushed`, `Orderly.popped`: The two moves keep the order.
* `Orderly.resume`, `Orderly.yield`, `Orderly.finish`: What each operation
  does to the call stacks.
* `orderly_step`: Every flat operation keeps the order.
-/

namespace Fasco

namespace World

/-- The coroutine lies in `t`'s call stack below the top. -/
def Waits (w : World) (t : Tid) (c : McoRef) : Prop :=
  ∃ i, i + 1 < (w.callstack t).index ∧ (w.callstack t).slot i = some c

/-- The coroutine below the top of `t`'s call stack. -/
def parent (w : World) (t : Tid) : Option McoRef := (w.callstack t).fromTop 2

/-- What a coroutine records as the one that resumed it. -/
def sinkOf (w : World) (c : McoRef) : Option McoRef := (w.ctl c).bind (fun r => r.sink)

theorem sinkOf_ctl {w : World} {c : McoRef} {r : McoRoutine} (h : w.ctl c = some r) :
    w.sinkOf c = r.sink := by
  rw [sinkOf, h, Option.bind_some]

/-- A push makes the coroutine below the parent of the one on top. -/
theorem Pushed.sinkOf {w w' : World} {t : Tid} {cur c : McoRef} (h : Pushed w w' t cur c)
    (d : McoRef) : w'.sinkOf d = if d = c then some cur else w.sinkOf d := by
  rcases h.ctl_from with ⟨rc, hrc, hrc'⟩
  rcases h.ctl_to with ⟨r, r', _, hr', hres⟩
  by_cases hdc : d = c
  · rw [if_pos hdc, hdc, sinkOf_ctl hr', hres.sink]
  · rw [if_neg hdc]
    by_cases hd : d = cur
    · rw [hd, sinkOf_ctl hrc', sinkOf_ctl hrc]
      rfl
    · rw [World.sinkOf, World.sinkOf, h.ctl_other d hd hdc]

/-- A pop changes no parent. -/
theorem Popped.sinkOf {w w' : World} {t : Tid} {c s : McoRef} {ended : Bool}
    (h : Popped w w' t c s ended) (d : McoRef) : w'.sinkOf d = w.sinkOf d := by
  rcases h.ctl_from with ⟨rc, rc', hrc, _, hrc', hy⟩
  rcases h.ctl_to with ⟨rs, hrs, hrs'⟩
  by_cases hdc : d = c
  · rw [hdc, sinkOf_ctl hrc', sinkOf_ctl hrc, hy.sink]
    rfl
  · by_cases hds : d = s
    · rw [hds, sinkOf_ctl hrs', sinkOf_ctl hrs]
    · rw [World.sinkOf, World.sinkOf, h.ctl_other d hdc hds]

end World

open World

/-- A coroutine that waits is resumed only by the coroutine it resumed, and is
    not freed. -/
def Flat (w : World) : Op → Prop
  | .resume t (some c) _ => ∀ u, w.Waits u c → u = t ∧ w.parent t = some c
  | .free _ (some c) => ∀ u, ¬ w.Waits u c
  | _ => True

/-- The call stacks hold distinct coroutines, none in two of them, each
    started and with its `sink` at the entry below. -/
structure Orderly (w : World) (f : Frames) : Prop where
  steady : Steady w f
  nodup : ∀ t, (f t).Nodup
  disjoint : ∀ t u c, c ∈ f t → c ∈ f u → t = u
  linked : ∀ t, Slots.Linked w.sinkOf (f t)
  started : ∀ t c, c ∈ f t → ∃ r, w.ctl c = some r ∧ r.start = true

theorem orderly_init {w : World} (h : Init w) : Orderly w (fun _ => []) :=
  ⟨steady_init h, fun _ => List.nodup_nil, fun _ _ _ hc => absurd hc List.not_mem_nil,
    fun _ => trivial, fun _ _ hc => absurd hc List.not_mem_nil⟩

namespace Orderly

variable {w w' : World} {f : Frames} {t : Tid}

-- A coroutine in a call stack waits unless it is on top.
theorem waits_iff (ho : Orderly w f) {c : McoRef} :
    w.Waits t c ↔ c ∈ (f t).tail := by
  have hh := ho.steady.holds t
  have hlen := hh.length
  constructor
  · rintro ⟨i, hi, hc⟩
    have hp := hh.pop
    exact hp.slot_mem (by omega) hc
  · intro hc
    rcases hh.pop.mem_slot hc with ⟨i, hi, hs⟩
    exact ⟨i, by omega, hs⟩

theorem head_of_running (ho : Orderly w f) {c : McoRef} {r : McoRoutine}
    (hr : w.ctl c = some r) (hrun : r.running = true) : ∃ u, (f u).head? = some c :=
  (ho.steady.marks.mark_iff c _ (runs_of_ctl hr)).mp hrun

/-- What is on top of one call stack is not inside another. -/
theorem head_not_tail (ho : Orderly w f) {c : McoRef} {u v : Tid} (hu : (f u).head? = some c)
    (hv : c ∈ (f v).tail) : False := by
  have huv : u = v := ho.disjoint u v c (List.mem_of_head? hu) (List.mem_of_mem_tail hv)
  have hnd := ho.nodup v
  rw [huv] at hu
  rcases List.head?_eq_some_iff.mp hu with ⟨l, hl⟩
  rw [hl] at hnd hv
  exact (List.nodup_cons.mp hnd).1 hv

/-- Whatever is below the top can be returned to. -/
theorem poppable (ho : Orderly w f) (t : Tid) : Poppable w f t := by
  refine ⟨?_, ?_⟩
  · intro c r s hr hrun hsink hbelow
    rcases ho.head_of_running hr hrun with ⟨u, hu⟩
    rcases List.head?_eq_some_iff.mp hu with ⟨l, hl⟩
    have hlink := ho.linked u
    rw [hl] at hlink
    -- The `sink` of `c` is in `c`'s own call stack, and in `t`'s.
    have hs : l.head? = some s := by
      rw [← hlink.1, sinkOf_ctl hr, hsink]
    have hsu : s ∈ f u := by
      rw [hl]
      exact List.mem_cons_of_mem c (List.mem_of_head? hs)
    have hst : s ∈ f t := by
      rw [ho.steady.fromTop_two t] at hbelow
      exact List.mem_of_mem_tail (List.mem_of_head? hbelow)
    rw [ho.disjoint t u s hst hsu, hu]
  · intro c s l hf
    have hmem : s ∈ (f t).tail := by
      rw [hf]
      exact List.mem_cons_self
    rcases ho.steady.ready t s (List.mem_of_mem_tail hmem) with ⟨r, hr, _⟩
    rw [runs_of_ctl hr]
    cases hrun : r.running with
    | false => rfl
    | true =>
        rcases ho.head_of_running hr hrun with ⟨u, hu⟩
        exact (ho.head_not_tail hu hmem).elim

/-- No coroutine in a call stack has ended. -/
theorem unfinished (ho : Orderly w f) {c : McoRef} {r : McoRoutine} (hc : c ∈ f t)
    (hr : w.ctl c = some r) : r.doneYield = false := by
  rcases ho.started t c hc with ⟨r', hr', hst⟩
  rw [hr] at hr'
  injection hr' with hr'
  rw [← hr'] at hst
  exact ((ho.steady.sound c r hr).begun hst).2

/-! ### The moves keep the order -/

theorem booted_orderly (ho : Orderly w f) {m : McoRef} (hm : w.ctl m = none)
    (h : Booted w w' t m) : Orderly w' (Function.update f t [m]) := by
  rcases h.ctl with ⟨size, sp, hctl⟩
  have hself : w'.ctl m = some (mainRecord t m size sp) := by rw [hctl, Function.update_self]
  have hother : ∀ d, d ≠ m → w'.ctl d = w.ctl d := fun d hd => by
    rw [hctl, Function.update_of_ne hd]
  have hfresh := ho.steady.fresh_not_mem hm
  have hmem : ∀ u c, c ∈ Function.update f t [m] u → (u = t ∧ c = m) ∨
      (u ≠ t ∧ c ≠ m ∧ c ∈ f u) := by
    intro u c hc
    by_cases hu : u = t
    · rw [hu, Function.update_self, List.mem_singleton] at hc
      exact Or.inl ⟨hu, hc⟩
    · rw [Function.update_of_ne hu] at hc
      refine Or.inr ⟨hu, ?_, hc⟩
      rintro rfl
      exact hfresh u hc
  refine ⟨ho.steady.booted_steady hm h, ?_, ?_, ?_, ?_⟩
  · intro u
    by_cases hu : u = t
    · rw [hu, Function.update_self]
      exact List.nodup_singleton m
    · rw [Function.update_of_ne hu]
      exact ho.nodup u
  · intro u v c hcu hcv
    rcases hmem u c hcu with ⟨hu, hc⟩ | ⟨_, hc, hcu'⟩
    · rcases hmem v c hcv with ⟨hv, _⟩ | ⟨_, hc', _⟩
      · rw [hu, hv]
      · exact absurd hc hc'
    · rcases hmem v c hcv with ⟨_, hc'⟩ | ⟨_, _, hcv'⟩
      · exact absurd hc' hc
      · exact ho.disjoint u v c hcu' hcv'
  · intro u
    by_cases hu : u = t
    · rw [hu, Function.update_self]
      refine ⟨?_, trivial⟩
      rw [sinkOf_ctl hself]
      rfl
    · rw [Function.update_of_ne hu]
      refine (ho.linked u).congr (fun a ha => ?_)
      rw [sinkOf, sinkOf, hother a]
      rintro rfl
      exact hfresh u ha
  · intro u c hc
    rcases hmem u c hc with ⟨_, hcm⟩ | ⟨_, hcm, hcu⟩
    · rw [hcm]
      exact ⟨_, hself, rfl⟩
    · rw [hother c hcm]
      exact ho.started u c hcu

theorem mainMco (ho : Orderly w f) {e : CallSite} (hfresh : w.FreshMain t e) :
    Orderly (w.mainMco t e).1 (booted f t e.main) := by
  by_cases h0 : (w.callstack t).index = 0
  · have hempty : f t = [] := (ho.steady.empty_iff t).mp h0
    rw [booted, if_pos hempty]
    exact ho.booted_orderly (ctl_eq_none.mpr (hfresh h0)) (mainMco_booted w t e h0)
  · have hne : f t ≠ [] := fun hc => h0 ((ho.steady.empty_iff t).mpr hc)
    rw [mainMco_of_nonempty h0, booted_of_nonempty hne]
    exact ho

/-- Pushing a coroutine that is in no call stack. -/
theorem pushed (ho : Orderly w f) {cur c : McoRef} {l : List McoRef} {r : McoRoutine}
    (hf : f t = cur :: l) (hnot : ∀ u, c ∉ f u) (hr : w.ctl c = some r)
    (hrun : r.running = false) (hfin : r.finished = false) (h : Pushed w w' t cur c) :
    Orderly w' (Function.update f t (c :: cur :: l)) := by
  rcases h.ctl_from with ⟨rc, hrc, hrc'⟩
  rcases h.ctl_to with ⟨r0, r', hr0, hr', hres⟩
  have hmem : ∀ u d, d ∈ Function.update f t (c :: cur :: l) u →
      (u = t ∧ d = c) ∨ (d ≠ c ∧ d ∈ f u) := by
    intro u d hd
    by_cases hu : u = t
    · rw [hu, Function.update_self, ← hf] at hd
      rcases List.mem_cons.mp hd with hd | hd
      · exact Or.inl ⟨hu, hd⟩
      · refine Or.inr ⟨fun hdc => ?_, by rw [hu]; exact hd⟩
        rw [hdc] at hd
        exact hnot t hd
    · rw [Function.update_of_ne hu] at hd
      refine Or.inr ⟨?_, hd⟩
      rintro rfl
      exact hnot u hd
  have hsinks : ∀ d, d ≠ c → w'.sinkOf d = w.sinkOf d := by
    intro d hd
    rw [h.sinkOf d, if_neg hd]
  refine ⟨ho.steady.pushed hf hr hrun hfin h, ?_, ?_, ?_, ?_⟩
  · intro u
    by_cases hu : u = t
    · rw [hu, Function.update_self, ← hf]
      exact List.nodup_cons.mpr ⟨hnot t, ho.nodup t⟩
    · rw [Function.update_of_ne hu]
      exact ho.nodup u
  · intro u v d hdu hdv
    rcases hmem u d hdu with ⟨hu, hd⟩ | ⟨hd, hdu'⟩
    · rcases hmem v d hdv with ⟨hv, _⟩ | ⟨hd', _⟩
      · rw [hu, hv]
      · exact absurd hd hd'
    · rcases hmem v d hdv with ⟨_, hd'⟩ | ⟨_, hdv'⟩
      · exact absurd hd' hd
      · exact ho.disjoint u v d hdu' hdv'
  · intro u
    by_cases hu : u = t
    · rw [hu, Function.update_self]
      refine ⟨?_, ?_⟩
      · rw [sinkOf_ctl hr', hres.sink]
        rfl
      · have hl := ho.linked t
        rw [hf] at hl
        refine hl.congr (fun a ha => hsinks a ?_)
        rintro rfl
        rw [← hf] at ha
        exact hnot t ha
    · rw [Function.update_of_ne hu]
      refine (ho.linked u).congr (fun a ha => hsinks a ?_)
      rintro rfl
      exact hnot u ha
  · intro u d hd
    rcases hmem u d hd with ⟨_, hdc⟩ | ⟨hdc, hdu⟩
    · rw [hdc]
      exact ⟨r', hr', hres.start⟩
    · rcases ho.started u d hdu with ⟨rd, hrd, hst⟩
      by_cases hdcur : d = cur
      · rw [hdcur] at hrd ⊢
        rw [hrc] at hrd
        injection hrd with hrd
        rw [← hrd] at hst
        exact ⟨_, hrc', hst⟩
      · exact ⟨rd, by rw [h.ctl_other d hdcur hdc]; exact hrd, hst⟩

/-- Taking the topmost coroutine off. -/
theorem popped (ho : Orderly w f) {c s : McoRef} {l : List McoRef} {ended : Bool}
    (hf : f t = c :: s :: l) (h : Popped w w' t c s ended) :
    Orderly w' (Function.update f t (s :: l)) := by
  rcases h.ctl_from with ⟨rc, rc', hrc, hsink, hrc', hy⟩
  rcases h.ctl_to with ⟨rs, hrs, hrs'⟩
  have hmem : ∀ u d, d ∈ Function.update f t (s :: l) u → d ∈ f u := by
    intro u d hd
    by_cases hu : u = t
    · rw [hu, Function.update_self] at hd
      rw [hu, hf]
      exact List.mem_cons_of_mem c hd
    · rw [Function.update_of_ne hu] at hd
      exact hd
  have hsinks := h.sinkOf
  have hnd := ho.nodup t
  rw [hf] at hnd
  refine ⟨ho.steady.popped hf ((ho.poppable t).below c s l hf) h, ?_, ?_, ?_, ?_⟩
  · intro u
    by_cases hu : u = t
    · rw [hu, Function.update_self]
      exact (List.nodup_cons.mp hnd).2
    · rw [Function.update_of_ne hu]
      exact ho.nodup u
  · intro u v d hdu hdv
    exact ho.disjoint u v d (hmem u d hdu) (hmem v d hdv)
  · intro u
    by_cases hu : u = t
    · rw [hu, Function.update_self]
      have hl := (ho.linked t).tail
      rw [hf] at hl
      exact hl.congr (fun a _ => hsinks a)
    · rw [Function.update_of_ne hu]
      exact (ho.linked u).congr (fun a _ => hsinks a)
  · intro u d hd
    rcases ho.started u d (hmem u d hd) with ⟨rd, hrd, hst⟩
    have hdc : d ≠ c := by
      rintro rfl
      by_cases hu : u = t
      · rw [hu, Function.update_self] at hd
        exact (List.nodup_cons.mp hnd).1 hd
      · refine hu (ho.disjoint u t d (hmem u d hd) ?_)
        rw [hf]
        exact List.mem_cons_self
    by_cases hds : d = s
    · rw [hds] at hrd ⊢
      rw [hrs] at hrd
      injection hrd with hrd
      rw [← hrd] at hst
      exact ⟨_, hrs', hst⟩
    · exact ⟨rd, by rw [h.ctl_other d hdc hds]; exact hrd, hst⟩

/-- A change that keeps the control view of every coroutine in a call stack. -/
theorem kept (ho : Orderly w f) (hs : Steady w' f)
    (hctl : ∀ u c, c ∈ f u → ∃ r r', w.ctl c = some r ∧ w'.ctl c = some r' ∧
      r'.sink = r.sink ∧ r'.start = r.start) : Orderly w' f := by
  refine ⟨hs, ho.nodup, ho.disjoint, ?_, ?_⟩
  · intro u
    refine (ho.linked u).congr (fun a ha => ?_)
    rcases hctl u a ha with ⟨r, r', hr, hr', hsink, _⟩
    rw [sinkOf_ctl hr', sinkOf_ctl hr, hsink]
  · intro u c hc
    rcases hctl u c hc with ⟨r, r', hr, hr', _, hst⟩
    rcases ho.started u c hc with ⟨r0, hr0, hst0⟩
    rw [hr] at hr0
    injection hr0 with hr0
    exact ⟨r', hr', by rw [hst, hr0]; exact hst0⟩

theorem created (ho : Orderly w f) {c : McoRef} {p : Bool} (hc : w.co c = none) :
    Orderly (w.mcoCreate c p) f := by
  refine ho.kept (ho.steady.created hc) (fun u d hd => ?_)
  rcases ho.steady.ready u d hd with ⟨r, hr, _⟩
  have hdc : d ≠ c := by
    rintro rfl
    rw [ctl_eq_none.mpr hc] at hr
    cases hr
  refine ⟨r, r, hr, ?_, rfl, rfl⟩
  rw [mcoCreate_ctl, Function.update_of_ne hdc]
  exact hr

theorem flagged (ho : Orderly w f) {c : McoRef} {r : McoRoutine} (hr : w.co c = some r) :
    Orderly (w.setCo c { r with shouldClose := true }) f := by
  refine ho.kept (ho.steady.flagged hr) (fun u d hd => ?_)
  rcases ho.steady.ready u d hd with ⟨rd, hrd, _⟩
  by_cases hdc : d = c
  · rw [hdc]
    refine ⟨_, forget { r with shouldClose := true }, ctl_of_co hr, ?_, rfl, rfl⟩
    rw [setCo_ctl, Function.update_self]
  · refine ⟨rd, rd, hrd, ?_, rfl, rfl⟩
    rw [setCo_ctl, Function.update_of_ne hdc]
    exact hrd

/-- A coroutine that is neither running nor waiting goes away. -/
theorem freed (ho : Orderly w f) {c : McoRef} (hnot : ∀ u, c ∉ f u)
    (hctl : w'.ctl = Function.update w.ctl c none) (hcs : w'.callstack = w.callstack)
    (hex : w'.exec = w.exec) : Orderly w' f := by
  refine ho.kept (ho.steady.freed hnot hctl hcs hex) (fun u d hd => ?_)
  rcases ho.steady.ready u d hd with ⟨rd, hrd, _⟩
  have hdc : d ≠ c := by
    rintro rfl
    exact hnot u hd
  exact ⟨rd, rd, hrd, by rw [hctl, Function.update_of_ne hdc]; exact hrd, rfl, rfl⟩

-- A coroutine in a call stack that is not running waits there.
theorem waits_of_mem (ho : Orderly w f) {c : McoRef} {r : McoRoutine} {u : Tid}
    (hr : w.ctl c = some r) (hrun : r.running = false) (hmem : c ∈ f u) : w.Waits u c := by
  rw [ho.waits_iff]
  cases hfu : f u with
  | nil =>
      rw [hfu] at hmem
      exact absurd hmem List.not_mem_nil
  | cons a l =>
      rw [hfu] at hmem
      rcases List.mem_cons.mp hmem with rfl | hl
      · have hruns := ho.steady.head_runs (t := u) (c := c) (by rw [hfu]; rfl)
        rw [runs_of_ctl hr, hrun] at hruns
        cases hruns
      · exact hl

theorem not_mem (ho : Orderly w f) {c : McoRef} {r : McoRoutine} (hr : w.ctl c = some r)
    (hrun : r.running = false) (hw : ∀ u, ¬ w.Waits u c) (u : Tid) : c ∉ f u :=
  fun hmem => hw u (ho.waits_of_mem hr hrun hmem)

/-! ### What each operation does to the call stacks -/

/-- A `McoYield` that returns did nothing, as the coroutine is not running,
    or took the topmost coroutine off. -/
theorem yield {co : Option McoRef} {sp : Nat} (ho : Orderly w f)
    (h : w.mcoYield t co sp = .ok w') :
    (w' = w ∧ ∀ c, co = some c → w.runs c = some false) ∨
    ∃ c s l, co = some c ∧ f t = c :: s :: l ∧ Popped w w' t c s false ∧
      Orderly w' (Function.update f t (s :: l)) := by
  rcases ho.steady.yield_moved (ho.poppable t) h with ⟨hw, hq⟩ | ⟨c, s, l, hco, hf, _, hpop⟩
  · refine Or.inl ⟨hw, fun c hc => ?_⟩
    rcases hq c hc with ⟨r, hr, hrun | hfin⟩
    · rw [runs_of_ctl (ctl_of_co hr)]
      exact congrArg some hrun
    · rw [runs_of_ctl (ctl_of_co hr)]
      cases hrun : r.running with
      | false => exact congrArg some hrun
      | true =>
          -- A running coroutine is on top of a call stack, and those have not finished.
          exfalso
          rcases ho.head_of_running (ctl_of_co hr) hrun with ⟨u, hu⟩
          have hdy := ho.unfinished (List.mem_of_head? hu) (ctl_of_co hr)
          have hdy' : r.doneYield = false := hdy
          rw [McoRoutine.finished, hdy', Bool.and_false] at hfin
          cases hfin
  · exact Or.inr ⟨c, s, l, hco, hf, hpop, ho.popped hf hpop⟩

/-- The end of a coroutine pops the call stack of its thread. -/
theorem finish {sp : Nat} (ho : Orderly w f) (h : w.coroutineRun t sp = .ok w') :
    ∃ c s l, f t = c :: s :: l ∧ Popped w w' t c s true ∧
      Orderly w' (Function.update f t (s :: l)) := by
  rcases ho.steady.finish_moved (ho.poppable t) h with ⟨c, s, l, hf, _, hpop⟩
  exact ⟨c, s, l, hf, hpop, ho.popped hf hpop⟩

/-- A flat `McoResume` that returns did nothing, as the coroutine is running
    or finished, or went back to the coroutine below, or pushed a coroutine
    that was in no call stack. -/
theorem resume {co : Option McoRef} {e : CallSite} (ho : Orderly w f) (hcode : w.InCode t)
    (hfresh : w.FreshMain t e) (hflat : Flat w (.resume t co e))
    (h : w.mcoResume t co e = .ok w') :
    (w' = w ∧ ∀ c, co = some c →
      ∃ r, w.co c = some r ∧ (r.running = true ∨ r.finished = true)) ∨
    ∃ c r cur l, co = some c ∧ w.co c = some r ∧ r.running = false ∧ r.finished = false ∧
      booted f t e.main t = cur :: l ∧
      ((∃ l', l = c :: l' ∧ f t = cur :: c :: l' ∧ w.mcoYield t (some cur) e.sp = .ok w' ∧
          Popped w w' t cur c false ∧ Orderly w' (Function.update f t l)) ∨
        ((∀ u, c ∉ f u) ∧
          ((r.start = true ∧ (w.mainMco t e).1.pushCallstack t c r e.sp = .ok w') ∨
           (r.start = false ∧ ((w.mainMco t e).1.started t c r e.blk).1.pushCallstack t c
              ((w.mainMco t e).1.started t c r e.blk).2 e.sp = .ok w')) ∧
          Pushed (w.mainMco t e).1 w' t cur c ∧
          Orderly w' (Function.update (booted f t e.main) t (c :: cur :: l)))) := by
  rcases ho.steady.resume_moved hcode hfresh h with hq |
    ⟨c, r, cur, l, hco, hr, hrb, hrun, hfin, hf, hcase⟩
  · exact Or.inl hq
  · right
    have hb := ho.mainMco hfresh
    refine ⟨c, r, cur, l, hco, hr, hrun, hfin, hf, ?_⟩
    rcases hcase with ⟨hbelow, hy, hpop⟩ | ⟨⟨rcur, hrcur, hsink⟩, heq, hpush⟩
    · left
      rw [hb.steady.fromTop_two t, hf, List.tail_cons] at hbelow
      rcases List.head?_eq_some_iff.mp hbelow with ⟨l', hl'⟩
      -- Two entries: the call stack was not empty before.
      have hne : f t ≠ [] := by
        intro hnil
        rw [booted, if_pos hnil, Function.update_self, hl'] at hf
        cases hf
      have hw : (w.mainMco t e).1 = w :=
        mainMco_of_nonempty (fun h0 => hne ((ho.steady.empty_iff t).mp h0))
      rw [booted_of_nonempty hne] at hf
      rw [hw] at hpop hy
      refine ⟨l', hl', by rw [hf, hl'], hy, hpop, ?_⟩
      rw [hl'] at hf ⊢
      exact ho.popped hf hpop
    · right
      have hnot : ∀ u, c ∉ f u := by
        intro u hmem
        have hwait := ho.waits_of_mem (ctl_of_co hr) hrun hmem
        rw [hco] at hflat
        have hpar := (hflat u hwait).2
        have hsec : (f t).tail.head? = some c := by
          rw [← ho.steady.fromTop_two t]
          exact hpar
        have hne : f t ≠ [] := by
          intro hnil
          rw [hnil] at hsec
          cases hsec
        have hlink := ho.linked t
        rw [booted_of_nonempty hne] at hf
        rw [hf] at hlink hsec
        have hw : (w.mainMco t e).1 = w :=
          mainMco_of_nonempty (fun h0 => hne ((ho.steady.empty_iff t).mp h0))
        rw [hw] at hrcur
        have := hlink.1
        rw [sinkOf_ctl (ctl_of_co hrcur)] at this
        exact hsink (this.trans hsec)
      refine ⟨hnot, heq, hpush, ?_⟩
      refine hb.pushed hf (fun u => ?_) (ctl_of_co hrb) hrun hfin hpush
      intro hmem
      unfold booted at hmem
      by_cases hnil : f t = []
      · rw [if_pos hnil] at hmem
        by_cases hu : u = t
        · rw [hu, Function.update_self, List.mem_singleton] at hmem
          have h0 := hfresh ((ho.steady.empty_iff t).mpr hnil)
          rw [← hmem, hr] at h0
          cases h0
        · rw [Function.update_of_ne hu] at hmem
          exact hnot u hmem
      · rw [if_neg hnil] at hmem
        exact hnot u hmem

/-- A `McoFree` that returns leaves the call stacks alone. -/
theorem free {co : Option McoRef} (ho : Orderly w f) (hflat : Flat w (.free t co))
    (h : w.mcoFree t co = .ok w') : Orderly w' f := by
  rcases mcoFree_cases h with ⟨_, rfl⟩ | ⟨c, r, _, hr, _, rfl⟩ | ⟨c, r, rfl, hr, hrun, rfl⟩
  · exact ho
  · exact ho.flagged hr
  · have hnot := ho.not_mem (ctl_of_co hr) hrun hflat
    refine ho.freed hnot (mcoFree_ctl w t c) ?_ ?_
    · by_cases hoc : (w.mgr t).commonOccupy = some c
      · simp only [if_pos hoc, setCommonOccupy]
      · simp only [if_neg hoc]
    · by_cases hoc : (w.mgr t).commonOccupy = some c
      · simp only [if_pos hoc, setCommonOccupy]
      · simp only [if_neg hoc]

end Orderly

/-- Every flat operation that returns keeps the order, for some new call
    stacks. -/
theorem orderly_step {w w' : World} {a : Op} {f : Frames} (ho : Orderly w f)
    (hadm : Admissible w a) (hflat : Flat w a) (h : w.step a = .ok w') :
    ∃ f', Orderly w' f' ∧ ∀ u, u ≠ a.thread → f' u = f u := by
  rcases hadm with ⟨hcode, hsup⟩
  have hupd : ∀ (g : Frames) (t : Tid) (l : List McoRef) (u : Tid), u ≠ t →
      Function.update g t l u = g u := fun g t l u hu => Function.update_of_ne hu l g
  have hboot : ∀ (t : Tid) (m : McoRef) (u : Tid), u ≠ t → booted f t m u = f u := by
    intro t m u hu
    unfold booted
    by_cases hnil : f t = []
    · rw [if_pos hnil, Function.update_of_ne hu]
    · rw [if_neg hnil]
  cases a with
  | create t c p =>
      injection h with h
      rw [← h]
      exact ⟨f, ho.created hsup, fun _ _ => rfl⟩
  | mainMco t e =>
      injection h with h
      rw [← h]
      exact ⟨_, ho.mainMco hsup, hboot t e.main⟩
  | resume t co e =>
      rcases ho.resume hcode hsup.2.2 hflat h with ⟨rfl, _⟩ | ⟨c, r, cur, l, _, _, _, _, _,
        ⟨l', _, _, _, _, ho'⟩ | ⟨_, _, _, ho'⟩⟩
      · exact ⟨f, ho, fun _ _ => rfl⟩
      · exact ⟨_, ho', hupd f t l⟩
      · exact ⟨_, ho', fun u hu => (hupd _ t _ u hu).trans (hboot t e.main u hu)⟩
  | yield t co sp =>
      rcases ho.yield h with ⟨rfl, _⟩ | ⟨c, s, l, _, _, _, ho'⟩
      · exact ⟨f, ho, fun _ _ => rfl⟩
      · exact ⟨_, ho', hupd f t _⟩
  | finish t sp =>
      rcases ho.finish h with ⟨c, s, l, _, _, ho'⟩
      exact ⟨_, ho', hupd f t _⟩
  | free t co => exact ⟨f, ho.free hflat h, fun _ _ => rfl⟩
  | write t x b =>
      injection h with h
      rw [← h]
      refine ⟨f, ho.kept ?_ (fun u c hc => ?_), fun _ _ => rfl⟩
      · exact ho.steady.quiet ⟨rfl, rfl, rfl, rfl, fun _ => ⟨rfl, rfl⟩⟩
      · rcases ho.steady.ready u c hc with ⟨r, hr, _⟩
        exact ⟨r, r, hr, hr, rfl, rfl⟩

end Fasco
