import Fasco.Lib.Interleave
import Fasco.Theory.Regions

/-!
# Threads That Do Not Meet

Coroutines on several threads at once. Every thread has a call stack, a
manager and a common block of its own; what they share is the heap of
coroutines and memory, and nothing in the code keeps a thread away from
another one's. Whether threads that keep to their own coroutines disturb each
other is therefore a question about what the operations touch, and
`regions_step` answers it for one operation.

`threads_apart` is the consequence for interleavings. Each thread is run by
itself, from the initial state, with its own operations only; if every one of
these runs keeps the promises of one thread, and `new` never returns an
address that any thread is using, then the operations can be interleaved in
any order. The interleaved run does not fault, and at its end every thread has
the call stack, the coroutines and the bytes its own run ends with.

## Main definitions

* `Shows`: A thread finds its part of a state in another one.
* `Op.news`: The addresses `new` returns in an operation.
* `Alone`: An operation of a thread that behaves by itself.
* `Apart`: The invariant of the interleaved run.

## Theorems

* `alive_step`: An operation makes no coroutine but the new ones.
* `mainOf_step`: No operation changes what is a main coroutine.
* `Shows.onThread`: What a thread relies on alone holds in the shared state.
* `apart_step`: The invariant is kept.
* `apart_runs`, `threads_apart`: An interleaving shows every thread its own run.
-/

namespace Fasco

open World

/-- Thread `t` finds in `w` what it has in `v`. -/
structure Shows (t : Tid) (w v : World) : Prop where
  co : ∀ c, (v.co c).isSome → w.co c = v.co c
  stack : ∀ c, (v.co c).isSome → w.stack c = v.stack c
  callstack : w.callstack t = v.callstack t
  mgr : w.mgr t = v.mgr t
  exec : w.exec t = v.exec t
  mem : ∀ x, v.InBlock t x → w.mem x = v.mem x

/-- The addresses `new McoRoutine` returns in an operation that calls it. -/
def Op.news (w : World) : Op → List McoRef
  | .create _ c _ => [c]
  | .mainMco t e => if (w.callstack t).index = 0 then [e.main] else []
  | .resume t _ e => if (w.callstack t).index = 0 then [e.main] else []
  | _ => []

/-- An operation that its thread, run by itself, performs as promised, and
    whose new objects get addresses no thread is using. The thread of a
    creation is the one the coroutine is meant for; `McoCreate` itself does
    not depend on it. -/
def Alone (v : Tid → World) (a : Op) : Prop :=
  OnThread a.thread (v a.thread) a ∧
    ∀ c, c ∈ a.news (v a.thread) → ∀ u, (v u).co c = none

/-- Every thread finds its own run in the shared state, and no coroutine and
    no byte of a block is in two of the runs. -/
structure Apart (w : World) (v : Tid → World) : Prop where
  shows : ∀ t, Shows t w (v t)
  alive : ∀ c, (w.co c).isSome → ∃ t, ((v t).co c).isSome
  owned : ∀ t u c, ((v t).co c).isSome → ((v u).co c).isSome → t = u
  blocks : ∀ t u x, (v t).InBlock t x → (v u).InBlock u x → t = u
  carried : ∀ t, ∃ f, Carried (v t) f t
  regions : ∀ t, ∃ lo size, Regions t lo size (v t)

/-- What is in `w` besides the coroutines of `v`. -/
def World.rest (v w : World) : World :=
  { w with
    co := fun c => if (v.co c).isSome then none else w.co c
    stack := fun c => if (v.co c).isSome then none else w.stack c }

theorem shows_beside (t : Tid) (v b : World) : Shows t (beside t v b) v :=
  ⟨fun _ hc => if_pos hc, fun _ hc => if_pos hc, beside_callstack, beside_mgr, beside_exec,
    fun _ hx => if_pos hx⟩

/-- A state that shows a thread its part is that part beside the rest. -/
theorem Shows.beside_rest {t : Tid} {w v : World} (h : Shows t w v) :
    beside t v (v.rest w) = w := by
  apply World.ext
  · funext c
    by_cases hc : (v.co c).isSome
    · simp only [beside, if_pos hc]
      exact (h.co c hc).symm
    · simp only [beside, rest, if_neg hc]
  · funext c
    by_cases hc : (v.co c).isSome
    · simp only [beside, if_pos hc]
      exact (h.stack c hc).symm
    · simp only [beside, rest, if_neg hc]
  · change Function.update w.callstack t (v.callstack t) = w.callstack
    rw [← h.callstack, Function.update_eq_self]
  · change Function.update w.mgr t (v.mgr t) = w.mgr
    rw [← h.mgr, Function.update_eq_self]
  · change Function.update w.exec t (v.exec t) = w.exec
    rw [← h.exec, Function.update_eq_self]
  · funext x
    by_cases hx : v.InBlock t x
    · simp only [beside, if_pos hx]
      exact (h.mem x hx).symm
    · simp only [beside, if_neg hx]
      rfl

theorem rest_free {v w : World} (c : McoRef) (hc : (v.co c).isSome) :
    (v.rest w).co c = none ∧ (v.rest w).stack c = none :=
  ⟨if_pos hc, if_pos hc⟩

theorem World.Popped.alive {w w' : World} {t : Tid} {c s : McoRef} {ended : Bool}
    (h : Popped w w' t c s ended) {d : McoRef} (hd : (w'.co d).isSome) : (w.co d).isSome := by
  rw [← ctl_isSome] at hd ⊢
  by_cases hdc : d = c
  · rcases h.ctl_from with ⟨r, _, hr, _⟩
    rw [hdc, hr]
    rfl
  · by_cases hds : d = s
    · rcases h.ctl_to with ⟨r, hr, _⟩
      rw [hds, hr]
      rfl
    · rw [← h.ctl_other d hdc hds]
      exact hd

theorem World.Pushed.alive {w w' : World} {t : Tid} {cur c : McoRef} (h : Pushed w w' t cur c)
    {d : McoRef} (hd : (w'.co d).isSome) : (w.co d).isSome := by
  rw [← ctl_isSome] at hd ⊢
  by_cases hdc : d = c
  · rcases h.ctl_to with ⟨r, _, hr, _⟩
    rw [hdc, hr]
    rfl
  · by_cases hds : d = cur
    · rcases h.ctl_from with ⟨r, hr, _⟩
      rw [hds, hr]
      rfl
    · rw [← h.ctl_other d hds hdc]
      exact hd

theorem mainMco_alive {w : World} {t : Tid} {e : CallSite} {d : McoRef}
    (hd : ((w.mainMco t e).1.co d).isSome) :
    (w.co d).isSome ∨ (w.callstack t).index = 0 ∧ d = e.main := by
  by_cases h0 : (w.callstack t).index = 0
  · by_cases hdm : d = e.main
    · exact Or.inr ⟨h0, hdm⟩
    · rw [mainMco_eq h0] at hd
      simp only [Function.update_of_ne hdm] at hd
      exact Or.inl hd
  · rw [mainMco_of_nonempty h0] at hd
    exact Or.inl hd

/-- The coroutines alive after an operation were alive before, or are new. -/
theorem alive_step {w w' : World} {f : Frames} {t : Tid} {a : Op} (hc : Carried w f t)
    (ha : OnThread t w a) (h : w.step a = .ok w') {d : McoRef} (hd : (w'.co d).isSome) :
    (w.co d).isSome ∨ d ∈ a.news w := by
  rcases ha with ⟨ht, hadm, hdis⟩
  have hflat := flat_of_disciplined hc.orderly hc.alone ht hdis
  rcases hadm with ⟨hcode, hsup⟩
  cases a with
  | create u c p =>
      injection h with h
      by_cases hdc : d = c
      · exact Or.inr (List.mem_singleton.mpr hdc)
      · rw [← h] at hd
        simp only [mcoCreate, Function.update_of_ne hdc] at hd
        exact Or.inl hd
  | mainMco u e =>
      injection h with h
      rw [← h] at hd
      rcases mainMco_alive hd with hold | ⟨h0, hdm⟩
      · exact Or.inl hold
      · right
        rw [Op.news, if_pos h0]
        exact List.mem_singleton.mpr hdm
  | resume u co e =>
      rcases hc.orderly.resume hcode hsup.2.2 hflat h with ⟨rfl, _⟩ | ⟨c, r, cur, l, _, _, _,
        _, _, ⟨_, _, _, _, hp, _⟩ | ⟨_, _, hp, _⟩⟩
      · exact Or.inl hd
      · exact Or.inl (hp.alive hd)
      · rcases mainMco_alive (hp.alive hd) with hold | ⟨h0, hdm⟩
        · exact Or.inl hold
        · right
          change (w.callstack u).index = 0 at h0
          rw [Op.news, if_pos h0]
          exact List.mem_singleton.mpr hdm
  | yield u co sp =>
      rcases hc.orderly.yield h with ⟨rfl, _⟩ | ⟨_, _, _, _, _, hp, _⟩
      · exact Or.inl hd
      · exact Or.inl (hp.alive hd)
  | finish u sp =>
      rcases hc.orderly.finish h with ⟨_, _, _, _, hp, _⟩
      exact Or.inl (hp.alive hd)
  | free u co =>
      left
      rcases mcoFree_cases h with ⟨_, rfl⟩ | ⟨c, r, _, hr, _, rfl⟩ | ⟨c, r, _, _, _, rfl⟩
      · exact hd
      · by_cases hdc : d = c
        · rw [hdc, hr]
          rfl
        · simp only [setCo, Function.update_of_ne hdc] at hd
          exact hd
      · by_cases hdc : d = c
        · rw [hdc] at hd
          simp only [Function.update_self, Option.isSome_none] at hd
          cases hd
        · simp only [Function.update_of_ne hdc] at hd
          exact hd
  | write u x y =>
      injection h with h
      rw [← h] at hd
      exact Or.inl hd

theorem World.mainOf_of_co {w : World} {c : McoRef} {r : McoRoutine} (h : w.co c = some r) :
    w.mainOf c = some r.isMain := by
  rw [mainOf, ctl_of_co h]
  rfl

theorem World.co_of_mainOf {w : World} {c : McoRef} {b : Bool} (h : w.mainOf c = some b) :
    ∃ r, w.co c = some r ∧ r.isMain = b := by
  rcases Option.map_eq_some_iff.mp h with ⟨r, hr, hb⟩
  rcases co_of_ctl hr with ⟨r', hr', hf⟩
  refine ⟨r', hr', ?_⟩
  rw [← hb, ← hf]
  rfl

theorem mainMco_mainOf {w : World} {t : Tid} {e : CallSite} {c : McoRef} {b : Bool}
    (hfresh : w.FreshMain t e) (h : w.mainOf c = some b) :
    (w.mainMco t e).1.mainOf c = some b := by
  rcases co_of_mainOf h with ⟨r, hr, hb⟩
  rw [mainOf_of_co (mainMco_co hfresh hr), hb]

/-- As long as a coroutine is not freed, it is a main one or not. -/
theorem mainOf_step {w w' : World} {f : Frames} {t : Tid} {a : Op} (hc : Carried w f t)
    (ha : OnThread t w a) (h : w.step a = .ok w') {c : McoRef} {b : Bool}
    (hm : w.mainOf c = some b) (hfree : ∀ u, a ≠ .free u (some c)) : w'.mainOf c = some b := by
  rcases ha with ⟨ht, hadm, hdis⟩
  have hflat := flat_of_disciplined hc.orderly hc.alone ht hdis
  rcases hadm with ⟨hcode, hsup⟩
  rcases co_of_mainOf hm with ⟨r, hr, hb⟩
  cases a with
  | create u d p =>
      injection h with h
      have hcd : c ≠ d := by
        rintro rfl
        have hnone : w.co c = none := hsup
        rw [hnone] at hr
        cases hr
      rw [← h, mainOf_of_co ((Function.update_of_ne hcd _ _).trans hr), hb]
  | mainMco u e =>
      injection h with h
      rw [← h]
      exact mainMco_mainOf hsup hm
  | resume u co e =>
      rcases hc.orderly.resume hcode hsup.2.2 hflat h with ⟨rfl, _⟩ | ⟨d, x, cur, l, _, _, _,
        _, _, ⟨_, _, _, _, hp, _⟩ | ⟨_, _, hp, _⟩⟩
      · exact hm
      · rw [hp.mainOf]
        exact hm
      · rw [hp.mainOf]
        exact mainMco_mainOf hsup.2.2 hm
  | yield u co sp =>
      rcases hc.orderly.yield h with ⟨rfl, _⟩ | ⟨_, _, _, _, _, hp, _⟩
      · exact hm
      · rw [hp.mainOf]
        exact hm
  | finish u sp =>
      rcases hc.orderly.finish h with ⟨_, _, _, _, hp, _⟩
      rw [hp.mainOf]
      exact hm
  | free u co =>
      rcases mcoFree_cases h with ⟨_, rfl⟩ | ⟨d, x, _, hx, _, rfl⟩ | ⟨d, x, hd, _, _, rfl⟩
      · exact hm
      -- What is running is only marked.
      · by_cases hcd : c = d
        · rw [hcd] at hr ⊢
          rw [hx] at hr
          injection hr with hr
          have hmark : (w.setCo d { x with shouldClose := true }).co d
              = some { x with shouldClose := true } := Function.update_self _ _ _
          rw [mainOf_of_co hmark, ← hb, ← hr]
        · rw [mainOf_of_co ((Function.update_of_ne hcd _ _).trans hr), hb]
      · have hcd : c ≠ d := by
          rintro rfl
          exact hfree u (by rw [hd])
        rw [mainOf_of_co ((Function.update_of_ne hcd _ _).trans hr), hb]
  | write u x y =>
      injection h with h
      rw [← h]
      exact hm

theorem Carried.inCode {w : World} {f : Frames} {t : Tid} (hc : Carried w f t) : w.InCode t := by
  intro c r hx hr
  rw [hc.orderly.steady.exec t] at hx
  have hdone := hc.orderly.unfinished (List.mem_of_head? hx) (ctl_of_co hr)
  have hdone' : r.doneYield = false := hdone
  rw [McoRoutine.finished, hdone', Bool.and_false]

theorem apart_init {w : World} (h : Init w) : Apart w (fun _ => w) := by
  refine ⟨fun t => ⟨fun _ _ => rfl, fun _ _ => rfl, rfl, rfl, rfl, fun _ _ => rfl⟩, ?_, ?_, ?_,
    fun t => ⟨_, carried_init h t⟩, fun t => ⟨_, _, regions_init h t⟩⟩
  · intro c hc
    exact ⟨0, hc⟩
  · intro t u c hc
    rw [h.co c] at hc
    cases hc
  · intro t u x hx hy
    by_contra hne
    unfold World.InBlock at hx hy
    rcases h.blocks t u hne with hlt | hlt <;> omega

/-- The coroutine executing is alive. -/
theorem Carried.exec_alive {w : World} {f : Frames} {t : Tid} (hc : Carried w f t) {c : McoRef}
    (hx : w.exec t = some c) : (w.co c).isSome := by
  rw [hc.orderly.steady.exec t] at hx
  rcases hc.orderly.steady.ready t c (List.mem_of_head? hx) with ⟨r, hr, _⟩
  rw [← ctl_isSome, hr]
  rfl

/-- What a thread relies on by itself it can rely on wherever its part is, if
    the addresses of its new objects are not in use there. -/
theorem Shows.onThread {t : Tid} {w v : World} {f : Frames} {a : Op} (hs : Shows t w v)
    (hc : Carried v f t) (ha : OnThread t v a) (hnew : ∀ c, c ∈ a.news v → w.co c = none) :
    OnThread t w a := by
  rcases ha with ⟨ht, ⟨hcode, hsup⟩, hdis⟩
  have hlive : ∀ co, v.Live co → w.Live co := by
    intro co h c hco
    rw [hs.co c (h c hco)]
    exact h c hco
  have honstack : ∀ sp, v.OnStack t sp → w.OnStack t sp := by
    intro sp h c s hx hsc hp
    rw [hs.exec] at hx
    rw [hs.stack c (hc.exec_alive hx)] at hsc
    exact h c s hx hsc hp
  have hcode' : w.InCode t := by
    intro c r hx hr
    rw [hs.exec] at hx
    rw [hs.co c (hc.exec_alive hx)] at hr
    rw [ht] at hcode
    exact hcode c r hx hr
  have hmain : ∀ e : CallSite,
      (∀ c, c ∈ (if (v.callstack t).index = 0 then [e.main] else []) → w.co c = none) →
      w.FreshMain t e := by
    intro e h h0
    rw [hs.callstack] at h0
    refine h e.main ?_
    rw [if_pos h0]
    exact List.mem_singleton_self e.main
  refine ⟨ht, ⟨by rw [ht]; exact hcode', ?_⟩, ?_⟩
  · cases a with
    | create u c p => exact hnew c (List.mem_singleton_self c)
    | mainMco u e =>
        change u = t at ht
        rw [ht] at hnew ⊢
        exact hmain e hnew
    | resume u co e =>
        change u = t at ht
        rw [ht] at hnew hsup ⊢
        exact ⟨hlive co hsup.1, honstack e.sp hsup.2.1, hmain e hnew⟩
    | yield u co sp =>
        change u = t at ht
        rw [ht] at hsup ⊢
        exact ⟨hlive co hsup.1, honstack sp hsup.2⟩
    | finish u sp =>
        change u = t at ht
        rw [ht] at hsup ⊢
        rcases hsup with ⟨⟨c, r, hx, hr, hm⟩, hsp⟩
        refine ⟨⟨c, r, by rw [hs.exec]; exact hx, ?_, hm⟩, honstack sp hsp⟩
        rw [hs.co c (by rw [hr]; rfl)]
        exact hr
    | free u co => exact hlive co hsup
    | write u x y =>
        change u = t at ht
        rw [ht] at hsup ⊢
        rcases hsup with ⟨c, s, hx, hsc, h⟩
        refine ⟨c, s, by rw [hs.exec]; exact hx, ?_, h⟩
        rw [hs.stack c (hc.exec_alive hx)]
        exact hsc
  · cases a with
    | resume u co e =>
        change u = t at ht
        rw [ht] at hdis ⊢
        cases co with
        | none => trivial
        | some c =>
            intro i hi
            rw [hs.callstack] at hi ⊢
            exact hdis i hi
    | yield u co sp =>
        cases co with
        | none => trivial
        | some c =>
            have hctl : w.ctl c = v.ctl c := by
              rw [ctl, ctl, hs.co c (hsup.1 c rfl)]
            intro hm
            unfold World.mainOf at hm
            rw [hctl] at hm
            exact hdis hm
    | free u co =>
        change u = t at ht
        rw [ht] at hdis ⊢
        cases co with
        | none => trivial
        | some c =>
            intro i hi
            rw [hs.callstack] at hi ⊢
            exact hdis i hi
    | create _ _ _ => trivial
    | mainMco _ _ => trivial
    | finish _ _ => trivial
    | write _ _ _ => trivial

/-- What no thread has is not in the shared state. -/
theorem Apart.unused {w : World} {v : Tid → World} (hap : Apart w v) {c : McoRef}
    (hc : ∀ u, (v u).co c = none) : w.co c = none := by
  cases hw : w.co c with
  | none => rfl
  | some r =>
      rcases hap.alive c (by rw [hw]; rfl) with ⟨u, hu⟩
      rw [hc u] at hu
      cases hu

theorem Apart.onThread {w : World} {v : Tid → World} {a : Op} (hap : Apart w v)
    (ha : Alone v a) : OnThread a.thread w a := by
  rcases hap.carried a.thread with ⟨f, hc⟩
  exact (hap.shows a.thread).onThread hc ha.1 (fun c hcn => hap.unused (ha.2 c hcn))

/-- An operation that a thread performs alone it performs beside the others,
    and shows them what they had. -/
theorem apart_step {w s : World} {v : Tid → World} {a : Op} (hap : Apart w v) (ha : Alone v a)
    (h : (v a.thread).step a = .ok s) :
    ∃ w', w.step a = .ok w' ∧ Apart w' (Function.update v a.thread s) := by
  rcases ha with ⟨hon, hnew⟩
  generalize ht : a.thread = t at hon hnew h ⊢
  rcases hap.carried t with ⟨f, hc⟩
  rcases hap.regions t with ⟨lo, size, hi⟩
  rcases regions_step (b := (v t).rest w) hc hi hon (fun c hcl => rest_free c hcl) h with
    ⟨hi', hstep⟩
  rw [(hap.shows t).beside_rest] at hstep
  -- Nobody else has a coroutine that the thread has now.
  have hother : ∀ u c, u ≠ t → ((v u).co c).isSome →
      (s.co c).isSome = false ∧ ((v t).co c).isSome = false := by
    intro u c hu hcu
    have hold : ((v t).co c).isSome = false := by
      cases hb : ((v t).co c).isSome with
      | false => rfl
      | true => exact absurd (hap.owned u t c hcu hb) hu
    refine ⟨?_, hold⟩
    cases hb : (s.co c).isSome with
    | false => rfl
    | true =>
        rcases alive_step hc hon h hb with hlive | hn
        · rw [hold] at hlive
          cases hlive
        · rw [hnew c hn u] at hcu
          cases hcu
  have hblock : ∀ x, s.InBlock t x ↔ (v t).InBlock t x := by
    intro x
    unfold World.InBlock
    rw [hi'.block.1, hi'.block.2, hi.block.1, hi.block.2]
  refine ⟨_, hstep, ⟨?_, ?_, ?_, ?_, ?_, ?_⟩⟩
  · intro u
    by_cases hu : u = t
    · rw [hu, Function.update_self]
      exact shows_beside t s _
    · rw [Function.update_of_ne hu]
      have hsh := hap.shows u
      refine ⟨?_, ?_, ?_, ?_, ?_, ?_⟩
      · intro c hcu
        rcases hother u c hu hcu with ⟨h1, h2⟩
        simp only [beside, rest, h1, h2, Bool.false_eq_true, if_false]
        exact hsh.co c hcu
      · intro c hcu
        rcases hother u c hu hcu with ⟨h1, h2⟩
        simp only [beside, rest, h1, h2, Bool.false_eq_true, if_false]
        exact hsh.stack c hcu
      · exact (Function.update_of_ne hu _ _).trans hsh.callstack
      · exact (Function.update_of_ne hu _ _).trans hsh.mgr
      · exact (Function.update_of_ne hu _ _).trans hsh.exec
      · intro x hx
        have hnx : ¬ s.InBlock t x := fun hxt =>
          hu (hap.blocks u t x hx ((hblock x).mp hxt))
        exact (if_neg hnx).trans (hsh.mem x hx)
  · intro c hcl
    cases hs : (s.co c).isSome with
    | true => exact ⟨t, by rw [Function.update_self]; exact hs⟩
    | false =>
        cases hv : ((v t).co c).isSome with
        | true =>
            simp only [beside, rest, hs, hv, Bool.false_eq_true, if_false, if_true,
              Option.isSome_none] at hcl
        | false =>
            simp only [beside, rest, hs, hv, Bool.false_eq_true, if_false] at hcl
            rcases hap.alive c hcl with ⟨u, hu⟩
            have hut : u ≠ t := by
              rintro rfl
              rw [hv] at hu
              cases hu
            exact ⟨u, by rw [Function.update_of_ne hut]; exact hu⟩
  · intro t1 t2 c h1 h2
    by_cases ht1 : t1 = t
    · by_cases ht2 : t2 = t
      · rw [ht1, ht2]
      · rw [ht1, Function.update_self] at h1
        rw [Function.update_of_ne ht2] at h2
        rw [(hother t2 c ht2 h2).1] at h1
        cases h1
    · rw [Function.update_of_ne ht1] at h1
      by_cases ht2 : t2 = t
      · rw [ht2, Function.update_self] at h2
        rw [(hother t1 c ht1 h1).1] at h2
        cases h2
      · rw [Function.update_of_ne ht2] at h2
        exact hap.owned t1 t2 c h1 h2
  · have hin : ∀ u x, (Function.update v t s u).InBlock u x → (v u).InBlock u x := by
      intro u x hx
      by_cases hu : u = t
      · rw [hu, Function.update_self] at hx
        rw [hu]
        exact (hblock x).mp hx
      · rw [Function.update_of_ne hu] at hx
        exact hx
    exact fun t1 t2 x h1 h2 => hap.blocks t1 t2 x (hin t1 x h1) (hin t2 x h2)
  · intro u
    by_cases hu : u = t
    · rw [hu, Function.update_self]
      exact (onThread_step ⟨f, hc⟩ hon h).1
    · rw [Function.update_of_ne hu]
      exact hap.carried u
  · intro u
    by_cases hu : u = t
    · rw [hu, Function.update_self]
      exact ⟨lo, size, hi'⟩
    · rw [Function.update_of_ne hu]
      exact hap.regions u

/-- Threads that behave by themselves can be interleaved: the shared run exists
    and stays apart from the runs they make alone. -/
theorem apart_runs {w : World} {as : List Op} (hinit : Init w)
    (h : Fallible.Along (Interleave.solo World.step Op.thread) Alone (fun _ => w) as) :
    ∃ w' v, Fallible.Runs World.step (fun u a => OnThread a.thread u a) w as w' ∧
      (∀ t, Fallible.Runs World.step (OnThread t) w (Interleave.mine Op.thread t as) (v t)) ∧
      Apart w' v := by
  have hret : ∀ (w : World) (v : Tid → World) (a : Op), Apart w v → Alone v a →
      ∃ s, (v a.thread).step a = .ok s := by
    intro w v a hap ha
    rcases hap.carried a.thread with ⟨f, hc⟩
    exact onThread_returns hc ha.1
  rcases Interleave.shared_run hret (fun _ _ _ hap ha => hap.onThread ha)
      (fun _ _ _ _ hap ha hs => apart_step hap ha hs) as w _ (apart_init hinit) h with
    ⟨w', v, hrun, hsolo, hap⟩
  refine ⟨w', v, hrun, fun t => ?_, hap⟩
  refine Interleave.solo_component (Q := OnThread t) (i := t) ?_ hsolo
  intro u a ha hat
  rw [← hat]
  exact ha.1

/-- Threads that behave by themselves can be interleaved in any order. The
    interleaved run does not fault, and at its end each thread finds what its
    own run, over its own operations, ends with. -/
theorem threads_apart {w : World} {as : List Op} (hinit : Init w)
    (h : Fallible.Along (Interleave.solo World.step Op.thread) Alone (fun _ => w) as) :
    ∃ w', Fallible.Runs World.step (fun u a => OnThread a.thread u a) w as w' ∧
      ∀ t, ∃ v, Fallible.Runs World.step (OnThread t) w (Interleave.mine Op.thread t as) v ∧
        Shows t w' v := by
  rcases apart_runs hinit h with ⟨w', v, hrun, hsolo, hap⟩
  exact ⟨w', hrun, fun t => ⟨v t, hsolo t, hap.shows t⟩⟩

/-- `Alone`, where threads from `n` on have done nothing. -/
def AloneBelow (n : Nat) (v : Tid → World) (a : Op) : Prop :=
  a.thread < n ∧ OnThread a.thread (v a.thread) a ∧
    ∀ c ∈ a.news (v a.thread), ∀ u < n, (v u).co c = none

instance (n : Nat) (v : Tid → World) (a : Op) : Decidable (AloneBelow n v a) :=
  inferInstanceAs (Decidable (_ ∧ _ ∧ _))

theorem along_alone {w : World} {n : Nat} {as : List Op} (hinit : Init w)
    (h : Fallible.Along (Interleave.solo World.step Op.thread) (AloneBelow n) (fun _ => w) as) :
    Fallible.Along (Interleave.solo World.step Op.thread) Alone (fun _ => w) as := by
  refine Fallible.along_of_invariant (I := fun v => ∀ u, n ≤ u → v u = w) ?_ ?_ as _
    (fun _ _ => rfl) h
  · rintro v a v' hv ⟨hlt, _⟩ hstep u hu
    rcases Interleave.solo_eq_ok.mp hstep with ⟨s, _, rfl⟩
    rw [Function.update_of_ne (Nat.ne_of_gt (Nat.lt_of_lt_of_le hlt hu))]
    exact hv u hu
  · rintro v a hv ⟨_, hon, hnew⟩
    refine ⟨hon, fun c hc u => ?_⟩
    by_cases hu : u < n
    · exact hnew c hc u hu
    · rw [hv u (Nat.le_of_not_lt hu)]
      exact hinit.co c

/-- Two threads start a coroutine each, in turns, and both coroutines write to
    their stacks and yield. -/
theorem threads_apart_two :
    let e : CallSite := { sp := 0, main := 1, mainBlk := 0x7000, blk := 0 }
    let as : List Op := [.create 0 10 false, .create 1 11 false, .resume 0 (some 10) e,
      .resume 1 (some 11) { e with main := 2, mainBlk := 0x8000 },
      .write 0 0x10ff0 7, .write 1 0x20ff0 9, .yield 0 (some 10) 0x10fe0,
      .yield 1 (some 11) 0x20fe0]
    ∃ w', Fallible.Runs World.step (fun u a => OnThread a.thread u a) World.blank as w' ∧
      ∀ t, ∃ v, Fallible.Runs World.step (OnThread t) World.blank
        (Interleave.mine Op.thread t as) v ∧ Shows t w' v :=
  threads_apart blank_init (along_alone (n := 2) blank_init (Fallible.Checks.along (by decide)))

end Fasco
