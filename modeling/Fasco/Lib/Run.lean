import Mathlib.Logic.Basic
import Mathlib.Tactic.TypeStar

/-!
# Runs of a Fallible Machine

A machine takes one action at a time and either ends in a new state or stops
with a fault. `Runs` is a run of such a machine: a list of actions, each
admitted in the state where it is taken and each ending normally. What admits
an action is a parameter, so the same machine can be run under one caller's
promises and under another's, and `Runs.mono` passes between the two.

Everything proved about a whole run is proved here once from what one step
does. `Runs.invariant` carries a property along a run, `Runs.simulate` carries
a relation to a second machine that follows the same actions, and
`Runs.append_inv` cuts a run at a chosen action, which is what a statement
about two moments of one run needs.

`Along` says that something holds at every step a list of actions takes,
including the last one, which may fault. It is the form in which two
descriptions of the good runs are compared: `along_congr` turns a one-step
equivalence, valid under an invariant, into an equivalence of whole runs.

## Main definitions

* `Runs`: A run whose actions are all admitted and all end normally.
* `Proceeds`: A run that may end in a fault.
* `Along`: A property of every step a list of actions takes.
* `next`, `after`, `Checks`: A run computed and checked action by action.
* `total`: What its actions cost.
* `trace`: The states and answers of a machine whose steps also answer.

## Theorems

* `bind_eq_ok_iff`: A sequence of two computations ends normally when both do.
* `bind_ne_error`: It ends in a fault only if one of them does.
* `Runs.mono`: A run admitted by one condition is admitted by a weaker one.
* `Runs.append`: Runs chain.
* `Runs.append_inv`: A run over a concatenation splits at the seam.
* `Runs.invariant`: What every admitted step preserves holds at the end.
* `Runs.simulate`: A step-wise simulation is a simulation of runs.
* `runs_congr`: Machines that agree step by step have the same runs.
* `Proceeds.trans`, `Proceeds.after`: Runs to an outcome chain.
* `Proceeds.runs`: One that does not fault is a run.
* `Runs.along`: A run meets every property its steps meet.
* `Runs.returns`: None of its steps faults.
* `along_of_invariant`: A property of steps that an invariant implies.
* `along_congr`: Two conditions that agree under an invariant admit the same
  runs.
* `trace_eq_iff`: Two machines with the same trace take the same steps.
* `Checks.runs`, `Checks.along`: A run that checks is a run.
* `Runs.pays`: The cost of a run when each step pays from what there is.
-/

namespace Fallible

universe u

/-- A sequence of two computations ends normally exactly when both do. -/
theorem bind_eq_ok_iff {ε : Type*} {α β : Type u} (x : Except ε α) (f : α → Except ε β) (b : β) :
    (x >>= f) = .ok b ↔ ∃ a, x = .ok a ∧ f a = .ok b := by
  cases x with
  | error e =>
      constructor
      · intro h
        cases h
      · rintro ⟨a, ha, _⟩
        cases ha
  | ok a =>
      constructor
      · intro h
        exact ⟨a, rfl, h⟩
      · rintro ⟨a', ha, hf⟩
        cases ha
        exact hf

/-- A sequence ends in `e` only if one of its two computations does. -/
theorem bind_ne_error {ε : Type*} {α β : Type u} {x : Except ε α} {f : α → Except ε β} {e : ε}
    (hx : x ≠ .error e) (hf : ∀ a, x = .ok a → f a ≠ .error e) : (x >>= f) ≠ .error e := by
  cases x with
  | error e' =>
      intro h
      injection h with h
      exact hx (by rw [h])
  | ok a => exact hf a rfl

theorem ok_bind {ε : Type*} {α β : Type u} (a : α) (f : α → Except ε β) :
    ((Except.ok a : Except ε α) >>= f) = f a := rfl

variable {σ α ε : Type*} (step : σ → α → Except ε σ)

/-- A run: the actions are taken in order, each admitted by `ok` in the state
    where it is taken and each ending normally. -/
inductive Runs (ok : σ → α → Prop) : σ → List α → σ → Prop
  | nil (s : σ) : Runs ok s [] s
  | cons (s s' t : σ) (a : α) (as : List α) (hok : ok s a) (hstep : step s a = .ok s')
      (hrest : Runs ok s' as t) : Runs ok s (a :: as) t

/-- `Q` holds at every step the actions take from `s`, up to and including
    the first that faults. -/
def Along (Q : σ → α → Prop) : σ → List α → Prop
  | _, [] => True
  | s, a :: as => Q s a ∧ ∀ s', step s a = .ok s' → Along Q s' as

variable {step}

theorem Runs.mono {ok ok' : σ → α → Prop} (hle : ∀ s a, ok s a → ok' s a)
    {s t : σ} {as : List α} (h : Runs step ok s as t) : Runs step ok' s as t := by
  induction h with
  | nil s => exact Runs.nil s
  | cons s s' t a as hok hstep _ ih => exact Runs.cons s s' t a as (hle s a hok) hstep ih

theorem Runs.append {ok : σ → α → Prop} {s t u : σ} {as bs : List α}
    (h1 : Runs step ok s as t) (h2 : Runs step ok t bs u) : Runs step ok s (as ++ bs) u := by
  induction h1 with
  | nil s => exact h2
  | cons s s' t a as hok hstep _ ih => exact Runs.cons s s' u a (as ++ bs) hok hstep (ih h2)

theorem Runs.append_inv {ok : σ → α → Prop} {s u : σ} (as bs : List α)
    (h : Runs step ok s (as ++ bs) u) :
    ∃ t, Runs step ok s as t ∧ Runs step ok t bs u := by
  induction as generalizing s with
  | nil => exact ⟨s, Runs.nil s, h⟩
  | cons a as ih =>
      cases h with
      | cons _ s' _ _ _ hok hstep hrest =>
          obtain ⟨t, h1, h2⟩ := ih hrest
          exact ⟨t, Runs.cons s s' t a as hok hstep h1, h2⟩

/-- What every admitted step preserves holds wherever a run ends. -/
theorem Runs.invariant {ok : σ → α → Prop} {I : σ → Prop}
    (hpres : ∀ s a s', I s → ok s a → step s a = .ok s' → I s')
    {s t : σ} {as : List α} (h : Runs step ok s as t) (hs : I s) : I t := by
  induction h with
  | nil s => exact hs
  -- The invariant is taken along from the front of the run.
  | cons s s' t a as hok hstep _ ih => exact ih (hpres s a s' hs hok hstep)

/-- A relation to a second machine that every admitted step keeps, the second
    machine taking `next` for each action of the first, relates the two ends
    of every run. -/
theorem Runs.simulate {ρ : Type*} {ok : σ → α → Prop} {R : σ → ρ → Prop} {next : ρ → α → ρ}
    (hsim : ∀ s r a s', R s r → ok s a → step s a = .ok s' → R s' (next r a))
    {s t : σ} {as : List α} (h : Runs step ok s as t) {r : ρ} (hr : R s r) :
    R t (as.foldl next r) := by
  induction h generalizing r with
  | nil s => exact hr
  | cons s s' t a as hok hstep _ ih => exact ih (hsim s r a s' hr hok hstep)

/-- Two machines whose admitted steps end in the same states wherever an
    invariant holds have the same runs, whatever they fault with. -/
theorem runs_congr {ε' : Type*} {step' : σ → α → Except ε' σ} {ok : σ → α → Prop} {I : σ → Prop}
    (hpres : ∀ s a s', I s → ok s a → step s a = .ok s' → I s')
    (hiff : ∀ s a s', I s → ok s a → (step s a = .ok s' ↔ step' s a = .ok s'))
    {s t : σ} {as : List α} (hs : I s) : Runs step ok s as t ↔ Runs step' ok s as t := by
  constructor
  · intro h
    induction h with
    | nil s => exact Runs.nil s
    | cons s s' t a as hok hstep _ ih =>
        exact Runs.cons s s' t a as hok ((hiff s a s' hs hok).mp hstep)
          (ih (hpres s a s' hs hok hstep))
  · intro h
    induction h with
    | nil s => exact Runs.nil s
    | cons s s' t a as hok hstep _ ih =>
        have hstep' : step s a = .ok s' := (hiff s a s' hs hok).mpr hstep
        exact Runs.cons s s' t a as hok hstep' (ih (hpres s a s' hs hok hstep'))

/-- A run meets whatever each of its steps meets. -/
theorem Runs.along {ok Q : σ → α → Prop} {I : σ → Prop}
    (hpres : ∀ s a s', I s → ok s a → step s a = .ok s' → I s')
    (hQ : ∀ s a, I s → ok s a → Q s a)
    {s t : σ} {as : List α} (h : Runs step ok s as t) (hs : I s) : Along step Q s as := by
  induction h with
  | nil s => exact trivial
  | cons s s' t a as hok hstep _ ih =>
      refine ⟨hQ s a hs hok, fun s'' hs'' => ?_⟩
      -- The machine is a function: the step the run took is the only one.
      have heq : s' = s'' := by
        rw [hstep] at hs''
        injection hs''
      rw [← heq]
      exact ih (hpres s a s' hs hok hstep)

/-- In a run every action ends normally. -/
theorem Runs.returns {ok : σ → α → Prop} {s t : σ} {as : List α} (h : Runs step ok s as t) :
    Along step (fun s a => ok s a ∧ ∃ s', step s a = .ok s') s as := by
  induction h with
  | nil s => exact trivial
  | cons s s' t a as hok hstep _ ih =>
      refine ⟨⟨hok, s', hstep⟩, fun s'' hs'' => ?_⟩
      rw [hstep] at hs''
      injection hs'' with heq
      rw [← heq]
      exact ih

theorem along_true (as : List α) (s : σ) : Along step (fun _ _ => True) s as := by
  induction as generalizing s with
  | nil => exact trivial
  | cons a as ih => exact ⟨trivial, fun s' _ => ih s'⟩

/-- Steps admitted along the way keep an invariant, and so meet whatever the
    invariant implies. -/
theorem along_of_invariant {ok Q : σ → α → Prop} {I : σ → Prop}
    (hpres : ∀ s a s', I s → ok s a → step s a = .ok s' → I s')
    (hQ : ∀ s a, I s → ok s a → Q s a) :
    ∀ (as : List α) (s : σ), I s → Along step ok s as → Along step Q s as := by
  intro as
  induction as with
  | nil =>
      intro s _ _
      exact trivial
  | cons a as ih =>
      intro s hs h
      obtain ⟨hok, hrest⟩ := h
      exact ⟨hQ s a hs hok, fun s' hs' => ih s' (hpres s a s' hs hok hs') (hrest s' hs')⟩

/-- Two conditions on steps that agree wherever the invariant holds admit the
    same lists of actions. The invariant need only be kept by steps that meet
    the second condition: as long as the two agree, those are the steps both
    admit. -/
theorem along_congr {adm Q P : σ → α → Prop} {I : σ → Prop}
    (hpres : ∀ s a s', I s → adm s a → P s a → step s a = .ok s' → I s')
    (hiff : ∀ s a, I s → adm s a → (Q s a ↔ P s a)) :
    ∀ (as : List α) (s : σ), I s → Along step adm s as →
      (Along step Q s as ↔ Along step P s as) := by
  intro as
  induction as with
  | nil =>
      intro s _ _
      exact Iff.rfl
  | cons a as ih =>
      intro s hs hadm
      obtain ⟨ha, hrest⟩ := hadm
      have hhead := hiff s a hs ha
      constructor
      -- What is left of the run starts in a state that the invariant holds in, as the
      -- step was one that both conditions admit.
      · intro h
        obtain ⟨hq, hq'⟩ := h
        have hp := hhead.mp hq
        exact ⟨hp, fun s' hs' =>
          (ih s' (hpres s a s' hs ha hp hs') (hrest s' hs')).mp (hq' s' hs')⟩
      · intro h
        obtain ⟨hp, hp'⟩ := h
        exact ⟨hhead.mpr hp, fun s' hs' =>
          (ih s' (hpres s a s' hs ha hp hs') (hrest s' hs')).mpr (hp' s' hs')⟩

/-! ### Runs to an outcome -/

section Outcome

variable {own : α → Prop}

/-- Actions of the kind `own`, one after another from a state, come to another
    one, or to the fault of the last of them. -/
inductive Proceeds (step : σ → α → Except ε σ) (own : α → Prop) : σ → Except ε σ → Prop
  | done (s : σ) : Proceeds step own s (.ok s)
  | fails {s : σ} {a : α} {e : ε} (ha : own a) (h : step s a = .error e) :
      Proceeds step own s (.error e)
  | cons {s s' : σ} {a : α} {x : Except ε σ} (ha : own a) (h : step s a = .ok s')
      (hrest : Proceeds step own s' x) : Proceeds step own s x

/-- One action. -/
theorem Proceeds.last {s : σ} {a : α} {x : Except ε σ} (ha : own a) (h : step s a = x) :
    Proceeds step own s x := by
  cases x with
  | error e => exact .fails ha h
  | ok s' => exact .cons ha h (.done s')

theorem Proceeds.trans {s s' : σ} {x : Except ε σ} (h1 : Proceeds step own s (.ok s'))
    (h2 : Proceeds step own s' x) : Proceeds step own s x := by
  generalize hy : (Except.ok s' : Except ε σ) = y at h1
  induction h1 with
  | done s =>
      injection hy with hy
      rw [← hy]
      exact h2
  | fails _ _ => cases hy
  | cons ha h _ ih => exact .cons ha h (ih hy)

/-- The actions come to where the first part of a computation ends, and go on
    from there. -/
theorem Proceeds.after {β : Type*} {s : σ} {y : Except ε β} {F : β → σ} {g : β → Except ε σ}
    (h : Proceeds step own s (y.map F))
    (hg : ∀ b, y = .ok b → Proceeds step own (F b) (g b)) : Proceeds step own s (y.bind g) := by
  cases y with
  | error e => exact h
  | ok b => exact h.trans (hg b rfl)

/-- What is reached so is reached by a run. -/
theorem Proceeds.runs {s s' : σ} (h : Proceeds step own s (.ok s')) :
    ∃ as, Runs step (fun _ a => own a) s as s' := by
  generalize hy : (Except.ok s' : Except ε σ) = y at h
  induction h with
  | done s =>
      injection hy with hy
      rw [hy]
      exact ⟨[], .nil _⟩
  | fails _ _ => cases hy
  | @cons s s' a _ ha h _ ih =>
      rcases ih hy with ⟨as, has⟩
      exact ⟨a :: as, .cons _ _ _ _ _ ha h has⟩

end Outcome

/-! ### Steps that answer -/

section Answers

variable {β : Type*} {f g : σ → α → Except ε (σ × β)}

/-- The states of a machine whose steps also answer. -/
def mute (f : σ → α → Except ε (σ × β)) (s : σ) (a : α) : Except ε σ := (f s a).map Prod.fst

theorem mute_eq_ok {s s' : σ} {a : α} (h : mute f s a = .ok s') :
    ∃ b, f s a = .ok (s', b) := by
  unfold mute at h
  cases hf : f s a with
  | error e =>
      rw [hf] at h
      cases h
  | ok r =>
      rw [hf] at h
      injection h with h
      exact ⟨r.2, by rw [← h]⟩

/-- The states the actions go through, each with the answer given there. -/
def trace (f : σ → α → Except ε (σ × β)) : σ → List α → Except ε (List (σ × β))
  | _, [] => .ok []
  | s, a :: as =>
    match f s a with
    | .error e => .error e
    | .ok r =>
      match trace f r.1 as with
      | .error e => .error e
      | .ok rs => .ok (r :: rs)

theorem trace_cons_inv {s : σ} {a : α} {as : List α} {tr : List (σ × β)}
    (h : trace f s (a :: as) = .ok tr) :
    ∃ r rs, f s a = .ok r ∧ trace f r.1 as = .ok rs ∧ tr = r :: rs := by
  unfold trace at h
  cases hf : f s a with
  | error e =>
      rw [hf] at h
      cases h
  | ok r =>
      rw [hf] at h
      simp only [] at h
      cases hr : trace f r.1 as with
      | error e =>
          rw [hr] at h
          cases h
      | ok rs =>
          rw [hr] at h
          injection h with h
          exact ⟨r, rs, rfl, hr, h.symm⟩

/-- A second machine gives the same trace exactly when it takes the same step
    everywhere along the first one's run. -/
theorem trace_eq_iff {s : σ} {as : List α} {tr : List (σ × β)} (h : trace f s as = .ok tr) :
    trace g s as = .ok tr ↔ Along (mute f) (fun s a => g s a = f s a) s as := by
  induction as generalizing s tr with
  | nil => exact ⟨fun _ => trivial, fun _ => h⟩
  | cons a as ih =>
      rcases trace_cons_inv h with ⟨r, rs, hf, hrest, rfl⟩
      constructor
      · intro hg
        rcases trace_cons_inv hg with ⟨r', rs', hg1, hg2, heq⟩
        -- Both machines give the first answer in the same state, and go on from there.
        injection heq with hr hrs
        have hhead : g s a = f s a := by rw [hg1, hf, hr]
        refine ⟨hhead, fun s' hs' => ?_⟩
        rcases mute_eq_ok hs' with ⟨b, hb⟩
        rw [hf] at hb
        injection hb with hb
        rw [hb] at hrest
        rw [← hr, hb, ← hrs] at hg2
        exact (ih hrest).mp hg2
      · rintro ⟨hhead, htail⟩
        have hstep : mute f s a = .ok r.1 := by
          rw [mute, hf]
          rfl
        have hg := (ih hrest).mpr (htail r.1 hstep)
        have hhead' : g s a = f s a := hhead
        unfold trace
        rw [hhead', hf]
        simp only []
        rw [hg]

/-- A trace takes no step that faults. -/
theorem along_of_trace {s : σ} {as : List α} {tr : List (σ × β)} (h : trace f s as = .ok tr) :
    Along (mute f) (fun s a => ∃ r, f s a = .ok r) s as := by
  induction as generalizing s tr with
  | nil => exact trivial
  | cons a as ih =>
      rcases trace_cons_inv h with ⟨r, rs, hf, hrest, rfl⟩
      refine ⟨⟨r, hf⟩, fun s' hs' => ?_⟩
      rcases mute_eq_ok hs' with ⟨b, hb⟩
      rw [hf] at hb
      injection hb with hb
      rw [hb] at hrest
      exact ih hrest

end Answers

/-! ### Runs that are computed -/

variable (step)

/-- The state after one action, or the same state if it faults. -/
def next (s : σ) (a : α) : σ :=
  match step s a with
  | .ok s' => s'
  | .error _ => s

/-- The state after a list of actions. -/
def after (s : σ) (as : List α) : σ := as.foldl (next step) s

/-- What the actions cost, each in the state where it is taken. -/
def total (g : σ → α → Nat) : σ → List α → Nat
  | _, [] => 0
  | s, a :: as => g s a + total g (next step s a) as

/-- Every action is admitted where it is taken, and none faults. -/
def Checks (ok : σ → α → Prop) : σ → List α → Prop
  | _, [] => True
  | s, a :: as => ok s a ∧ (step s a).isOk = true ∧ Checks ok (next step s a) as

instance Checks.decidable (ok : σ → α → Prop) [∀ s a, Decidable (ok s a)] :
    ∀ (s : σ) (as : List α), Decidable (Checks step ok s as)
  | _, [] => isTrue trivial
  | s, a :: as =>
      have := Checks.decidable ok (next step s a) as
      inferInstanceAs (Decidable (_ ∧ _ ∧ _))

variable {step}

theorem step_next {s : σ} {a : α} (h : (step s a).isOk = true) :
    step s a = .ok (next step s a) := by
  unfold next
  cases hs : step s a with
  | ok s' => rfl
  | error e =>
      rw [hs] at h
      cases h

theorem next_of_ok {s s' : σ} {a : α} (h : step s a = .ok s') : next step s a = s' := by
  unfold next
  rw [h]

theorem Checks.runs {ok : σ → α → Prop} : ∀ {as : List α} {s : σ}, Checks step ok s as →
    Runs step ok s as (after step s as)
  | [], s, _ => Runs.nil s
  | a :: as, s, h =>
      Runs.cons s (next step s a) _ a as h.1 (step_next h.2.1) (Checks.runs h.2.2)

/-- Actions that check are admitted all along. -/
theorem Checks.along {ok : σ → α → Prop} : ∀ {as : List α} {s : σ}, Checks step ok s as →
    Along step ok s as
  | [], _, _ => trivial
  | a :: as, s, h => ⟨h.1, fun s' hs' => by
      rw [← next_of_ok hs']
      exact Checks.along h.2.2⟩

/-- If every step pays what it costs from the means there are and from what it
    gains, then so does the run. -/
theorem Runs.pays {ok : σ → α → Prop} {I : σ → Prop} {cost gain : σ → α → Nat} {f : σ → Nat}
    (hpres : ∀ s a s', I s → ok s a → step s a = .ok s' → I s')
    (hstep : ∀ s a s', I s → ok s a → step s a = .ok s' → cost s a + f s' ≤ f s + gain s a)
    {s t : σ} {as : List α} (h : Runs step ok s as t) (hs : I s) :
    total step cost s as + f t ≤ f s + total step gain s as := by
  induction h with
  | nil s => exact Nat.le_of_eq (Nat.zero_add (f s))
  | cons s s' t a as hok hs' _ ih =>
      have hone := hstep s a s' hs hok hs'
      have hrest := ih (hpres s a s' hs hok hs')
      rw [total, total, next_of_ok hs']
      omega

end Fallible
