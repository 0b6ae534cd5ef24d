import Mathlib.Logic.Function.Basic
import Fasco.Lib.Run

/-!
# Interleaved Runs and Solo Runs

Several parties act on one machine, each action being one party's. Whether the
parties disturb each other is a question about their interleavings; what each
of them does by itself is a question about a machine of its own. `solo` puts
one private copy of the machine beside the other, an action being taken by its
owner's copy alone, so that a run of the family is nothing but one run of each
copy (`solo_component`): what happens in between does not exist there.

`shared_run` compares the two. If a relation between the shared machine and
the family survives every action, taken on the one side by the shared machine
and on the other by the owner's copy, then every interleaving whose actions
the copies admit is a run of the shared machine, and it ends in a state
related to the ends of the solo runs. The relation says what a party sees of
the shared machine; that it survives says that nobody else can change it.

## Main definitions

* `solo`: A family of copies, each action taken by its owner's.
* `mine`: The actions of one party.

## Theorems

* `runs_of_along`: Actions that are admitted and return are a run.
* `solo_component`: A run of the family, seen by one party, is a run of its
  copy.
* `shared_run`: Interleaved runs follow the solo runs.
* `stages`: One party's own actions bring it to a stage, whatever the others do.
* `reaches`: They bring it to its goal, if each lowers a bound.
-/

namespace Interleave

open Fallible

variable {ι σ τ α ε : Type*} [DecidableEq ι]

/-- A family of copies of a machine: an action is taken by the copy of its
    owner, and the other copies do not move. -/
def solo (step : σ → α → Except ε σ) (owner : α → ι) (v : ι → σ) (a : α) : Except ε (ι → σ) :=
  (step (v (owner a)) a).map (fun s => Function.update v (owner a) s)

/-- The actions of party `i`, in order. -/
def mine (owner : α → ι) (i : ι) (as : List α) : List α :=
  as.filter (fun a => decide (owner a = i))

variable {step : σ → α → Except ε σ} {owner : α → ι}

theorem solo_eq_ok {v v' : ι → σ} {a : α} :
    solo step owner v a = .ok v' ↔
      ∃ s, step (v (owner a)) a = .ok s ∧ v' = Function.update v (owner a) s := by
  unfold solo
  cases step (v (owner a)) a with
  | error e =>
      constructor
      · intro h
        cases h
      · rintro ⟨s, hs, _⟩
        cases hs
  | ok s =>
      constructor
      · intro h
        injection h with h
        exact ⟨s, rfl, h.symm⟩
      · rintro ⟨s', hs, rfl⟩
        injection hs with hs
        rw [← hs]
        rfl

theorem mine_cons_self {a : α} {i : ι} (as : List α) (h : owner a = i) :
    mine owner i (a :: as) = a :: mine owner i as :=
  List.filter_cons_of_pos (decide_eq_true h)

theorem mine_cons_other {a : α} {i : ι} (as : List α) (h : owner a ≠ i) :
    mine owner i (a :: as) = mine owner i as :=
  List.filter_cons_of_neg (by rw [decide_eq_false h]; decide)

/-- Actions that are admitted all along and that, where they are admitted,
    return, are a run. The invariant may rest on both. -/
theorem runs_of_along {ok : σ → α → Prop} {I : σ → Prop}
    (hpres : ∀ s a s', I s → ok s a → step s a = .ok s' → I s')
    (hret : ∀ s a, I s → ok s a → ∃ s', step s a = .ok s') :
    ∀ (as : List α) (s : σ), I s → Along step ok s as → ∃ t, Runs step ok s as t := by
  intro as
  induction as with
  | nil =>
      intro s _ _
      exact ⟨s, Runs.nil s⟩
  | cons a as ih =>
      intro s hs h
      obtain ⟨hok, hrest⟩ := h
      rcases hret s a hs hok with ⟨s', hstep⟩
      rcases ih s' (hpres s a s' hs hok hstep) (hrest s' hstep) with ⟨t, ht⟩
      exact ⟨t, Runs.cons s s' t a as hok hstep ht⟩

/-- Seen by one party, a run of the family is a run of its own copy over its
    own actions. -/
theorem solo_component {ok : (ι → σ) → α → Prop} {Q : σ → α → Prop} {i : ι}
    (hle : ∀ v a, ok v a → owner a = i → Q (v i) a) {v v' : ι → σ} {as : List α}
    (h : Runs (solo step owner) ok v as v') : Runs step Q (v i) (mine owner i as) (v' i) := by
  induction h with
  | nil v => exact Runs.nil (v i)
  | cons v v1 v' a as hok hstep _ ih =>
      rcases solo_eq_ok.mp hstep with ⟨s, hs, rfl⟩
      by_cases ha : owner a = i
      · rw [mine_cons_self as ha]
        refine Runs.cons (v i) s (v' i) a _ (hle v a hok ha) ?_ ?_
        · rw [← ha]
          exact hs
        · rw [ha, Function.update_self] at ih
          exact ih
      -- Somebody else's action does not move the copy.
      · rw [mine_cons_other as ha]
        rw [Function.update_of_ne (fun h => ha h.symm)] at ih
        exact ih

/-- If the relation between the shared machine and the copies survives every
    admitted action, the interleaved run exists wherever the copies admit the
    actions, and follows the solo runs. -/
theorem shared_run {shared : τ → α → Except ε τ} {R : τ → (ι → σ) → Prop}
    {ok : (ι → σ) → α → Prop} {ok' : τ → α → Prop}
    (hret : ∀ w v a, R w v → ok v a → ∃ s, step (v (owner a)) a = .ok s)
    (hok : ∀ w v a, R w v → ok v a → ok' w a)
    (hfollow : ∀ w v a s, R w v → ok v a → step (v (owner a)) a = .ok s →
      ∃ w', shared w a = .ok w' ∧ R w' (Function.update v (owner a) s)) :
    ∀ (as : List α) (w : τ) (v : ι → σ), R w v → Along (solo step owner) ok v as →
      ∃ w' v', Runs shared ok' w as w' ∧ Runs (solo step owner) ok v as v' ∧ R w' v' := by
  intro as
  induction as with
  | nil =>
      intro w v hR _
      exact ⟨w, v, Runs.nil w, Runs.nil v, hR⟩
  | cons a as ih =>
      intro w v hR h
      obtain ⟨ha, hrest⟩ := h
      rcases hret w v a hR ha with ⟨s, hs⟩
      rcases hfollow w v a s hR ha hs with ⟨w1, hw1, hR1⟩
      have hstep : solo step owner v a = .ok (Function.update v (owner a) s) :=
        solo_eq_ok.mpr ⟨s, hs, rfl⟩
      rcases ih w1 _ hR1 (hrest _ hstep) with ⟨w', v', hw, hv, hR'⟩
      exact ⟨w', v', Runs.cons w w1 w' a as (hok w v a hR ha) hw1 hw,
        Runs.cons v _ v' a as ha hstep hv, hR'⟩

/-- If every action of one party brings it to its next stage, and the actions
    of the others leave it at the stage it is at, then in any interleaving its
    own actions count. -/
theorem stages {P : Nat → σ → Prop} {ok : σ → α → Prop} {q : α → Bool} {m : Nat}
    (hown : ∀ n s a s', n < m → P n s → ok s a → q a = true → step s a = .ok s' →
      P (n + 1) s')
    (hother : ∀ n s a s', P n s → ok s a → q a = false → step s a = .ok s' → P n s')
    {s t : σ} {as : List α} (h : Runs step ok s as t) {n : Nat} (hs : P n s)
    (hle : n + as.countP q ≤ m) : P (n + as.countP q) t := by
  induction h generalizing n with
  | nil s => exact hs
  | cons s s' t a as hok hstep _ ih =>
      cases ha : q a with
      | true =>
          rw [List.countP_cons_of_pos ha] at hle ⊢
          have h1 := hown n s a s' (by omega) hs hok ha hstep
          have h2 := ih h1 (by omega)
          rw [show n + (as.countP q + 1) = n + 1 + as.countP q by omega]
          exact h2
      | false =>
          have ha' : ¬ q a = true := by rw [ha]; exact Bool.false_ne_true
          rw [List.countP_cons_of_neg ha'] at hle ⊢
          exact ih (hother n s a s' hs hok ha hstep) hle

/-- If every action of one party lowers a bound, and the actions of the others
    keep it, then in any interleaving with that many actions of its own there is
    a point at which the bound is zero, after that many of them at most. -/
theorem reaches {P : Nat → σ → Prop} {ok : σ → α → Prop} {q : α → Bool}
    (hown : ∀ n s a s', 0 < n → P n s → ok s a → q a = true → step s a = .ok s' →
      ∃ m, m < n ∧ P m s')
    (hother : ∀ n s a s', 0 < n → P n s → ok s a → q a = false → step s a = .ok s' → P n s')
    {s t : σ} {as : List α} (h : Runs step ok s as t) {n : Nat} (hs : P n s)
    (hle : n ≤ as.countP q) :
    ∃ bs cs u, as = bs ++ cs ∧ Runs step ok s bs u ∧ Runs step ok u cs t ∧ P 0 u ∧
      bs.countP q ≤ n := by
  induction h generalizing n with
  | nil s =>
      have hn : n = 0 := Nat.le_zero.mp hle
      rw [hn] at hs
      exact ⟨[], [], s, rfl, Runs.nil s, Runs.nil s, hs, Nat.zero_le n⟩
  | cons s s' t a as hok hstep hrest ih =>
      cases Nat.eq_zero_or_pos n with
      | inl hn =>
          rw [hn] at hs
          exact ⟨[], a :: as, s, rfl, Runs.nil s, Runs.cons s s' t a as hok hstep hrest, hs,
            Nat.zero_le n⟩
      | inr hn =>
          -- After the action the bound is within what is left.
          have hnext : ∃ m, P m s' ∧ m ≤ as.countP q ∧
              ∀ bs : List α, bs.countP q ≤ m → (a :: bs).countP q ≤ n := by
            cases ha : q a with
            | true =>
                rw [List.countP_cons_of_pos ha] at hle
                rcases hown n s a s' hn hs hok ha hstep with ⟨m, hm, hP⟩
                refine ⟨m, hP, by omega, fun bs hbs => ?_⟩
                rw [List.countP_cons_of_pos ha]
                omega
            | false =>
                have ha' : ¬ q a = true := by rw [ha]; exact Bool.false_ne_true
                rw [List.countP_cons_of_neg ha'] at hle
                refine ⟨n, hother n s a s' hn hs hok ha hstep, hle, fun bs hbs => ?_⟩
                rw [List.countP_cons_of_neg ha']
                exact hbs
          rcases hnext with ⟨m, hP, hm, hcount⟩
          rcases ih hP hm with ⟨bs, cs, u, hsplit, hbs, hcs, hu, hle'⟩
          exact ⟨a :: bs, cs, u, by rw [hsplit, List.cons_append],
            Runs.cons s s' u a bs hok hstep hbs, hcs, hu, hcount bs hle'⟩

end Interleave
