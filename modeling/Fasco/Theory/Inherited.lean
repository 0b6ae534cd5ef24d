import Fasco.Core.PoolInThreads
import Fasco.Lib.Run

/-!
# What a New Thread Finds

Two threads never have one object: the tables give every id an object of its
own. But an object belongs to the id and not to the thread, and the kernel
uses an id again. A thread that starts under the id of an exited one finds the
object as the other has left it, with its call stack, its current coroutine
and its descriptors.

The exact place where a run goes wrong is the start of a thread. As long as
none starts under an id for which a table still holds an object that is not as
its constructor leaves it (`Clean`), every thread finds a fresh object when it
asks for the first time, unless somebody has filled it in the meantime. The
invariant is `Pristine`: what a live thread has not asked for and nobody has
filled since it started is fresh.

`McoResume` is written for that: it makes a coroutine for the thread's own
code if the index is 0, which is how a thread that has never resumed anything
shows. With the index of an exited thread it takes that thread's coroutine for
its own.

## Main definitions

* `Threads.Clean`: No thread starts with a used object.
* `Threads.Pristine`: The invariant.
* `Threads.FirstItemFresh`: What a first call of `Item` returns.
* `Threads.Unshared`: No two threads have one object.
* `Threads.otherId`, `Threads.reused`: Histories with an id that is not, and
  that is, used again.

## Theorems

* `find_getT`, `find_modify`: The tables after the two operations.
* `pristine_step`, `pristine_run`: Every step keeps the invariant.
* `items_not_inherited`: In a clean run every thread starts afresh.
* `call_stack_inherited`: A thread that finds the call stack of another.
-/

namespace Fasco

open Fallible

namespace PoolInThreads

variable {α : Type}

-- The objects of other ids are where they were.
theorem find_insert (p : PoolInThreads α) (fresh : α) (tid : Tid) :
    (p.insert fresh tid).find = Function.update p.find tid (some fresh) := by
  funext t
  by_cases ht : t = tid
  · rw [ht, Function.update_self]
    simp [find, insert]
  · rw [Function.update_of_ne ht]
    simp only [find, insert, Function.update_of_ne ht]
    cases hp : p.pools t with
    | none => rfl
    | some r => simp [List.getElem?_append_left (p.stored t r hp)]

/-- An id in the table has an object. -/
theorem find_of_pools (p : PoolInThreads α) {t : Tid} {r : Nat} (h : p.pools t = some r) :
    ∃ x, p.find t = some x ∧ p.items[r]? = some x := by
  have hlt := p.stored t r h
  exact ⟨p.items[r], by simp [find, h, hlt], by simp [hlt]⟩

/-- `Item` returns the object in the table, or the new one. -/
theorem find_getT (p : PoolInThreads α) (fresh : α) (tid : Tid) :
    (p.getT fresh tid).1.find = Function.update p.find tid (some ((p.find tid).getD fresh)) := by
  unfold getT
  cases hp : p.pools tid with
  | none =>
      simp only [find_insert]
      simp [find, hp]
  | some r =>
      obtain ⟨x, hx, _⟩ := p.find_of_pools hp
      simp only [hx, Option.getD_some]
      rw [← hx, Function.update_eq_self]

theorem getT_pools (p : PoolInThreads α) (fresh : α) (tid : Tid) :
    (p.getT fresh tid).1.pools tid = some (p.getT fresh tid).2 := by
  unfold getT
  cases hp : p.pools tid with
  | none => simp [insert]
  | some r => exact hp

/-- What the reference that `Item` returns refers to. -/
theorem getT_item (p : PoolInThreads α) (fresh : α) (tid : Tid) :
    (p.getT fresh tid).1.items[(p.getT fresh tid).2]? = some ((p.find tid).getD fresh) := by
  obtain ⟨x, hx, hr⟩ := (p.getT fresh tid).1.find_of_pools (p.getT_pools fresh tid)
  rw [hr, ← hx, find_getT, Function.update_self]

/-- A call reaches the id that has the object, and no other. -/
theorem find_modify (p : PoolInThreads α) (r : Nat) (f : α → α) (t : Tid) :
    (p.modify r f).find t = if p.pools t = some r then (p.find t).map f else p.find t := by
  cases hp : p.pools t with
  | none => simp [find, modify, hp]
  | some r' =>
      have hlt := p.stored t r' hp
      by_cases hr : r' = r
      · simp [find, modify, hp, hr]
      · have hne : r ≠ r' := Ne.symm hr
        simp [find, modify, hp, hr, hne, List.getElem?_modify]

end PoolInThreads

/-- A call that only reads leaves the object as it is. -/
theorem PoolKind.run_reads (k : PoolKind) (m : k.Call) (x : k.Item) (h : k.reads m = true) :
    k.run m x = x := by
  cases k with
  | mcoPool =>
      cases m <;> first | rfl | simp [reads] at h
  | callStack =>
      cases m <;> first | rfl | simp [reads] at h
  | stackMgr =>
      cases m <;> first | rfl | simp [reads] at h

namespace Threads

/-- A thread that starts finds no used object under its id. -/
def Clean (s : Threads) : ThreadOp → Prop
  | .start t => ∀ k x, (s.pool k).find t = some x → k.Fresh x
  | _ => True

/-- What a live thread has not asked for, and nobody has changed since it
    started, is as its constructor left it. -/
def Pristine (s : Threads) : Prop :=
  ∀ t k x, s.live t = true → s.asked t k = false → s.filled t k = false →
    (s.pool k).find t = some x → k.Fresh x

/-- The first call of `Item()` of a live thread returns an object in its
    freshly constructed state, unless it has been filled since the thread
    started. -/
def FirstItemFresh (s : Threads) : Prop :=
  ∀ u k blk, s.Admits (.item u k blk) → s.asked u k = false → s.filled u k = false →
    ∃ x, k.Fresh x ∧
      ((s.pool k).getT (k.construct blk) u).1.items[((s.pool k).getT (k.construct blk) u).2]? =
        some x

/-- Two live threads have no object in common. -/
def Unshared (s : Threads) : Prop :=
  ∀ k t u r, s.live t = true → s.live u = true → t ≠ u → (s.pool k).pools t = some r →
    (s.pool k).pools u ≠ some r

/-! ### One step -/

/-- After a request the table that was asked has an object for the id, and
    nothing else has changed. -/
theorem find_of_getT (s : Threads) (u : Tid) (k : PoolKind) (tid : Tid) (blk : Option Nat)
    {t : Tid} {j : PoolKind} {x : j.Item} (h : ((s.getT u k tid blk).pool j).find t = some x) :
    (s.pool j).find t = some x ∨ j.Fresh x := by
  by_cases hj : j = k
  · subst hj
    have hpool : (s.getT u j tid blk).pool j = ((s.pool j).getT (j.construct blk) tid).1 :=
      Function.update_self _ _ _
    rw [hpool, PoolInThreads.find_getT] at h
    by_cases ht : t = tid
    · rw [ht, Function.update_self] at h
      injection h with h
      cases hf : (s.pool j).find tid with
      | none =>
          rw [hf, Option.getD_none] at h
          exact Or.inr ⟨blk, h.symm⟩
      | some y =>
          rw [hf, Option.getD_some] at h
          rw [ht, hf, h]
          exact Or.inl rfl
    · rw [Function.update_of_ne ht] at h
      exact Or.inl h
  · have hpool : (s.getT u k tid blk).pool j = s.pool j := Function.update_of_ne hj _ _
    rw [hpool] at h
    exact Or.inl h

theorem Pristine.getT {s : Threads} (h : Pristine s) (u : Tid) (k : PoolKind) (tid : Tid)
    (blk : Option Nat) : Pristine (s.getT u k tid blk) := by
  intro t j x hlive hasked hfilled hx
  rcases find_of_getT s u k tid blk hx with hold | hfresh
  · exact h t j x hlive hasked hfilled hold
  · exact hfresh

theorem Pristine.setAsked {s : Threads} (h : Pristine s) (u : Tid) (k : PoolKind) :
    Pristine (s.setAsked u k) := by
  intro t j x hlive hasked hfilled hx
  refine h t j x hlive ?_ hfilled hx
  -- Who has asked now may have asked before.
  have hasked' : Function.update s.asked u (Function.update (s.asked u) k true) t j = false :=
    hasked
  by_cases ht : t = u
  · rw [ht] at hasked' ⊢
    rw [Function.update_self] at hasked'
    by_cases hj : j = k
    · rw [hj, Function.update_self] at hasked'
      cases hasked'
    · rwa [Function.update_of_ne hj] at hasked'
  · rwa [Function.update_of_ne ht] at hasked'

/-- A call fills the object it changes. -/
theorem Pristine.call {s : Threads} (h : Pristine s) (k : PoolKind) (r : Nat) (m : k.Call) :
    Pristine (s.call k r m) := by
  intro t j x hlive hasked hfilled hx
  have hboth : s.filled t j = false ∧
      (decide (j = k) && !k.reads m && decide ((s.pool k).pools t = some r)) = false := by
    have hf : (s.filled t j ||
        (decide (j = k) && !k.reads m && decide ((s.pool k).pools t = some r))) = false := hfilled
    exact Bool.or_eq_false_iff.mp hf
  by_cases hj : j = k
  · subst hj
    have hpool : (s.call j r m).pool j = (s.pool j).modify r (j.run m) :=
      Function.update_self _ _ _
    rw [hpool, PoolInThreads.find_modify] at hx
    by_cases hr : (s.pool j).pools t = some r
    · -- The object is not filled, so the call has only read it.
      have hread : j.reads m = true := by
        have h2 := hboth.2
        simpa [hr] using h2
      rw [if_pos hr] at hx
      rcases Option.map_eq_some_iff.mp hx with ⟨y, hy, hxy⟩
      rw [j.run_reads m y hread] at hxy
      rw [← hxy]
      exact h t j y hlive hasked hboth.1 hy
    · rw [if_neg hr] at hx
      exact h t j x hlive hasked hboth.1 hx
  · have hpool : (s.call k r m).pool j = s.pool j := Function.update_of_ne hj _ _
    rw [hpool] at hx
    exact h t j x hlive hasked hboth.1 hx

/-- A thread that starts has what is under its id; the others have what they
    had. -/
theorem Pristine.start {s : Threads} (h : Pristine s) {t : Tid} (hclean : s.Clean (.start t)) :
    Pristine (s.start t) := by
  intro u k x hlive hasked hfilled hx
  by_cases hu : u = t
  · rw [hu] at hx
    exact hclean k x hx
  · have hlive' : Function.update s.live t true u = true := hlive
    have hasked' : Function.update s.asked t (fun _ => false) u k = false := hasked
    have hfilled' : Function.update s.filled t (fun _ => false) u k = false := hfilled
    rw [Function.update_of_ne hu] at hlive' hasked' hfilled'
    exact h u k x hlive' hasked' hfilled' hx

theorem Pristine.exit {s : Threads} (h : Pristine s) (t : Tid) : Pristine (s.exit t) := by
  intro u k x hlive hasked hfilled hx
  have hlive' : Function.update s.live t false u = true := hlive
  by_cases hu : u = t
  · rw [hu, Function.update_self] at hlive'
    cases hlive'
  · rw [Function.update_of_ne hu] at hlive'
    exact h u k x hlive' hasked hfilled hx

theorem pristine_step (s : Threads) (a : ThreadOp) (s' : Threads) (h : Pristine s)
    (hclean : s.Clean a) (hstep : s.step a = .ok s') : Pristine s' := by
  cases a with
  | start t =>
      injection hstep with hstep
      rw [← hstep]
      exact h.start hclean
  | exit t =>
      injection hstep with hstep
      rw [← hstep]
      exact h.exit t
  | item u k blk =>
      injection hstep with hstep
      rw [← hstep]
      exact (h.getT u k u blk).setAsked u k
  | itemOf u k tid blk =>
      injection hstep with hstep
      rw [← hstep]
      exact h.getT u k tid blk
  | call u k r m =>
      injection hstep with hstep
      rw [← hstep]
      exact h.call k r m

theorem pristine_init (live : Tid → Bool) : Pristine (init live) := by
  intro t k x _ _ _ hx
  cases hx

theorem pristine_run {s t : Threads} {as : List ThreadOp}
    (h : Runs step (fun s a => s.Admits a ∧ s.Clean a) s as t) (hs : Pristine s) : Pristine t :=
  h.invariant (fun s a s' hi ha hstep => pristine_step s a s' hi ha.2 hstep) hs

/-! ### Whole histories -/

theorem Pristine.firstItemFresh {s : Threads} (h : Pristine s) : s.FirstItemFresh := by
  intro u k blk hlive hasked hfilled
  refine ⟨((s.pool k).find u).getD (k.construct blk), ?_, PoolInThreads.getT_item _ _ _⟩
  cases hf : (s.pool k).find u with
  | none => exact ⟨blk, rfl⟩
  | some x => exact h u k x hlive hasked hfilled hf

theorem unshared (s : Threads) : s.Unshared := by
  intro k t u r _ _ hne ht hu
  exact hne ((s.pool k).own t u r ht hu)

/-- In a history in which no thread starts under an id that still has a used
    object, the first object a thread asks for is as its constructor leaves
    it, unless somebody has filled it after the thread had started; and no two
    threads have one object. -/
theorem items_not_inherited (live : Tid → Bool) (as : List ThreadOp) (s : Threads)
    (h : Runs step (fun s a => s.Admits a ∧ s.Clean a) (init live) as s) :
    s.FirstItemFresh ∧ s.Unshared :=
  ⟨(pristine_run h (pristine_init live)).firstItemFresh, unshared s⟩

/-- Thread 1 uses its call stack and exits, and the next thread gets another
    id. -/
def otherId : List ThreadOp :=
  [.start 1, .item 1 .callStack none, .call 1 .callStack 0 (.put 0 7), .exit 1, .start 2]

theorem items_not_inherited_other :
    (after step (init (fun _ => false)) otherId).FirstItemFresh ∧
      (after step (init (fun _ => false)) otherId).Unshared :=
  items_not_inherited (fun _ => false) otherId _ (Checks.runs
    ⟨⟨by decide, fun k x hx => by cases k <;> cases hx⟩, rfl, ⟨by decide, trivial⟩, rfl,
      ⟨by decide, trivial⟩, rfl, ⟨by decide, trivial⟩, rfl,
      ⟨by decide, fun k x hx => by cases k <;> cases hx⟩, rfl, trivial⟩)

/-- Thread 1 resumes a coroutine, so that its call stack holds the coroutine
    of its own code, and exits; the kernel gives its id to a new thread. -/
def reused : List ThreadOp :=
  [.start 1, .item 1 .callStack none, .call 1 .callStack 0 (.put 0 7),
    .call 1 .callStack 0 (.setCurrIndex 1), .exit 1, .start 1]

/-- The new thread finds the call stack of the exited one. -/
theorem call_stack_inherited :
    ¬ ∀ (live : Tid → Bool) (as : List ThreadOp) (s : Threads),
      Runs step Admits (init live) as s → s.FirstItemFresh ∧ s.Unshared := by
  intro hall
  have hrun : Runs step Admits (init (fun _ => false)) reused
      (after step (init (fun _ => false)) reused) := Checks.runs (by decide)
  obtain ⟨x, ⟨blk, hx⟩, hitem⟩ := (hall _ _ _ hrun).1 1 .callStack none rfl rfl rfl
  -- The index of the object is 1, and a fresh one has index 0.
  have hindex : x.index = 1 := by
    injection hitem with hitem
    rw [← hitem]
    rfl
  rw [hx] at hindex
  cases hindex

end Threads

end Fasco
