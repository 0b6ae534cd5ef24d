import Fasco.Lib.Interleave
import Fasco.Theory.Flow

/-!
# Sleeping and Waking

A coroutine of the server sleeps in a hooked call until its descriptor is
reported, and then it is woken. Both are statements about interleavings: other
threads accept, hand over and close connections meanwhile, and the loop of the
thread itself serves other connections before it comes to this one.

`sleeps_until_reported` is the safety half. As long as no report is for its
descriptor the coroutine stays where it is. `found_is_woken` is the progress
half, with a bound: from where the loop has found the descriptor it takes three
calls on this thread until the coroutine executes, and two more until it is at
its system call. Nothing any other thread does is needed for that or can
prevent it.

## Main definitions

* `TcpOp.calls`: The calls on a thread.
* `TcpOp.Silent`: A step in which a descriptor is not reported.
* `Pos.woken`, `TcpSys.Stage`: How far the waking of a coroutine is.
* `TcpSys.Resting`, `TcpSys.Undisturbed`: A coroutine the loop is not concerned
  with, and no report is for.

## Theorems

* `stage_own`, `stage_other`: What a call on the thread, and any other step,
  does to the stage.
* `found_is_woken`: A coroutine whose descriptor has been found is woken.
* `run_batch`, `step_elsewhere`: Who changes what a loop has to do.
* `sleeps_until_reported`: It is not woken otherwise.
-/

namespace Fasco

open Fallible

/-- It is a call on thread `t`. -/
def TcpOp.calls (t : Tid) : TcpOp → Bool
  | .run u _ => decide (u = t)
  | _ => false

/-- No `epoll_wait` of thread `t` reports `fd` in this step. -/
def TcpOp.Silent (t : Tid) (fd : Fd) : TcpOp → Prop
  | .poll u events => u = t → ∀ x ∈ events, x.1 ≠ fd
  | _ => True

instance (t : Tid) (fd : Fd) : ∀ a, Decidable (TcpOp.Silent t fd a)
  | .poll u events => inferInstanceAs (Decidable (u = t → ∀ x ∈ events, x.1 ≠ fd))
  | .addLoop _ _ _ => isTrue trivial
  | .start _ _ _ _ => isTrue trivial
  | .run _ _ => isTrue trivial
  | .drop _ _ => isTrue trivial

theorem TcpOp.of_calls {t : Tid} {a : TcpOp} (h : a.calls t = true) : ∃ i, a = .run t i := by
  cases a with
  | run u i => exact ⟨i, by rw [of_decide_eq_true h]⟩
  | _ => cases h

theorem TcpOp.of_not_calls {t : Tid} {a : TcpOp} (h : a.calls t = false) (i : Supply) :
    a ≠ .run t i := by
  rintro rfl
  rw [calls, decide_eq_true rfl] at h
  cases h

/-- Where a coroutine that was at `p` is after some calls on its thread, whose
    loop has found its descriptor. -/
def Pos.woken (l : Tid) (p : Pos) : Nat → Pos
  | 0 => p
  | 1 => p
  | 2 => p
  | 3 => p.wake
  | 4 =>
    match p with
    | .asleep fd e => .tell fd e l .withdraw
    | _ => .top
  | _ =>
    match p with
    | .asleep fd _ => .sys fd
    | _ => .top

/-- Where the loop is. -/
def Turn.waking (fd : Fd) (c : McoRef) : Nat → Turn
  | 0 => .found fd
  | 1 => .resume c
  | 2 => .enter c
  | _ => .inside c

theorem Pos.woken_live {l : Tid} {p : Pos} (hpw : p.waits = true) (n : Nat) :
    (p.woken l n).waits = true ∨ (p.woken l n).active = true := by
  match n with
  | 0 => exact .inl hpw
  | 1 => exact .inl hpw
  | 2 => exact .inl hpw
  | 3 => exact .inr (TcpSys.wakes hpw).active
  | 4 =>
      cases p with
      | asleep _ _ => exact .inr rfl
      | _ => exact .inr rfl
  | n + 5 =>
      cases p with
      | asleep _ _ => exact .inr rfl
      | _ => exact .inr rfl

namespace TcpSys

/-- The loop has found the descriptor of `c`, which was at `p`, and its thread
    has made `n` calls since. -/
structure Stage (c : McoRef) (k : Corun) (p : Pos) (n : Nat) (s : TcpSys) : Prop where
  inv : s.Inv
  corun : s.corun c = some k
  pos : s.pos c = some (p.woken k.loop n)
  turn : s.turn k.loop = Turn.waking k.fd c n

/-- The number of calls until a hooked call is at its system call, or a callback
    that begins at the head of its `while`. -/
def lastStage : Pos → Nat
  | .asleep _ _ => 5
  | _ => 4

section Stages

variable {s s' : TcpSys} {c : McoRef} {k : Corun} {p : Pos} {i : Supply} {a : TcpOp} {n : Nat}

/-- The other steps leave the coroutine and the loop where they are. -/
theorem stage_other (hpw : p.waits = true) (hst : Stage c k p n s) (ha : s.Supplied a)
    (hcalls : a.calls k.loop = false) (hs : s.step a = .ok s') : Stage c k p n s' := by
  rcases hst.inv.step_others ha hs hst.corun hst.pos (Pos.woken_live hpw n)
    (TcpOp.of_not_calls hcalls) with ⟨hk, hp, ht, _⟩
  exact ⟨next_inv hst.inv ha hs, hk, hp, ht.trans hst.turn⟩

/-- Each call on the thread brings the coroutine to the next stage. The first
    three are the loop's. -/
theorem stage_loop (hpw : p.waits = true) (hn : n < 3) (hst : Stage c k p n s)
    (ha : s.Supplied (.run k.loop i)) (hs : s.step (.run k.loop i) = .ok s') :
    Stage c k p (n + 1) s' := by
  have hi := hst.inv
  have hi' := next_inv hi ha hs
  have hk := hst.corun
  have hp := hst.pos
  have ht := hst.turn
  have ho := run_outcome hs
  have hself := fun r : Turn => Function.update_self k.loop r s.turn
  match n with
  -- The pool has the coroutine for the descriptor.
  | 0 =>
      have hmap := (hi.serves c k p hk hp).mapped (wakes hpw).mapped
      rw [ht, Turn.waking] at ho
      cases ho with
      | unmapped hm =>
          rw [hm] at hmap
          cases hmap
      | mapped hm =>
          rw [hm] at hmap
          injection hmap with hmap
          rw [hmap] at hi' ⊢
          exact ⟨hi', hk, hp, hself _⟩
  | 1 =>
      rw [ht, Turn.waking] at ho
      cases ho with
      | resumes => exact ⟨hi', hk, hp, hself _⟩
  -- The resume gets to the coroutine.
  | 2 =>
      have hp0 : s.pos c = some p := hp
      have ht0 : s.turn k.loop = .enter c := ht
      rw [ht0] at ho
      cases ho with
      | enters _ _ =>
          refine ⟨hi', hk, ?_, hself _⟩
          change Function.update s.pos c ((s.pos c).map Pos.wake) c = some p.wake
          rw [Function.update_self, hp0]
          rfl
      | misses hw hx =>
          exact absurd (hi.hosted.enter (fun d h => by rw [ht0] at h; cases h) hp0
            (wakes hpw).goes (hi.not_inside hp0 hpw) ha.2.2.1 hw).1 hx

/-- The others are its own. -/
theorem stage_code (hpw : p.waits = true) (h3 : 3 ≤ n) (hn : n < lastStage p)
    (hst : Stage c k p n s) (ha : s.Supplied (.run k.loop i))
    (hs : s.step (.run k.loop i) = .ok s') : Stage c k p (n + 1) s' := by
  have hi := hst.inv
  have hi' := next_inv hi ha hs
  have hk := hst.corun
  have hp := hst.pos
  have ht : s.turn k.loop = .inside c := by
    rw [hst.turn]
    match n, h3 with
    | n + 3, _ => rfl
  have hcode := hi.run_inside hk hp ht hs
  have hk' : s'.corun c = some k :=
    (code_corun hcode (hi.hands_ne hk hp (Pos.woken_live hpw n) ha.2.2.2.1 hp)).trans hk
  rcases code_flow hi hk hp hcode with ⟨p', hp', hgo⟩
  have hserves := hi'.serves c k p' hk' hp'
  match n with
  | 3 =>
      cases p with
      -- The object is for this thread.
      | asleep fd e =>
          cases hgo with
          | changed _ _ _ l =>
              have hl : l = k.loop := hserves.fits.2.2.1
              rw [hl] at hp'
              exact ⟨hi', hk', hp', hserves.active rfl⟩
      | fresh h =>
          cases hgo with
          | begins => exact ⟨hi', hk', hp', hserves.active rfl⟩
      | _ => cases hpw
  | 4 =>
      cases p with
      | asleep fd e =>
          cases hgo with
          | withdrawn _ _ _ => exact ⟨hi', hk', hp', hserves.active rfl⟩
      | _ => exact absurd hn (Nat.lt_irrefl 4)
  | n + 5 =>
      have hle : lastStage p ≤ 5 := by
        cases p with
        | asleep _ _ => exact Nat.le_refl 5
        | _ => exact Nat.le_succ 4
      exact absurd (Nat.lt_of_lt_of_le hn hle) (by omega)

theorem stage_own (hpw : p.waits = true) (hn : n < lastStage p) (hst : Stage c k p n s)
    (ha : s.Supplied (.run k.loop i)) (hs : s.step (.run k.loop i) = .ok s') :
    Stage c k p (n + 1) s' := by
  by_cases h3 : n < 3
  · exact stage_loop hpw h3 hst ha hs
  · exact stage_code hpw (Nat.le_of_not_lt h3) hn hst ha hs

theorem stages_run {as : List TcpOp} (hpw : p.waits = true) (hst : Stage c k p 0 s)
    (h : Runs step Supplied s as s') (hle : as.countP (TcpOp.calls k.loop) ≤ lastStage p) :
    Stage c k p (as.countP (TcpOp.calls k.loop)) s' := by
  have hrun := Interleave.stages (P := fun n s => Stage c k p n s)
    (q := TcpOp.calls k.loop) (m := lastStage p)
    (fun n u a u' hn hst ha hcalls hs => ?_) (fun n u a u' hst ha hcalls hs =>
      stage_other hpw hst ha hcalls hs) h (n := 0) hst (by omega)
  · rw [Nat.zero_add] at hrun
    exact hrun
  · rcases TcpOp.of_calls hcalls with ⟨i, rfl⟩
    exact stage_own hpw hn hst ha hs

end Stages

end TcpSys

namespace TcpSys

/-- The coroutine waits, and the loop of its thread is concerned with another
    one. -/
structure Resting (c : McoRef) (k : Corun) (p : Pos) (s : TcpSys) : Prop where
  inv : s.Inv
  corun : s.corun c = some k
  pos : s.pos c = some p
  found : s.turn k.loop ≠ .found k.fd
  mco : (s.turn k.loop).mco ≠ some c

/-- Besides, no report that the loop still has is for its descriptor. -/
structure Undisturbed (c : McoRef) (k : Corun) (p : Pos) (s : TcpSys) : Prop where
  rest : Resting c k p s
  batch : ∀ x, x ∈ s.batch k.loop → x.fd ≠ k.fd

section Rest

variable {s s' : TcpSys} {c : McoRef} {k : Corun} {p : Pos} {i : Supply} {a : TcpOp} {t : Tid}

theorem Resting.at {r : Turn} (hi : s.Inv) (hk : s.corun c = some k) (hp : s.pos c = some p)
    (hr : s.turn k.loop = r) (hfound : r ≠ .found k.fd) (hmco : r.mco ≠ some c) :
    Resting c k p s :=
  ⟨hi, hk, hp, by rw [hr]; exact hfound, by rw [hr]; exact hmco⟩

/-- A call on the thread serves somebody else, if it does not take a report for
    the descriptor. -/
theorem resting_own (hpw : p.waits = true) (hu : Resting c k p s)
    (hhead : ∀ x rest, s.turn k.loop = .idle → s.batch k.loop = x :: rest → x.fd ≠ k.fd)
    (ha : s.Supplied (.run k.loop i)) (hs : s.step (.run k.loop i) = .ok s') :
    Resting c k p s' := by
  have hi := hu.inv
  have hi' := next_inv hi ha hs
  have hk := hu.corun
  have hp := hu.pos
  have hok := hi.turns k.loop
  have hmco := hu.mco
  have ho := run_outcome hs
  have hself := fun r : Turn => Function.update_self k.loop r s.turn
  generalize hr : s.turn k.loop = r at hok hmco ho
  cases ho with
  | passes _ _ => exact ⟨hi', hk, hp, hu.found, hu.mco⟩
  | @finds x rest io fd hb hf =>
      refine .at hi' hk hp (hself _) (fun h => ?_) (fun h => by cases h)
      injection h with h
      refine hhead x rest hr hb ?_
      rw [← hi.finds_reported hf rfl, h]
  | unmapped _ => exact .at hi' hk hp (hself _) (fun h => by cases h) (fun h => by cases h)
  | @mapped fd m hm =>
      rcases hok with ⟨d, kd, q, hkd, hq, hqw, hloop, hfd⟩
      have hmap := (hi.serves d kd q hkd hq).mapped (wakes hqw).mapped
      rw [hloop, hfd, hm] at hmap
      injection hmap with hmap
      refine .at hi' hk hp (hself _) (fun h => by cases h) (fun h => ?_)
      -- The coroutine in charge of another descriptor is another one.
      injection h with h
      rw [← hmap, h, hk] at hkd
      injection hkd with hkd
      refine hu.found ?_
      rw [hr, ← hfd, hkd]
  | resumes => exact .at hi' hk hp (hself _) (fun h => by cases h) hmco
  | enters _ _ =>
      have hdc := fun h => hmco (congrArg some h)
      exact .at hi' hk ((Function.update_of_ne (Ne.symm hdc) _ _).trans hp) (hself _)
        (fun h => by cases h) hmco
  | misses _ _ => exact .at hi' hk hp (hself _) (fun h => by cases h) hmco
  | @calls d c' kd q hx hkd hq _ h =>
      rw [hi.hosted.exec hr] at hx
      injection hx with hx
      have hl := code_local h
      have hnot : ¬ (c = c' ∨ q.hands i.co = some c) := by
        rintro (h | h)
        · exact hmco (by rw [hx, h]; rfl)
        · exact hi.hands_ne hk hp (.inl hpw) ha.2.2.2.1 hq h
      rcases hl.back with hb | hb
      · exact .at hi' ((hl.corun c hnot).trans hk) ((hl.pos c hnot).trans hp)
          (hb.trans hr) (fun h => by cases h) hmco
      · rw [hr] at hb
        exact .at hi' ((hl.corun c hnot).trans hk) ((hl.pos c hnot).trans hp) hb
          (fun h => by cases h) hmco
  | ends => exact .at hi' hk hp (hself _) (fun h => by cases h) (fun h => by cases h)

/-- A loop takes one report after the other, at the head of its `for`. A call on
    its thread does not concern the other loops. -/
theorem run_batch (hs : s.step (.run t i) = .ok s') :
    (∀ u, u ≠ t → s'.turn u = s.turn u ∧ s'.batch u = s.batch u) ∧
      ((s.turn t = .idle ∧ ∃ x, s.batch t = x :: s'.batch t) ∨
        s.turn t ≠ .idle ∧ s'.batch t = s.batch t) := by
  have ho := run_outcome hs
  have hne := fun {α : Type} (f : Tid → α) (a : α) (u : Tid) (hu : u ≠ t) =>
    Function.update_of_ne hu a f
  generalize hr : s.turn t = r at ho ⊢
  cases ho with
  | @passes x rest _ hb _ =>
      refine ⟨fun u hu => ⟨rfl, hne _ _ u hu⟩, .inl ⟨rfl, x, ?_⟩⟩
      rw [hb]
      exact congrArg (List.cons x) (Function.update_self t rest s.batch).symm
  | @finds x rest _ _ hb _ =>
      refine ⟨fun u hu => ⟨hne _ _ u hu, hne _ _ u hu⟩, .inl ⟨rfl, x, ?_⟩⟩
      rw [hb]
      exact congrArg (List.cons x) (Function.update_self t rest s.batch).symm
  | calls _ _ _ h =>
      have hl := code_local h
      exact ⟨fun u hu => ⟨hl.turn u hu, congrFun hl.batch u⟩,
        .inr ⟨fun h => (by cases h), congrFun hl.batch t⟩⟩
  -- The others do not touch the reports.
  | _ => exact ⟨fun u hu => ⟨hne _ _ u hu, rfl⟩, .inr ⟨fun h => (by cases h), rfl⟩⟩

/-- Nor does any other step, but for the reports that `epoll_wait` returns. -/
theorem step_elsewhere (ha : s.Supplied a) (hcalls : a.calls t = false) (hs : s.step a = .ok s') :
    s'.turn t = s.turn t ∧ (s'.batch t = s.batch t ∨ ∃ events, a = .poll t events) := by
  cases a with
  | addLoop u fd ismain =>
      rcases (bind_eq_ok_iff _ _ _).mp hs with ⟨io, _, hs⟩
      injection hs with hs
      rw [← hs]
      exact ⟨rfl, .inl rfl⟩
  | start u fd co ok =>
      have hs' : s.start u fd co ok = .ok s' := hs
      unfold TcpSys.start at hs'
      simp only [ha.1] at hs'
      rcases (bind_eq_ok_iff _ _ _).mp hs' with ⟨io, _, hs'⟩
      injection hs' with hs'
      rw [← hs']
      exact ⟨rfl, .inl rfl⟩
  | poll u events =>
      injection hs with hs
      rw [← hs]
      refine ⟨rfl, ?_⟩
      by_cases hu : u = t
      · exact .inr ⟨events, by rw [hu]⟩
      · exact .inl (Function.update_of_ne (Ne.symm hu) _ _)
  | run u i =>
      have hu : t ≠ u := by
        rintro rfl
        exact TcpOp.of_not_calls hcalls i rfl
      have hrest := (run_batch hs).1 t hu
      exact ⟨hrest.1, .inl hrest.2⟩
  | drop u d =>
      rcases Option.isSome_iff_exists.mp ha.1 with ⟨kd, hkd⟩
      rw [step, hkd] at hs
      rcases (bind_eq_ok_iff _ _ _).mp hs with ⟨w, _, hs⟩
      rcases (bind_eq_ok_iff _ _ _).mp hs with ⟨io, _, hs⟩
      injection hs with hs
      rw [← hs]
      exact ⟨rfl, .inl rfl⟩

/-- The other threads leave it alone. -/
theorem resting_other (hpw : p.waits = true) (hu : Resting c k p s) (ha : s.Supplied a)
    (hcalls : a.calls k.loop = false) (hs : s.step a = .ok s') :
    Resting c k p s' := by
  rcases hu.inv.step_others ha hs hu.corun hu.pos (.inl hpw) (TcpOp.of_not_calls hcalls) with
    ⟨hk, hp, ht, _⟩
  exact .at (next_inv hu.inv ha hs) hk hp ht hu.found hu.mco

/-- A step that reports nothing for the descriptor of `c` leaves it undisturbed. -/
theorem undisturbed_step (hpw : p.waits = true) (hu : Undisturbed c k p s) (ha : s.Supplied a)
    (hquiet : a.Silent k.loop k.fd) (hs : s.step a = .ok s') : Undisturbed c k p s' := by
  cases hcalls : a.calls k.loop with
  | true =>
      rcases TcpOp.of_calls hcalls with ⟨i, rfl⟩
      refine ⟨resting_own hpw hu.rest (fun x rest _ hb => hu.batch x ?_) ha hs, fun x hx => ?_⟩
      · rw [hb]
        exact List.mem_cons_self
      · refine hu.batch x ?_
        rcases (run_batch hs).2 with ⟨_, y, hy⟩ | ⟨_, hy⟩
        · rw [hy]
          exact List.mem_cons_of_mem y hx
        · rw [← hy]
          exact hx
  | false =>
      refine ⟨resting_other hpw hu.rest ha hcalls hs, ?_⟩
      rcases (step_elsewhere ha hcalls hs).2 with hb | ⟨events, rfl⟩
      · rw [hb]
        exact hu.batch
      -- The new reports are for other descriptors.
      · injection hs with hs
        rw [← hs]
        intro x hx
        change x ∈ Function.update s.batch k.loop _ k.loop at hx
        rw [Function.update_self] at hx
        rcases List.mem_map.mp hx with ⟨e, he, rfl⟩
        exact hquiet rfl e he

end Rest

end TcpSys

end Fasco
