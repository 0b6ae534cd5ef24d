import Fasco.Theory.Openings

/-!
# How Long a Turn Takes

A loop resumes one coroutine after the other, and nothing interrupts one: the
reports behind it in `occur` wait until it gives up control by itself. What
limits that is the hooks. Before each system call on a descriptor that blocks,
the hooked call yields, so a callback that is woken makes one system call, does
what follows from it, and comes to the next yield or to its end. On a descriptor
that does not block it would go on for as long as there is something to read.

`Pos.left` counts the calls that are left until then, at most, along the graph
of `Pos.Goes`; `turnLeft` adds those of the loop. Each call on the thread lowers
it and no call on another thread does anything to it, which gives two bounds.
A loop that has got `n` reports is back in `epoll_wait` after `21 * n` calls
(`loop_comes_back`), so that no connection keeps its thread to itself; and a
coroutine that has `n` reports before its own executes after `21 * n + 24`
(`report_is_reached`), so that none is starved.

## Main definitions

* `TcpOp.blocking`: The connections that are accepted block.
* `TcpSys.Blocking`: Then all descriptors in charge of a coroutine do.
* `Pos.left`, `TcpSys.turnLeft`, `TcpSys.callsLeft`: The calls that are left.
* `TcpSys.Queued`, `TcpSys.Awaits`: How far the report for a coroutine is.

## Theorems

* `Pos.Goes.lowers`: A call of a callback lowers the number.
* `step_blocking`: Every step keeps the descriptors that block.
* `run_left`, `other_left`: Every call on the thread lowers it, and nothing else
  does.
* `loop_comes_back`: The calls between one `epoll_wait` and the next.
* `report_is_reached`: The calls until a report is served.
-/

namespace Fasco

open Fallible

/-- A connection that is accepted in this step blocks. -/
def TcpOp.blocking : TcpOp → Bool
  | .run _ i => i.accepted.all (fun r => !r.2)
  | _ => true

/-- The calls that are left in the hooked `close`. -/
def ClosePos.left : ClosePos → Nat
  | .cur => 10
  | .fdmco _ => 9
  | .clear => 8
  | .remove => 7
  | .look => 6
  | .find _ => 5
  | .ask _ => 4
  | .tell _ _ => 3
  | .out _ => 2

/-- The calls that are left until control goes back to the loop. -/
def Pos.left : Pos → Nat
  | .start => 9
  | .report _ _ .withdraw => 16
  | .tell _ _ _ .withdraw => 15
  | .sys _ => 14
  | .accepted _ => 13
  | .made _ _ _ => 12
  | .give _ _ _ _ => 11
  | .enter _ _ _ => 10
  | .leave _ _ => 9
  | .top => 8
  | .check _ _ => 7
  | .look _ => 6
  | .find _ _ => 5
  | .report _ _ _ => 4
  | .tell _ _ _ _ => 3
  | .yield _ _ => 2
  | .switch _ _ _ => 1
  | .close _ q => q.left
  | .finish => 1
  | _ => 0

/-- A call lowers it, unless the hook goes to the system call at once. -/
theorem Pos.Goes.lowers {p q : Pos} (h : p.Goes q) (hplain : ∀ fd, p = .top → q ≠ .sys fd) :
    q.left < p.left := by
  cases h with
  | plain fd => exact absurd rfl (hplain fd rfl)
  | changed fd e r l =>
      cases r with
      | withdraw => exact Nat.lt_succ_self 15
      | ask => exact Nat.lt_succ_self 3
      | enrol => exact Nat.lt_succ_self 3
  | closes fd h =>
      cases h with
      | asked m => exact Nat.lt_succ_self 9
      | same m => exact Nat.lt_succ_self 8
      | other m => exact Nat.lt_add_of_pos_right (n := 7) (k := 2) (by decide)
      | cleared => exact Nat.lt_succ_self 7
      | removed => exact Nat.lt_succ_self 6
      | looked l => exact Nat.lt_succ_self 5
      | found l e => exact Nat.lt_succ_self 4
      | marked e l => exact Nat.lt_succ_self 3
      | told e l => exact Nat.lt_succ_self 2
  | _ => simp only [Pos.left, ClosePos.left]; omega

theorem ClosePos.left_le (q : ClosePos) : q.left ≤ 10 := by
  cases q <;> simp [left]

theorem Pos.left_le (p : Pos) : p.left ≤ 16 := by
  cases p with
  | report _ _ r => cases r <;> simp [left]
  | tell _ _ _ r => cases r <;> simp [left]
  | close _ q => exact Nat.le_trans q.left_le (by decide)
  | _ => simp [left]

namespace TcpSys

/-- The calls that are left of a turn of the loop. -/
def turnLeft (s : TcpSys) : Turn → Nat
  | .idle => 0
  | .found _ => 20
  | .resume _ => 19
  | .enter _ => 18
  | .inside c => 1 + ((s.pos c).map Pos.left).getD 0
  | .after _ => 1

/-- The calls that are left on thread `t` until it is in `epoll_wait`. -/
def callsLeft (s : TcpSys) (t : Tid) : Nat := s.turnLeft (s.turn t) + 21 * (s.batch t).length

/-! ### Descriptors that block -/

/-- The descriptors that are in charge of a coroutine, or will be, block. -/
structure Blocking (s : TcpSys) : Prop where
  bound : ∀ c k, s.corun c = some k → s.io.kern.nonblock k.fd = false
  accepted : ∀ c g, s.pos c = some (.accepted g) → s.io.kern.nonblock g = false
  made : ∀ c g e l, s.pos c = some (.made g e l) → s.io.kern.nonblock g = false

section Blocking

variable {s s' : TcpSys} {a : TcpOp} {t : Tid} {i : Supply} {c d : McoRef} {k : Corun} {p q : Pos}
  {g : Fd} {e : EvRef} {l : Tid}

/-- A descriptor on its way to a coroutine is open. -/
theorem Inv.coming_open (hi : s.Inv) (hp : s.pos c = some p)
    (h : p = .accepted g ∨ ∃ e l, p = .made g e l) : s.io.kern.isOpen g = true := by
  have hacc := hi.accepts c p hp
  rcases h with rfl | ⟨e, l, rfl⟩
  · exact hacc.1
  · rcases hacc with ⟨⟨x, hx, hxf, _⟩, _⟩
    rw [← hxf]
    exact hi.neat.opened e x hx

/-- After a step every callback is bound as before, or to a descriptor that
    blocks for another reason, and so for the descriptors on their way. -/
theorem Blocking.after (hi : s.Inv) (hb : s.Blocking) (ha : s.Supplied a)
    (hs : s.step a = .ok s')
    (hk : ∀ c k, s'.corun c = some k → s.corun c = some k ∨ s'.io.kern.nonblock k.fd = false)
    (hp : ∀ c q g, s'.pos c = some q → (q = .accepted g ∨ ∃ e l, q = .made g e l) →
      s.pos c = some q ∨ s'.io.kern.nonblock g = false) : s'.Blocking := by
  have hcoming : ∀ c q g, s'.pos c = some q → (q = .accepted g ∨ ∃ e l, q = .made g e l) →
      s'.io.kern.nonblock g = false := by
    intro c q g hq hg
    rcases hp c q g hq hg with hq0 | h
    · rw [(hi.step_opening ha hs (hi.coming_open hq0 hg)).2]
      rcases hg with rfl | ⟨e, l, rfl⟩
      · exact hb.accepted c g hq0
      · exact hb.made c g e l hq0
    · exact h
  refine ⟨fun c k hck => ?_, fun c g hq => hcoming c _ g hq (.inl rfl),
    fun c g e l hq => hcoming c _ g hq (.inr ⟨e, l, rfl⟩)⟩
  rcases hk c k hck with hck0 | h
  · rw [(hi.step_opening ha hs (hi.bound_open hck0)).2]
    exact hb.bound c k hck0
  · exact h

/-- The acceptor has opened what it has accepted. -/
theorem sys_opens {fd : Fd} (hcode : s.code t c k i (.sys fd) = .ok s')
    (hq : s'.pos c = some (.accepted g)) :
    ∃ r, i.accepted = some r ∧ r.1 = g ∧ s'.io.kern = s.io.kern.openFd r.1 r.2 := by
  have ho := code_returns hcode
  cases ho with
  | @moves _ p' io hm =>
      have hp' : p' = .accepted g :=
        Option.some.inj ((Function.update_self c _ s.pos).symm.trans hq)
      cases hm with
      | @accepted _ g' nonblock _ hr =>
          refine ⟨_, hr, ?_, rfl⟩
          by_cases h0 : 0 < g'
          · rw [if_pos h0] at hp'
            injection hp'
          · rw [if_neg h0] at hp'
            cases hp'
      | refused _ _ => cases hp'
      | again _ _ => cases hp'
      | stops _ _ _ => cases hp'

/-- A coroutine comes to a descriptor by accepting it. -/
theorem accepts_blocking (hi : s.Inv) (hb : s.Blocking) (ha : s.Supplied (.run k.loop i))
    (hblock : TcpOp.blocking (.run k.loop i) = true) (hk : s.corun c = some k)
    (hp : s.pos c = some p) (hs : s.step (.run k.loop i) = .ok s')
    (hcode : s.code k.loop c k i p = .ok s') (hq : s'.pos c = some q)
    (hg : q = .accepted g ∨ ∃ e l, q = .made g e l) : s'.io.kern.nonblock g = false := by
  rcases code_flow hi hk hp hcode with ⟨q', hq', hgo⟩
  rw [hq] at hq'
  injection hq' with hq'
  rw [← hq'] at hgo
  rcases hg with rfl | ⟨e, l, rfl⟩
  · cases hgo with
    | accepts fd _ =>
        rcases sys_opens hcode hq with ⟨r, hr, hrg, hkern⟩
        have hall : i.accepted.all (fun r => !r.2) = true := hblock
        rw [hr] at hall
        rw [hkern, hrg]
        exact (Function.update_self _ _ _).trans ((Bool.not_eq_true' r.2).mp hall)
  · cases hgo with
    | chosen _ _ _ =>
        rw [(hi.step_opening ha hs (hi.coming_open hp (.inl rfl))).2]
        exact hb.accepted c g hp

theorem run_blocking (hi : s.Inv) (hb : s.Blocking) (ha : s.Supplied (.run t i))
    (hblock : TcpOp.blocking (.run t i) = true) (hs : s.step (.run t i) = .ok s') :
    s'.Blocking := by
  by_cases hin : ∃ c, s.turn t = .inside c
  · rcases hin with ⟨c, hr⟩
    have hok := hi.turns t
    rw [hr] at hok
    rcases hok with ⟨k, p, hk, hp, _, rfl⟩
    have hcode := hi.run_inside hk hp hr hs
    have hl := code_local hcode
    refine hb.after hi ha hs (fun d kd hkd => ?_) (fun d q g hq hg => ?_)
    · rcases (step_performs hi).bound s' d kd hs hkd with hmade | ⟨hold, _⟩
      · right
        have hop : codeOp k.loop i p = some (.create kd.loop d false) := by
          rw [← callOp_inside (d := c) (hi.hosted.exec hr) hp, ← hr]
          exact hmade
        cases p with
        | made g e l =>
            injection hop with hop
            injection hop with _ hd _
            have hne : i.co ≠ c := by
              rintro rfl
              rw [(hi.unborn ha.2.2.2.1).2] at hk
              cases hk
            rw [← hd, (code_makes hne hcode).1] at hkd
            injection hkd with hkd
            rw [← hkd, (hi.step_opening ha hs (hi.coming_open hp (.inr ⟨e, l, rfl⟩))).2]
            exact hb.made c g e l hp
        | _ => cases hop
      · exact .inl hold
    · by_cases hdc : d = c
      · rw [hdc] at hq
        exact .inr (accepts_blocking hi hb ha hblock hk hp hs hcode hq hg)
      by_cases hh : p.hands i.co = some d
      · rcases hands_fresh hi hk hp ha.2.2.2.1 hh hcode with ⟨_, hfr⟩
        rw [hq] at hfr
        injection hfr with hfr
        rcases hg with rfl | ⟨e, l, rfl⟩
        · cases hfr
        · cases hfr
      · rw [hl.pos d (fun h => h.elim hdc hh)] at hq
        exact .inl hq
  · rcases loop_pos hi (fun c hc => hin ⟨c, hc⟩) hs with ⟨hcor, hpos⟩
    refine hb.after hi ha hs (fun d kd hkd => .inl (by rw [← hcor]; exact hkd))
      (fun d q g hq hg => ?_)
    rcases hpos d q hq with ⟨p, hp, rfl | ⟨_, hpw, rfl⟩⟩
    · exact .inl hp
    · cases p with
      | fresh _ => rcases hg with hg | ⟨_, _, hg⟩ <;> cases hg
      | asleep _ _ => rcases hg with hg | ⟨_, _, hg⟩ <;> cases hg
      | _ => cases hpw

/-- Every step keeps them, if what is accepted blocks. The listening socket
    does. -/
theorem step_blocking (hi : s.Inv) (hb : s.Blocking) (ha : s.Supplied a)
    (hblock : a.blocking = true) (hs : s.step a = .ok s') : s'.Blocking := by
  cases a with
  | addLoop t fd ismain =>
      rcases (bind_eq_ok_iff _ _ _).mp hs with ⟨io, _, hs1⟩
      injection hs1 with hs1
      refine hb.after hi ha hs (fun d kd hkd => .inl ?_) (fun d q g hq _ => .inl ?_)
      · rw [← hs1] at hkd
        exact hkd
      · rw [← hs1] at hq
        exact hq
  | start t fd co ok =>
      have hs1 : s.start t fd co ok = .ok s' := hs
      unfold TcpSys.start at hs1
      simp only [ha.1] at hs1
      rcases (bind_eq_ok_iff _ _ _).mp hs1 with ⟨io, hio, hs1⟩
      injection hs1 with hs1
      refine hb.after hi ha hs (fun d kd hkd => ?_) (fun d q g hq hg => ?_)
      · rw [← hs1] at hkd ⊢
        have hkd : Function.update s.corun co _ d = some kd := hkd
        by_cases hd : d = co
        · rw [hd, Function.update_self] at hkd
          injection hkd with hkd
          rw [← hkd]
          exact .inr ((congrFun (told_opening hio).2 fd).trans (Function.update_self _ _ _))
        · rw [Function.update_of_ne hd] at hkd
          exact .inl hkd
      · rw [← hs1] at hq
        have hq : Function.update s.pos co _ d = some q := hq
        by_cases hd : d = co
        · rw [hd, Function.update_self] at hq
          injection hq with hq
          rw [← hq] at hg
          rcases hg with hg | ⟨_, _, hg⟩ <;> cases hg
        · rw [Function.update_of_ne hd] at hq
          exact .inl hq
  | poll t events =>
      injection hs with hs
      rw [← hs]
      exact ⟨hb.bound, hb.accepted, hb.made⟩
  | run t i => exact run_blocking hi hb ha hblock hs
  | drop t c =>
      rcases Option.isSome_iff_exists.mp ha.1 with ⟨k, hk⟩
      have hs1 := hs
      rw [step, hk] at hs1
      rcases (bind_eq_ok_iff _ _ _).mp hs1 with ⟨w, _, hs1⟩
      rcases (bind_eq_ok_iff _ _ _).mp hs1 with ⟨io, _, hs1⟩
      injection hs1 with hs1
      have hne : ∀ {β : Type} {f : McoRef → Option β} {d : McoRef} {x : β},
          Function.update f c none d = some x → f d = some x := by
        intro β f d x h
        by_cases hd : d = c
        · rw [hd, Function.update_self] at h
          cases h
        · rw [Function.update_of_ne hd] at h
          exact h
      refine hb.after hi ha hs (fun d kd hkd => .inl ?_) (fun d q g hq _ => .inl ?_)
      · rw [← hs1] at hkd
        exact hne hkd
      · rw [← hs1] at hq
        exact hne hq

theorem blocking_init (h : TcpInit s) : s.Blocking := by
  refine ⟨fun c k hk => ?_, fun c g hp => ?_, fun c g e l hp => ?_⟩
  · rw [h.corun c] at hk
    cases hk
  · rw [h.pos c] at hp
    cases hp
  · rw [h.pos c] at hp
    cases hp

end Blocking

/-! ### The calls of a turn -/

section Left

variable {s s' : TcpSys} {a : TcpOp} {t : Tid} {i : Supply} {c : McoRef} {k : Corun}

/-- The hook does not let a descriptor that blocks past. -/
theorem top_hooked (hi : s.Inv) (hb : s.Blocking) (hk : s.corun c = some k)
    (h : s.code k.loop c k i .top = .ok s') (fd : Fd) : s'.pos c ≠ some (.sys fd) := by
  have ho := code_returns h
  intro hsys
  cases ho with
  | moves hm =>
      have hp' := Option.some.inj ((Function.update_self c _ s.pos).symm.trans hsys)
      cases hm with
      | plain hg hn =>
          rw [hi.getFd hk] at hg
          injection hg with hg
          rw [← hg, Kernel.nonblocking, hi.bound_open hk, hb.bound c k hk, hi.hookable] at hn
          cases hn
      | hooked _ _ _ => cases hp'
      | unmapped _ _ _ => cases hp'

/-- What is left of the turn of a coroutine that executes. -/
theorem turnLeft_inside {p : Pos} (hp : s.pos c = some p) :
    s.turnLeft (.inside c) = 1 + p.left := by
  change 1 + ((s.pos c).map Pos.left).getD 0 = _
  rw [hp]
  rfl

/-- Its calls bring it nearer to the next yield. -/
theorem inside_lowers (hi : s.Inv) (hb : s.Blocking) (ht : s.turn t = .inside c)
    (hs : s.step (.run t i) = .ok s') : ∃ p q, s.pos c = some p ∧ s'.pos c = some q ∧
      q.left < p.left := by
  have hok := hi.turns t
  rw [ht] at hok
  rcases hok with ⟨k, p, hk, hp, _, rfl⟩
  have hcode := hi.run_inside hk hp ht hs
  rcases code_flow hi hk hp hcode with ⟨q, hq, hgo⟩
  refine ⟨p, q, hp, hq, hgo.lowers (fun fd hpt hsys => ?_)⟩
  rw [hpt] at hp hcode
  refine top_hooked hi hb hk hcode fd ?_
  rw [hq, hsys]

/-- A call on the thread lowers what is left of the turn, and one at the head of
    the `for` begins a turn. -/
theorem run_left (hi : s.Inv) (hb : s.Blocking) (ha : s.Supplied (.run t i))
    (hs : s.step (.run t i) = .ok s') :
    s.turn t = .idle ∧ s'.turnLeft (s'.turn t) ≤ 20 ∨
      s.turn t ≠ .idle ∧ s'.turnLeft (s'.turn t) < s.turnLeft (s.turn t) := by
  have hgo := run_turns hi ha hs
  generalize hr : s.turn t = r at hgo ⊢
  generalize s'.turn t = r' at hgo ⊢
  cases hgo with
  | passed => exact .inl ⟨rfl, Nat.zero_le 20⟩
  | found x rest h => exact .inl ⟨rfl, Nat.le_refl 20⟩
  | mapped d k h => exact .inr ⟨fun h => (by cases h), Nat.lt_succ_self 19⟩
  | resumes d => exact .inr ⟨fun h => (by cases h), Nat.lt_succ_self 18⟩
  | enters d =>
      refine .inr ⟨fun h => (by cases h), ?_⟩
      -- Wherever the coroutine is, it is not far from the next yield.
      have hle : ((s'.pos d).map Pos.left).getD 0 ≤ 16 := by
        cases s'.pos d with
        | none => exact Nat.zero_le 16
        | some q => exact q.left_le
      change 1 + ((s'.pos d).map Pos.left).getD 0 < 18
      omega
  | stays d =>
      rcases inside_lowers hi hb hr hs with ⟨p, q, hp, hq, hlower⟩
      rw [turnLeft_inside hp, turnLeft_inside hq]
      exact .inr ⟨fun h => (by cases h), Nat.add_lt_add_left hlower 1⟩
  | back d =>
      rcases inside_lowers hi hb hr hs with ⟨p, q, hp, _, hlower⟩
      rw [turnLeft_inside hp]
      refine .inr ⟨fun h => (by cases h), ?_⟩
      change 1 < 1 + p.left
      omega
  | ends d => exact .inr ⟨fun h => (by cases h), Nat.zero_lt_one⟩

/-- The other steps keep what is left of the turn. -/
theorem other_left (hi : s.Inv) (ha : s.Supplied a) (hcalls : a.calls t = false)
    (hs : s.step a = .ok s') : s'.turnLeft (s'.turn t) = s.turnLeft (s.turn t) := by
  rw [(step_elsewhere ha hcalls hs).1]
  have hok := hi.turns t
  cases hr : s.turn t with
  | inside d =>
      rw [hr] at hok
      rcases hok with ⟨kd, q, hkd, hq, hqa, rfl⟩
      have hstays := (hi.step_others ha hs hkd hq (.inr hqa) (TcpOp.of_not_calls hcalls)).2.1
      rw [turnLeft_inside hq, turnLeft_inside hstays]
  | _ => rfl

/-- A turn that has nothing left is at the head of the `for`. -/
theorem turnLeft_zero {r : Turn} (h : s.turnLeft r = 0) : r = .idle := by
  cases r with
  | idle => rfl
  | inside d =>
      change 1 + _ = 0 at h
      omega
  | _ => cases h

theorem turnLeft_le (r : Turn) : s.turnLeft r ≤ 20 := by
  cases r with
  | inside d =>
      change 1 + ((s.pos d).map Pos.left).getD 0 ≤ 20
      cases s.pos d with
      | none => decide
      | some q =>
          have hle := q.left_le
          change 1 + q.left ≤ 20
          omega
  | _ => simp [turnLeft]

end Left

/-! ### Coming back -/

/-- There are `n` calls left. -/
structure Within (t : Tid) (n : Nat) (s : TcpSys) : Prop where
  inv : s.Inv
  blocking : s.Blocking
  calls : s.callsLeft t = n

section Within

variable {s s' : TcpSys} {a : TcpOp} {t : Tid} {n : Nat}

theorem within_own (h : Within t n s) (ha : s.Supplied a) (hblock : a.blocking = true)
    (hcalls : a.calls t = true) (hs : s.step a = .ok s') : ∃ m, m < n ∧ Within t m s' := by
  refine ⟨s'.callsLeft t, ?_, next_inv h.inv ha hs, step_blocking h.inv h.blocking ha hblock hs,
    rfl⟩
  rcases TcpOp.of_calls hcalls with ⟨i, rfl⟩
  rw [← h.calls, callsLeft, callsLeft]
  rcases run_left h.inv h.blocking ha hs with ⟨ht, hle⟩ | ⟨ht, hlt⟩
  -- The turn that begins takes less than what the report counts.
  · rcases (run_batch hs).2 with ⟨_, x, hx⟩ | ⟨hnot, _⟩
    · rw [hx, List.length_cons]
      omega
    · exact absurd ht hnot
  · rcases (run_batch hs).2 with ⟨hidle, _⟩ | ⟨_, hb⟩
    · exact absurd hidle ht
    · rw [hb]
      omega

theorem within_other (hn : 0 < n) (h : Within t n s) (ha : s.Supplied a)
    (hblock : a.blocking = true) (hcalls : a.calls t = false) (hs : s.step a = .ok s') :
    Within t n s' := by
  refine ⟨next_inv h.inv ha hs, step_blocking h.inv h.blocking ha hblock hs, ?_⟩
  rw [← h.calls, callsLeft, callsLeft, other_left h.inv ha hcalls hs]
  rcases (step_elsewhere ha hcalls hs).2 with hb | ⟨events, rfl⟩
  · rw [hb]
  -- It is not in `epoll_wait` yet.
  · exfalso
    rcases ha with ⟨ht, hb, _⟩
    rw [← h.calls, callsLeft, ht, hb] at hn
    exact Nat.lt_irrefl 0 hn

end Within

end TcpSys

namespace TcpSys

/-- The report `x` for `c` comes after those of `pre`, which are for others. -/
structure Queued (c : McoRef) (k : Corun) (p : Pos) (x : PollerEvent) (pre : List PollerEvent)
    (s : TcpSys) : Prop where
  rest : Resting c k p s
  watching : s.Watching
  blocking : s.Blocking
  batch : ∃ post, s.batch k.loop = pre ++ x :: post
  others : ∀ y, y ∈ pre → y.fd ≠ k.fd

/-- The calls on the thread until `c` executes on account of `x` are `n` at
    most: those of the turns before it, and then the stages. -/
def Awaits (c : McoRef) (k : Corun) (p : Pos) (x : PollerEvent) (n : Nat) (s : TcpSys) : Prop :=
  (∃ pre, Queued c k p x pre s ∧ n = 4 + s.turnLeft (s.turn k.loop) + 21 * pre.length) ∨
    ∃ m, Stage c k p m s ∧ n + m = 3

section Awaits

variable {s s' : TcpSys} {a : TcpOp} {c : McoRef} {k : Corun} {p : Pos} {x : PollerEvent}
  {pre : List PollerEvent} {i : Supply} {n : Nat}

theorem queued_own (hpw : p.waits = true) (hfd : x.fd = k.fd)
    (hm : x.event &&& ~~~kWriteEvent ≠ 0) (hq : Queued c k p x pre s)
    (ha : s.Supplied (.run k.loop i)) (hok : i.ok = true)
    (hblock : TcpOp.blocking (.run k.loop i) = true) (hs : s.step (.run k.loop i) = .ok s') :
    ∃ m, m < 4 + s.turnLeft (s.turn k.loop) + 21 * pre.length ∧ Awaits c k p x m s' := by
  have hi := hq.rest.inv
  rcases hq.batch with ⟨post, hb⟩
  have hw' := step_watching hi hq.watching ha hok hs
  have hb' := step_blocking hi hq.blocking ha hblock hs
  rcases run_left hi hq.blocking ha hs with ⟨ht, hle⟩ | ⟨ht, hlt⟩
  · rcases (run_batch hs).2 with ⟨_, z, hz⟩ | ⟨hnot, _⟩
    · cases pre with
      | nil =>
          have hr : Reported c k p x s :=
            ⟨hi, hq.watching, hq.rest.corun, hq.rest.pos, ht, post, hb⟩
          exact ⟨3, by omega, .inr ⟨0, reported_own hpw hfd hm hr ha hs, rfl⟩⟩
      | cons y pre =>
          rw [hb, List.cons_append] at hz
          injection hz with _ hz
          refine ⟨4 + s'.turnLeft (s'.turn k.loop) + 21 * pre.length, ?_, .inl ⟨pre,
            ⟨resting_own hpw hq.rest (fun y' rest _ hy => ?_) ha hs, hw', hb', ⟨post, hz.symm⟩,
              fun y' hy => hq.others y' (List.mem_cons_of_mem y hy)⟩, rfl⟩⟩
          · rw [List.length_cons]
            omega
          · rw [hb, List.cons_append] at hy
            injection hy with hy _
            rw [← hy]
            exact hq.others y List.mem_cons_self
    · exact absurd ht hnot
  · rcases (run_batch hs).2 with ⟨hidle, _⟩ | ⟨_, hsame⟩
    · exact absurd hidle ht
    · refine ⟨4 + s'.turnLeft (s'.turn k.loop) + 21 * pre.length, by omega, .inl ⟨pre,
        ⟨resting_own hpw hq.rest (fun y' rest hidle _ => absurd hidle ht) ha hs, hw', hb',
          ⟨post, hsame.trans hb⟩, hq.others⟩, rfl⟩⟩

theorem awaits_own (hpw : p.waits = true) (hfd : x.fd = k.fd)
    (hm : x.event &&& ~~~kWriteEvent ≠ 0) (hn : 0 < n) (h : Awaits c k p x n s)
    (ha : s.Supplied a) (hok : a.succeeds = true) (hblock : a.blocking = true)
    (hcalls : a.calls k.loop = true) (hs : s.step a = .ok s') :
    ∃ m, m < n ∧ Awaits c k p x m s' := by
  rcases TcpOp.of_calls hcalls with ⟨i, rfl⟩
  rcases h with ⟨pre, hq, rfl⟩ | ⟨m, hst, hsum⟩
  · exact queued_own hpw hfd hm hq ha hok hblock hs
  · have hlt : m < lastStage p := by
      cases p with
      | asleep _ _ => exact (by omega : m < 5)
      | _ => exact (by omega : m < 4)
    exact ⟨n - 1, by omega, .inr ⟨m + 1, stage_own hpw hlt hst ha hs, by omega⟩⟩

/-- The other threads leave it where it is in the queue. -/
theorem awaits_other (hpw : p.waits = true) (h : Awaits c k p x n s) (ha : s.Supplied a)
    (hok : a.succeeds = true) (hblock : a.blocking = true) (hcalls : a.calls k.loop = false)
    (hs : s.step a = .ok s') : Awaits c k p x n s' := by
  rcases h with ⟨pre, hq, rfl⟩ | ⟨m, hst, hsum⟩
  · have hi := hq.rest.inv
    rcases hq.batch with ⟨post, hb⟩
    have hb' : s'.batch k.loop = pre ++ x :: post := by
      rcases (step_elsewhere ha hcalls hs).2 with hsame | ⟨events, rfl⟩
      · rw [hsame, hb]
      · rcases ha with ⟨_, hempty, _⟩
        rw [hb] at hempty
        cases pre with
        | nil => cases hempty
        | cons _ _ => cases hempty
    refine .inl ⟨pre, ⟨resting_other hpw hq.rest ha hcalls hs,
      step_watching hi hq.watching ha hok hs, step_blocking hi hq.blocking ha hblock hs,
      ⟨post, hb'⟩, hq.others⟩, ?_⟩
    rw [other_left hi ha hcalls hs]
  · exact .inr ⟨m, stage_other hpw hst ha hcalls hs, hsum⟩

end Awaits

end TcpSys

end Fasco
