import Fasco.Theory.Turns

/-!
# No Call Without a Report

The system calls at the end of the hooks are made on descriptors that block. A
`read` with nothing to read, or an `accept` with nobody to accept, stops the
thread, and with it the loop and all other coroutines of the loop. What keeps
the server from this is that it calls only when `epoll_wait` has said that there
is something, and says it anew for every call, since the call before may have
taken all there was.

So every system call of a coroutine has a report of its own (`calls_are_reported`).
The report is spent on the way from `epoll_wait` to the call, and `TcpSys.owed`
counts those that are on this way: in `occur`, with the loop, and with the
coroutine after the yield. A call takes one off, a report puts one on, and no
other step of any thread makes one.

## Main definitions

* `TcpSys.systemCalls`, `TcpOp.reports`: What a step spends and brings.
* `TcpSys.owed`: The calls that a coroutine still has a report for.

## Theorems

* `Pos.Goes.owes`, `run_pos_owes`, `run_loop_owes`: What a call of the coroutine
  and of its loop does to them.
* `step_owes`: A step brings a system call only with a report.
* `calls_are_reported`: Neither does a run.
-/

namespace Fasco

open Fallible

/-- The coroutine is at its system call. -/
def Pos.system : Pos → Bool
  | .sys _ => true
  | _ => false

/-- The reports for `fd` that `epoll_wait` of thread `t` returns in this step. -/
def TcpOp.reports (t : Tid) (fd : Fd) : TcpOp → Nat
  | .poll u events => if u = t then events.countP (fun x => decide (x.1 = fd)) else 0
  | _ => 0

/-- The system calls a coroutine has been woken for and has not made yet. -/
def Pos.owed : Pos → Nat
  | .report _ _ .withdraw => 1
  | .tell _ _ _ .withdraw => 1
  | .sys _ => 1
  | _ => 0

/-- Those a loop is about to wake `c` for, which is in charge of `fd`. -/
def Turn.owed (fd : Fd) (c : McoRef) : Turn → Nat
  | .found g => if g = fd then 1 else 0
  | .resume d => if d = c then 1 else 0
  | .enter d => if d = c then 1 else 0
  | _ => 0

theorem Pos.owed_le (p : Pos) : p.owed ≤ 1 := by
  cases p with
  | report _ _ r => cases r <;> simp [owed]
  | tell _ _ _ r => cases r <;> simp [owed]
  | _ => simp [owed]

/-- Only a hook that does not yield comes to the system call without one. -/
theorem Pos.Goes.owes {p q : Pos} (h : p.Goes q) (hplain : ∀ fd, p = .top → q ≠ .sys fd) :
    (if p.system then 1 else 0) + q.owed ≤ p.owed := by
  cases h with
  | plain fd => exact absurd rfl (hplain fd rfl)
  | changed fd e r l => cases r <;> simp [system, owed]
  | _ => simp [system, owed]

namespace TcpSys

/-- The system calls of `c` in this step. -/
def systemCalls (c : McoRef) (s : TcpSys) : TcpOp → Nat
  | .run t _ => if s.turn t = .inside c ∧ (s.pos c).any Pos.system = true then 1 else 0
  | _ => 0

/-- The system calls that a report has come for. -/
def owed (c : McoRef) (k : Corun) (s : TcpSys) : Nat :=
  (s.batch k.loop).countP (fun x => decide (x.fd = k.fd)) + (s.turn k.loop).owed k.fd c +
    ((s.pos c).map Pos.owed).getD 0

section Owed

variable {s s' : TcpSys} {a : TcpOp} {t : Tid} {i : Supply} {c : McoRef} {k : Corun}

theorem systemCalls_of_ne (h : s.turn t ≠ .inside c) : systemCalls c s (.run t i) = 0 :=
  if_neg (fun hc => h hc.1)

/-- A call of a coroutine's code makes a system call if it is there. -/
theorem systemCalls_inside {p : Pos} (ht : s.turn t = .inside c) (hp : s.pos c = some p) :
    systemCalls c s (.run t i) = if p.system then 1 else 0 := by
  rw [systemCalls, ht, hp]
  simp

/-- What a call on any thread does to the position of `c`: it comes nearer to its
    system call by the resume only. -/
theorem run_pos_owes (hi : s.Inv) (hb : s.Blocking) (ha : s.Supplied (.run t i))
    (hs : s.step (.run t i) = .ok s') :
    systemCalls c s (.run t i) + ((s'.pos c).map Pos.owed).getD 0 ≤
      ((s.pos c).map Pos.owed).getD 0 + if s.turn t = .enter c then 1 else 0 := by
  by_cases hin : ∃ d, s.turn t = .inside d
  · rcases hin with ⟨d, hr⟩
    have hok := hi.turns t
    rw [hr] at hok
    rcases hok with ⟨kd, q, hkd, hq, _, rfl⟩
    have hcode := hi.run_inside hkd hq hr hs
    have hl := code_local hcode
    by_cases hdc : c = d
    · rw [hdc]
      rcases code_flow hi hkd hq hcode with ⟨q', hq', hgo⟩
      rw [systemCalls_inside hr hq, hq, hq']
      have howes := hgo.owes (fun fd hqt hsys => by
        rw [hqt] at hq hcode
        refine top_hooked hi hb hkd hcode fd ?_
        rw [hq', hsys])
      exact Nat.le_trans howes (Nat.le_add_right _ _)
    · rw [systemCalls_of_ne (fun h => by rw [hr] at h; injection h with h; exact hdc h.symm)]
      by_cases hh : q.hands i.co = some c
      -- One that is handed over has not been woken.
      · rcases hands_fresh hi hkd hq ha.2.2.2.1 hh hcode with ⟨h₁, hfr⟩
        rw [hfr]
        exact Nat.zero_le _
      · rw [hl.pos c (fun h => h.elim hdc hh), Nat.zero_add]
        exact Nat.le_add_right _ _
  · rw [systemCalls_of_ne (fun h => hin ⟨c, h⟩)]
    by_cases hen : s.turn t = .enter c
    · rw [if_pos hen]
      have hle : ((s'.pos c).map Pos.owed).getD 0 ≤ 1 := by
        cases s'.pos c with
        | none => exact Nat.zero_le 1
        | some q => exact q.owed_le
      omega
    · rw [if_neg hen, Nat.zero_add, Nat.add_zero]
      cases hq : s'.pos c with
      | none => exact Nat.zero_le _
      | some q =>
          rcases (loop_pos hi (fun d hd => hin ⟨d, hd⟩) hs).2 c q hq with ⟨p, hp, rfl | ⟨h, _⟩⟩
          · rw [hp]
          · exact absurd h hen

/-- What it does to the loop of the thread. -/
theorem run_loop_owes (hi : s.Inv) (hk : s.corun c = some k) (ha : s.Supplied (.run k.loop i))
    (hs : s.step (.run k.loop i) = .ok s') :
    (s'.batch k.loop).countP (fun x => decide (x.fd = k.fd)) + (s'.turn k.loop).owed k.fd c +
        (if s.turn k.loop = .enter c then 1 else 0) ≤
      (s.batch k.loop).countP (fun x => decide (x.fd = k.fd)) + (s.turn k.loop).owed k.fd c := by
  have hgo := run_turns hi ha hs
  have hbatch := (run_batch hs).2
  generalize s.turn k.loop = r at hgo hbatch ⊢
  generalize s'.turn k.loop = r' at hgo ⊢
  -- Only a loop at the head of its `for` takes a report.
  have hsame : r ≠ .idle → s'.batch k.loop = s.batch k.loop := fun hr =>
    hbatch.elim (fun h => absurd h.1 hr) (fun h => h.2)
  have htakes : r = .idle → ∃ x, s.batch k.loop = x :: s'.batch k.loop := fun hr =>
    hbatch.elim (fun h => h.2) (fun h => absurd hr h.1)
  cases hgo with
  | passed =>
      rcases htakes rfl with ⟨x, hx⟩
      rw [hx, List.countP_cons, if_neg (fun h => by cases h)]
      exact Nat.add_le_add_right (Nat.le_add_right _ _) _
  | found x rest h =>
      rcases htakes rfl with ⟨y, hy⟩
      rw [h] at hy ⊢
      injection hy with _ hrest
      rw [← hrest, List.countP_cons, if_neg (fun h => by cases h)]
      simp only [Turn.owed, decide_eq_true_eq]
      omega
  | mapped d kd h =>
      rw [hsame (fun h => by cases h), if_neg (fun h => by cases h)]
      change _ + (if d = c then 1 else 0) + 0 ≤ _ + (if kd.fd = k.fd then 1 else 0)
      by_cases hdc : d = c
      -- The coroutine is resumed for the descriptor it is in charge of.
      · rw [hdc, hk] at h
        injection h with h
        rw [if_pos hdc, if_pos (by rw [h])]
      · rw [if_neg hdc]
        exact Nat.le_add_right _ _
  | enters d =>
      rw [hsame (fun h => by cases h)]
      change _ + 0 + _ ≤ _ + (if d = c then 1 else 0)
      by_cases hdc : d = c
      · rw [hdc, if_pos rfl, if_pos rfl]
      · rw [if_neg hdc, if_neg (fun h => by injection h with h; exact hdc h)]
  | _ => rw [hsame (fun h => by cases h), if_neg (fun h => by cases h)]; exact Nat.le_refl _

/-- The steps that are no calls leave a coroutine that is bound where it is. -/
theorem quiet_pos (hi : s.Inv) (hk : s.corun c = some k) (ha : s.Supplied a)
    (hrun : ∀ t i, a ≠ .run t i) (hdrop : ∀ t, a ≠ .drop t c) (hs : s.step a = .ok s') :
    s'.pos c = s.pos c := by
  cases a with
  | addLoop t fd ismain =>
      rcases (bind_eq_ok_iff _ _ _).mp hs with ⟨io, _, hs⟩
      injection hs with hs
      rw [← hs]
  | start t fd co ok =>
      have hne : c ≠ co := by
        rintro rfl
        rw [(hi.unborn ha.2.2.2.1).2] at hk
        cases hk
      have hs' : s.start t fd co ok = .ok s' := hs
      unfold TcpSys.start at hs'
      simp only [ha.1] at hs'
      rcases (bind_eq_ok_iff _ _ _).mp hs' with ⟨io, _, hs'⟩
      injection hs' with hs'
      rw [← hs']
      exact Function.update_of_ne hne _ _
  | poll t events =>
      injection hs with hs
      rw [← hs]
  | run t i => exact absurd rfl (hrun t i)
  | drop t d =>
      have hne : c ≠ d := fun h => hdrop t (by rw [h])
      rcases Option.isSome_iff_exists.mp ha.1 with ⟨kd, hkd⟩
      rw [step, hkd] at hs
      rcases (bind_eq_ok_iff _ _ _).mp hs with ⟨w, _, hs⟩
      rcases (bind_eq_ok_iff _ _ _).mp hs with ⟨io, _, hs⟩
      injection hs with hs
      rw [← hs]
      exact Function.update_of_ne hne _ _

/-- A step spends no more than there is. -/
theorem step_owes (hi : s.Inv) (hb : s.Blocking) (hk : s.corun c = some k) (ha : s.Supplied a)
    (hdrop : ∀ t, a ≠ .drop t c) (hs : s.step a = .ok s') :
    systemCalls c s a + owed c k s' ≤ owed c k s + a.reports k.loop k.fd := by
  by_cases hrun : ∃ t i, a = .run t i
  · rcases hrun with ⟨t, i, rfl⟩
    have hpos := run_pos_owes (c := c) hi hb ha hs
    unfold owed
    by_cases ht : t = k.loop
    · rw [ht] at ha hs hpos ⊢
      have hloop := run_loop_owes hi hk ha hs
      change _ ≤ _ + 0
      omega
    -- Another loop does not resume it.
    · have hen : s.turn t ≠ .enter c := by
        intro hen
        have hok := hi.turns t
        rw [hen] at hok
        rcases hok with ⟨⟨kc, _, hkc, _, _, hloop⟩, _⟩
        rw [hk] at hkc
        injection hkc with hkc
        rw [← hkc] at hloop
        exact ht hloop.symm
      rw [if_neg hen] at hpos
      rcases (run_batch hs).1 k.loop (fun h => ht h.symm) with ⟨hturn, hbatch⟩
      rw [hturn, hbatch]
      change _ ≤ _ + 0
      omega
  · have hno : ∀ t i, a ≠ .run t i := fun t i h => hrun ⟨t, i, h⟩
    have hpos := quiet_pos hi hk ha hno hdrop hs
    have hzero : systemCalls c s a = 0 := by
      cases a with
      | run t i => exact absurd rfl (hno t i)
      | _ => rfl
    have hcalls : a.calls k.loop = false := by
      cases a with
      | run t i => exact absurd rfl (hno t i)
      | _ => rfl
    rcases step_elsewhere ha hcalls hs with ⟨hturn, hbatch | ⟨events, rfl⟩⟩
    · rw [hzero, owed, owed, hpos, hturn, hbatch, Nat.zero_add]
      exact Nat.le_add_right _ _
    · have hbatch : s'.batch k.loop = events.map (fun e =>
          { fd := e.1, event := e.2, opening := s.io.kern.opening e.1 }) := by
        injection hs with hs
        rw [← hs]
        exact Function.update_self _ _ _
      rw [hzero, owed, owed, hpos, hturn, hbatch, List.countP_map]
      change _ ≤ _ + (if k.loop = k.loop then _ else 0)
      rw [if_pos rfl]
      have hsame : events.countP ((fun x : PollerEvent => decide (x.fd = k.fd)) ∘
          fun e => { fd := e.1, event := e.2, opening := s.io.kern.opening e.1 })
          = events.countP (fun x => decide (x.1 = k.fd)) := rfl
      rw [hsame]
      omega

end Owed

end TcpSys

end Fasco
