import Fasco.Theory.Outcomes
import Fasco.Theory.Connections

/-!
# What a Step of the Server Moves

A step of the server is one thread's. It moves the coroutine that executes
there, the turn of the loop and its reports, and, in a hand-over, the coroutine
that is handed over; the others stay where they are. `Inv.step_others` is the
form in which this is used: what a coroutine in charge of a descriptor and the
loop of its thread are at does not change by anything but a call on that thread.

## Main definitions

* `Pos.hands`: The coroutine that a call makes or hands over.
* `Local`: What a call of a thread leaves alone.

## Theorems

* `code_local`: A call of a coroutine is local.
* `Inv.step_others`: The steps of the other threads.
-/

namespace Fasco

open Fallible

/-- The coroutine that is made or handed over at this position. -/
def Pos.hands (co : McoRef) : Pos → Option McoRef
  | .made _ _ _ => some co
  | .give _ _ _ co => some co
  | .enter _ _ co => some co
  | _ => none

namespace TcpSys

/-- A call on thread `t`, which leaves the coroutines alone that are not in `D`,
    and the other loops; the registry is `L` afterwards. -/
structure Local (s : TcpSys) (t : Tid) (D : McoRef → Prop) (L : EventLoopPool) (s' : TcpSys) :
    Prop where
  pos : ∀ d, ¬ D d → s'.pos d = s.pos d
  corun : ∀ d, ¬ D d → s'.corun d = s.corun d
  turn : ∀ u, u ≠ t → s'.turn u = s.turn u
  back : s'.turn t = s.turn t ∨ s'.turn t = (s.turn t).back
  batch : s'.batch = s.batch
  loops : s'.loops = L
  server : s'.server = s.server

section Code

variable {s s' : TcpSys} {t : Tid} {c co : McoRef} {k : Corun} {i : Supply} {p : Pos}

/-- Only `c` moves. -/
theorem local_go {o : Option McoRef} {L : EventLoopPool} (io : Io) (p' : Pos) (w : World) :
    Local s t (fun d => d = c ∨ o = some d) L { s.go c io p' with w := w, loops := L } :=
  ⟨fun _ hd => Function.update_of_ne (fun h => hd (.inl h)) _ _, fun _ _ => rfl,
    fun _ _ => rfl, .inl rfl, rfl, rfl, rfl⟩

/-- Control goes back to the loop. -/
theorem local_back {o : Option McoRef} (io : Io) (p' : Pos) (w : World) :
    Local s t (fun d => d = c ∨ o = some d) s.loops
      { (s.go c io p').setTurn t (s.turn t).back with w := w } :=
  ⟨fun _ hd => Function.update_of_ne (fun h => hd (.inl h)) _ _, fun _ _ => rfl,
    fun _ hu => Function.update_of_ne hu _ _, .inr (Function.update_self _ _ _), rfl, rfl, rfl⟩

/-- The hand-over of `co` moves `co` and the one that hands it over. -/
theorem local_handed (io : Io) (h : HandOver) (p' : Pos) :
    Local s t (fun d => d = c ∨ some co = some d) s.loops ((s.handed co h).go c io p') := by
  have hh : (s.handed co h).corun = s.corun ∧ (s.handed co h).turn = s.turn ∧
      (s.handed co h).batch = s.batch ∧ (s.handed co h).loops = s.loops ∧
      (s.handed co h).server = s.server ∧ ∀ d, d ≠ co → (s.handed co h).pos d = s.pos d := by
    unfold handed
    cases s.pos co with
    | none => exact ⟨rfl, rfl, rfl, rfl, rfl, fun _ _ => rfl⟩
    | some q =>
        cases q with
        | fresh _ => exact ⟨rfl, rfl, rfl, rfl, rfl, fun _ hd => Function.update_of_ne hd _ _⟩
        | _ => exact ⟨rfl, rfl, rfl, rfl, rfl, fun _ _ => rfl⟩
  rcases hh with ⟨hc, ht, hb, hl, hsv, hp⟩
  refine ⟨fun d hd => ?_, fun d _ => congrFun hc d, fun u _ => congrFun ht u,
    .inl (congrFun ht t), hb, hl, hsv⟩
  rw [go_pos, if_neg (fun h => hd (.inl h))]
  exact hp d (fun h => hd (.inr (by rw [h])))

/-- A call of a coroutine moves it, and what it hands over. Only `GetNextLoop`
    changes the registry. -/
theorem code_local (h : s.code t c k i p = .ok s') :
    Local s t (fun d => d = c ∨ p.hands i.co = some d)
      (match p with
        | .accepted _ => s.loops.getNextLoop.1
        | _ => s.loops) s' := by
  have ho := code_returns h
  cases ho with
  -- None of these is at a position at which something is handed over.
  | moves hm => cases hm <;> exact local_go _ _ s.w
  | stays _ _ => exact local_go _ _ _
  | sleeps _ _ => exact local_back _ _ _
  | chosen _ => exact local_go _ _ _
  | @made g e l _ io _ _ =>
      refine ⟨fun d hd => ?_, fun d hd => ?_, fun _ _ => rfl, .inl rfl, rfl, rfl, rfl⟩
      · change ((s.go i.co io (.fresh .made)).go c io (.give g e l i.co)).pos d = s.pos d
        rw [go_pos, if_neg (fun h => hd (.inl h)), go_pos,
          if_neg (fun h => hd (.inr (by rw [h]; rfl)))]
      · exact Function.update_of_ne (fun h => hd (.inr (by rw [h]; rfl))) _ _
  | given _ => exact local_handed _ _ _
  | entered _ => exact local_handed _ _ _
  | ended _ _ => exact local_back _ _ _

/-- It binds no callback but that of a coroutine it makes. -/
theorem code_corun (h : s.code t c k i p = .ok s') {d : McoRef} (hd : p.hands i.co ≠ some d) :
    s'.corun d = s.corun d := by
  have ho := code_returns h
  cases ho with
  | made _ _ => exact Function.update_of_ne (fun h => hd (by rw [h]; rfl)) _ _
  | given _ => exact congrFun (handed_same s _ _).2 d
  | entered _ => exact congrFun (handed_same s _ _).2 d
  | _ => rfl

end Code

section Others

variable {s s' : TcpSys} {t u : Tid} {c d : McoRef} {k : Corun} {i : Supply} {p : Pos} {a : TcpOp}

/-- What is made or handed over is not yet registered, so it neither waits nor
    executes. -/
theorem Inv.hands_ne (hi : s.Inv) (hk : s.corun c = some k) (hp : s.pos c = some p)
    (hpw : p.waits = true ∨ p.active = true) (hco : s.w.co i.co = none) {q : Pos}
    (hq : s.pos d = some q) : q.hands i.co ≠ some c := by
  intro hh
  have hacc := hi.accepts d q hq
  have hfresh : ∀ h, h ≠ .registered → p ≠ .fresh h := by
    rintro h hne rfl
    cases h with
    | registered => exact hne rfl
    | made => rcases hpw with hpw | hpw <;> cases hpw
    | mapped => rcases hpw with hpw | hpw <;> cases hpw
  cases q with
  | made g e l =>
      injection hh with hh
      rw [hh] at hco
      rw [(hi.unborn hco).2] at hk
      cases hk
  | give g e l co =>
      injection hh with hh
      rcases hacc with ⟨_, hfr⟩
      rw [hh, hp] at hfr
      injection hfr with hfr
      exact hfresh .made (fun h => by cases h) hfr
  | enter e l co =>
      injection hh with hh
      rcases hacc with ⟨_, _, hfr⟩
      rw [hh, hp] at hfr
      injection hfr with hfr
      exact hfresh .mapped (fun h => by cases h) hfr
  | _ => cases hh

/-- The coroutine that executes is of the thread. -/
theorem Inv.exec_home {m : McoRef} (hi : s.Inv) (hr : s.turn t = .inside m)
    (hx : s.w.exec t = some c) (hk : s.corun c = some k) : k.loop = t := by
  have hok := hi.turns t
  rw [hr] at hok
  rcases hok with ⟨k', _, hk', _, _, hloop⟩
  rw [hi.hosted.exec hr] at hx
  injection hx with hx
  rw [hx, hk] at hk'
  injection hk' with hk'
  rw [hk', hloop]

theorem next_inv (hi : s.Inv) (ha : s.Supplied a) (hs : s.step a = .ok s') : s'.Inv := by
  have hkeep := step_keeps hi ha
  rw [hs] at hkeep
  exact hkeep

/-- The code of a coroutine that executes makes the call. -/
theorem Inv.run_inside (hi : s.Inv) (hk : s.corun c = some k) (hp : s.pos c = some p)
    (ht : s.turn k.loop = .inside c) (hs : s.step (.run k.loop i) = .ok s') :
    s.code k.loop c k i p = .ok s' := by
  have hs' : s.loopCode k.loop i (s.turn k.loop) = .ok s' := hs
  rw [ht, loopCode, hi.hosted.exec ht] at hs'
  simp only [] at hs'
  rw [hk, hp] at hs'
  exact hs'

/-- A call on another thread. -/
theorem Inv.run_others (hi : s.Inv) (ha : s.Supplied (.run u i)) (hs : s.step (.run u i) = .ok s')
    (hk : s.corun c = some k) (hp : s.pos c = some p) (hpw : p.waits = true ∨ p.active = true)
    (hu : u ≠ k.loop) :
    s'.corun c = some k ∧ s'.pos c = some p ∧ s'.turn k.loop = s.turn k.loop ∧
      s'.batch k.loop = s.batch k.loop := by
  have hok := hi.turns u
  have ho := run_outcome hs
  generalize hr : s.turn u = r at hok ho
  have hne := fun {α : Type} (f : Tid → α) (a : α) => Function.update_of_ne hu.symm a f
  cases ho with
  | passes _ _ => exact ⟨hk, hp, rfl, hne _ _⟩
  | finds _ _ => exact ⟨hk, hp, hne _ _, hne _ _⟩
  | unmapped _ => exact ⟨hk, hp, hne _ _, rfl⟩
  | mapped _ => exact ⟨hk, hp, hne _ _, rfl⟩
  | resumes => exact ⟨hk, hp, hne _ _, rfl⟩
  | @enters mco _ _ _ =>
      rcases hok with ⟨⟨k', _, hk', _, _, hloop⟩, _⟩
      -- The loop resumes a coroutine of its own thread.
      have hcm : c ≠ mco := by
        rintro rfl
        rw [hk] at hk'
        injection hk' with hk'
        exact hu (by rw [hk', hloop])
      exact ⟨hk, (Function.update_of_ne hcm _ _).trans hp, hne _ _, rfl⟩
  | misses _ _ => exact ⟨hk, hp, hne _ _, rfl⟩
  | @calls _ d k' q hx hk' hq _ h =>
      have hloop : k'.loop = u := hi.exec_home hr hx hk'
      have hl := code_local h
      have hcd : ¬ (c = d ∨ q.hands i.co = some c) := by
        rintro (rfl | hh)
        · rw [hk] at hk'
          injection hk' with hk'
          exact hu (by rw [hk', hloop])
        · exact hi.hands_ne hk hp hpw ha.2.2.2.1 hq hh
      exact ⟨(hl.corun c hcd).trans hk, (hl.pos c hcd).trans hp, hl.turn k.loop hu.symm,
        congrFun hl.batch k.loop⟩
  | ends => exact ⟨hk, hp, hne _ _, rfl⟩

/-- Where a coroutine that waits or executes is, and the loop of its thread, is
    changed by the calls on that thread only; its reports are also by
    `epoll_wait`. -/
theorem Inv.step_others (hi : s.Inv) (ha : s.Supplied a) (hs : s.step a = .ok s')
    (hk : s.corun c = some k) (hp : s.pos c = some p) (hpw : p.waits = true ∨ p.active = true)
    (hother : ∀ i, a ≠ .run k.loop i) :
    s'.corun c = some k ∧ s'.pos c = some p ∧ s'.turn k.loop = s.turn k.loop ∧
      (s'.batch k.loop = s.batch k.loop ∨ ∃ events, a = .poll k.loop events) := by
  cases a with
  | addLoop u fd ismain =>
      rcases (bind_eq_ok_iff _ _ _).mp hs with ⟨io, _, hs⟩
      injection hs with hs
      rw [← hs]
      exact ⟨hk, hp, rfl, .inl rfl⟩
  | start u fd co ok =>
      rcases ha with ⟨hmain, _, _, hco, _⟩
      have hcc : c ≠ co := by
        rintro rfl
        rw [(hi.unborn hco).2] at hk
        cases hk
      have hs' : s.start u fd co ok = .ok s' := hs
      unfold TcpSys.start at hs'
      simp only [hmain] at hs'
      rcases (bind_eq_ok_iff _ _ _).mp hs' with ⟨io, _, hs'⟩
      injection hs' with hs'
      rw [← hs']
      exact ⟨(Function.update_of_ne hcc _ _).trans hk, (Function.update_of_ne hcc _ _).trans hp,
        rfl, .inl rfl⟩
  | poll u events =>
      injection hs with hs
      rw [← hs]
      refine ⟨hk, hp, rfl, ?_⟩
      by_cases hu : u = k.loop
      · exact .inr ⟨events, by rw [hu]⟩
      · exact .inl (Function.update_of_ne (Ne.symm hu) _ _)
  | run u i =>
      have hu : u ≠ k.loop := fun h => hother i (by rw [h])
      rcases hi.run_others ha hs hk hp hpw hu with ⟨h1, h2, h3, h4⟩
      exact ⟨h1, h2, h3, .inl h4⟩
  | drop u d =>
      rcases ha with ⟨_, hun⟩
      -- A coroutine that waits or executes is pointed to.
      have hcd : c ≠ d := by
        rintro rfl
        rcases hi.unheld hk hp hun with ⟨_, hpa, _, hpw'⟩
        rw [hpa, hpw'] at hpw
        rcases hpw with hpw | hpw
        · cases hpw
        · cases hpw
      rw [step] at hs
      cases hd : s.corun d with
      | none =>
          rw [hd] at hs
          cases hs
      | some kd =>
          rw [hd] at hs
          rcases (bind_eq_ok_iff _ _ _).mp hs with ⟨w, _, hs⟩
          rcases (bind_eq_ok_iff _ _ _).mp hs with ⟨io, _, hs⟩
          injection hs with hs
          rw [← hs]
          exact ⟨(Function.update_of_ne hcd _ _).trans hk, (Function.update_of_ne hcd _ _).trans hp,
            rfl, .inl rfl⟩

/-- What the loop finds is what has been reported. -/
theorem Core.finds_reported (hi : s.Core) {x : PollerEvent} {r : Io × Option Fd} {fd : Fd}
    (h : s.io.loopFind t x = .ok r) (hf : r.2 = some fd) : fd = x.fd := by
  unfold Io.loopFind at h
  cases hl : s.io.loop t with
  | none =>
      rw [hl] at h
      cases h
  | some l =>
      rw [hl] at h
      simp only [] at h
      cases he : l.events x.fd with
      | none =>
          rw [he] at h
          injection h with h
          rw [← h] at hf
          cases hf
      | some e =>
          rw [he] at h
          simp only [] at h
          cases hx : s.io.ev e with
          | none =>
              rw [hx] at h
              cases h
          | some y =>
              rw [hx] at h
              simp only [] at h
              have hent : s.io.entry t x.fd = some e := (Io.entry_of_loop hl x.fd).trans he
              have hfd : (y.obj.setMutable x.event).eventHandleAble.2.fd = x.fd :=
                (y.obj.setMutable x.event).eventHandleAble_keeps.1.trans
                  (hi.neat.entry_of hx hent).1
              by_cases hh : (!(y.obj.setMutable x.event).eventHandleAble.1) = true
              · rw [if_pos hh] at h
                injection h with h
                rw [← h] at hf
                cases hf
              · rw [if_neg hh] at h
                by_cases hw : l.wakeFd = (y.obj.setMutable x.event).eventHandleAble.2.fd
                · rw [if_pos hw] at h
                  injection h with h
                  rw [← h] at hf
                  cases hf
                · rw [if_neg hw] at h
                  injection h with h
                  rw [← h] at hf
                  injection hf with hf
                  exact hf.symm.trans hfd

end Others

end TcpSys

/-! ### A run -/

namespace TcpOp

/-- What the machine supplies on thread 1. -/
def onMain : Supply :=
  { site := { sp := 0x20fe0, main := 1, mainBlk := 0x7000, blk := 0 }, ok := true, accepted := none,
    more := true, co := 20 }

/-- And on thread 2. -/
def onWorker : Supply :=
  { onMain with site := { sp := 0x30fe0, main := 2, mainBlk := 0x8000, blk := 0 }, co := 22 }

/-- Coroutine 10 of thread 1 has accepted descriptor 9 and handed it to the loop
    of thread 2, and has not let go of the object yet. Coroutine 20 has begun
    there and sleeps. -/
def firstConnection : List TcpOp :=
  [.addLoop 1 3 true, .addLoop 2 4 false, .start 1 5 10 true, .poll 1 [(5, pollIn)]] ++
    List.replicate 14 (.run 1 onMain) ++ [.poll 1 [(5, pollIn)]] ++
    List.replicate 6 (.run 1 onMain) ++ [.run 1 { onMain with accepted := some (9, false) },
      .run 1 onMain, .run 1 onMain, .run 1 { onMain with co := 22 },
      .run 1 { onMain with co := 22 }, .poll 2 [(9, pollIn)]] ++
    List.replicate 14 (.run 2 onWorker)

end TcpOp

/-- A run in which no `Continuation` ends can be checked. -/
theorem undropped {s : TcpSys} {as : List TcpOp}
    (h : Checks TcpSys.step (fun s a => a.drops = false ∧ s.Supplied a) s as) :
    Runs TcpSys.step TcpSys.Supplied s as (after TcpSys.step s as) :=
  Runs.mono (fun (s : TcpSys) (a : TcpOp) (h : a.drops = false ∧ s.Supplied a) => h.2)
    (Checks.runs h)

/-- So can a run whose steps meet a further condition. -/
theorem undropped_and {Q : TcpSys → TcpOp → Prop} {s : TcpSys} {as : List TcpOp}
    (h : Checks TcpSys.step (fun s a => (a.drops = false ∧ s.Supplied a) ∧ Q s a) s as) :
    Runs TcpSys.step (fun s a => s.Supplied a ∧ Q s a) s as (after TcpSys.step s as) :=
  Runs.mono (fun (s : TcpSys) (a : TcpOp)
    (h : (a.drops = false ∧ s.Supplied a) ∧ Q s a) => ⟨h.1.2, h.2⟩) (Checks.runs h)

/-- Such a run leaves the `Continuation` of `c` in particular. -/
theorem undropped_spares {Q : TcpSys → TcpOp → Prop} {s : TcpSys} {as : List TcpOp} {c : McoRef}
    (h : Checks TcpSys.step (fun s a => (a.drops = false ∧ s.Supplied a) ∧ Q s a) s as) :
    Runs TcpSys.step (fun s a => (s.Supplied a ∧ Q s a) ∧ ∀ t, a ≠ .drop t c) s as
      (after TcpSys.step s as) := by
  refine Runs.mono (fun (s : TcpSys) (a : TcpOp)
    (h : (a.drops = false ∧ s.Supplied a) ∧ Q s a) => ⟨⟨h.1.2, h.2⟩, ?_⟩) (Checks.runs h)
  rintro t rfl
  cases h.1.1

end Fasco
