import Fasco.Theory.Apart
import Fasco.Theory.Outcomes
import Fasco.Theory.Connections

/-!
# What a Server's Step Performs

Most steps of the server are calls of the pools, the loops and the registry, and
do not touch a coroutine. `worldOp` reads off the state the operation on
coroutines that a step performs, if any, and `step_performs` says that the step
does it and nothing else to them: it returns what the operation returns, and a
fault in coroutine code is the fault of that operation. It also says whose
callbacks there are afterwards.

## Main definitions

* `TcpSys.codeOp`, `TcpSys.callOp`, `TcpSys.worldOp`: The operation that a step
  performs.
* `TcpSys.Performs`: It is what the step does to the coroutines.

## Theorems

* `step_performs`: Every step performs its operation.
-/

namespace Fasco

open Fallible

namespace TcpSys

/-- The operation that code at a position performs on thread `t`. -/
def codeOp (t : Tid) (i : Supply) : Pos → Option Op
  | .switch _ _ mco => some (.yield t (some mco) i.site.sp)
  | .made _ _ l => some (.create l i.co false)
  | .finish => some (.finish t i.site.sp)
  | _ => none

/-- The operation that the next call on thread `t` performs, if its loop is at
    the given turn. -/
def callOp (s : TcpSys) (t : Tid) (i : Supply) : Turn → Option Op
  | .enter mco => some (.resume t (some mco) i.site)
  | .inside _ => ((s.w.exec t).bind s.pos).bind (codeOp t i)
  | _ => none

theorem callOp_inside {s : TcpSys} {t : Tid} {i : Supply} {c d : McoRef} {p : Pos}
    (hx : s.w.exec t = some c) (hp : s.pos c = some p) :
    s.callOp t i (.inside d) = codeOp t i p := by
  rw [callOp, hx, Option.bind_some, hp, Option.bind_some]

/-- The operation that a step performs. A new coroutine is for the thread it is
    handed to. -/
def worldOp (s : TcpSys) : TcpOp → Option Op
  | .start _ _ c _ => s.loops.mainLoop.map (fun l => .create l c false)
  | .run t i => s.callOp t i (s.turn t)
  | .drop t c => some (.free t (some c))
  | _ => none

/-- What the step `r` does to the coroutines is the operation `o`. A callback is
    an old one, which stays unless its coroutine is freed, or that of the
    coroutine that has been made. -/
structure Performs (s : TcpSys) (o : Option Op) (r : Except Abort TcpSys) : Prop where
  stays : o = none → ∀ s', r = .ok s' → s'.w = s.w
  steps : ∀ a, o = some a → ∀ s', r = .ok s' → s.w.step a = .ok s'.w
  fault : ∀ g, r = .error (.mco g) → ∃ a, o = some a ∧ s.w.step a = .error g
  bound : ∀ s' c k, r = .ok s' → s'.corun c = some k → o = some (.create k.loop c false) ∨
    s.corun c = some k ∧ ∀ t, o ≠ some (.free t (some c))

section Parts

variable {s : TcpSys} {o : Option Op} {α : Type}

theorem Performs.fails {f : Abort} (hf : ∀ g, f ≠ .mco g) : Performs s o (.error f) :=
  ⟨fun _ _ h => (by cases h), fun _ _ _ h => (by cases h),
    fun g h => absurd (Except.error.inj h) (hf g), fun _ _ _ h => (by cases h)⟩

/-- The coroutines are left alone. -/
theorem Performs.same {s' : TcpSys} (hw : s'.w = s.w) (hc : s'.corun = s.corun) :
    Performs s none (.ok s') := by
  refine ⟨fun _ u hu => ?_, fun a h => (by cases h), fun g h => (by cases h), fun u c k hu hk => ?_⟩
  · injection hu with hu
    rw [← hu, hw]
  · injection hu with hu
    rw [← hu, hc] at hk
    exact .inr ⟨hk, fun t h => by cases h⟩

/-- What comes first is no coroutine operation. -/
theorem Performs.after {x : Except Abort α} {f : α → Except Abort TcpSys} (hx : NoMco x)
    (hf : ∀ a, Performs s o (f a)) : Performs s o (x >>= f) := by
  cases x with
  | ok a => exact hf a
  | error f => exact .fails (fun g h => hx g (by rw [h]))

/-- The operation has returned. -/
theorem Performs.did {a : Op} {s' : TcpSys} (h : s.w.step a = .ok s'.w)
    (hc : ∀ c k, s'.corun c = some k → s.corun c = some k ∧ ∀ t, a ≠ .free t (some c)) :
    Performs s (some a) (.ok s') := by
  refine ⟨fun h => (by cases h), fun b hb u hu => ?_, fun g h => (by cases h),
    fun u c k hu hk => ?_⟩
  · injection hb with hb
    injection hu with hu
    rw [← hb, ← hu, h]
  · injection hu with hu
    rw [← hu] at hk
    rcases hc c k hk with ⟨h1, h2⟩
    exact .inr ⟨h1, fun t h => h2 t (Option.some.inj h)⟩

/-- It has not. -/
theorem Performs.faults {a : Op} {g : Fault} (h : s.w.step a = .error g) :
    Performs s (some a) (.error (.mco g)) := by
  refine ⟨fun h => (by cases h), fun _ _ s' h => (by cases h), fun g' hg => ⟨a, rfl, ?_⟩,
    fun _ _ _ h => (by cases h)⟩
  injection hg with hg
  injection hg with hg
  rw [h, hg]

/-- A new coroutine with its callback. -/
theorem Performs.creates {s' : TcpSys} {co : McoRef} {k : Corun}
    (hw : s'.w = s.w.mcoCreate co false)
    (hc : s'.corun = Function.update s.corun co (some k)) :
    Performs s (some (.create k.loop co false)) (.ok s') := by
  refine ⟨fun h => (by cases h), fun a ha u hu => ?_, fun g h => (by cases h),
    fun u c k' hu hk => ?_⟩
  · injection ha with ha
    injection hu with hu
    rw [← ha, ← hu, hw]
    rfl
  · injection hu with hu
    rw [← hu, hc] at hk
    by_cases hcc : c = co
    · rw [hcc, Function.update_self] at hk
      injection hk with hk
      rw [← hk, hcc]
      exact .inl rfl
    · rw [Function.update_of_ne hcc] at hk
      exact .inr ⟨hk, fun t h => by cases h⟩

end Parts

section Steps

variable (s : TcpSys) {t : Tid} {c : McoRef} {k : Corun} {i : Supply}

/-- The operation that code at a position performs. -/
theorem code_performs (hx : s.w.exec t = some c) {p : Pos} (hp : s.pos c = some p) :
    Performs s (s.callOp t i (.inside c)) (s.code t c k i p) := by
  rw [callOp_inside hx hp]
  have ho := code_outcome s t c k i p
  generalize s.code t c k i p = r at ho ⊢
  cases ho with
  | fails hf => exact .fails hf
  | moves hm =>
      -- At these positions there is no operation.
      have hnone : codeOp t i p = none := by
        cases hm <;> rfl
      rw [hnone]
      exact .same rfl rfl
  | unyielded h => exact .faults h
  | stays h _ => exact .did h (fun _ _ hk => ⟨hk, fun _ h => by cases h⟩)
  | sleeps h _ => exact .did h (fun _ _ hk => ⟨hk, fun _ h => by cases h⟩)
  | chosen _ => exact .same rfl rfl
  | @made g e l _ _ _ _ =>
      exact .creates (k := { accepts := false, event := e, fd := g, loop := l }) rfl rfl
  | given _ => exact .same (handed_same s _ _).1 (handed_same s _ _).2
  | entered _ => exact .same (handed_same s _ _).1 (handed_same s _ _).2
  | unended _ h => exact .faults h
  | ended _ h => exact .did h (fun _ _ hk => ⟨hk, fun _ h => by cases h⟩)

theorem loopCode_performs (r : Turn) (hin : ∀ d, r = .inside d → s.w.exec t = some d) :
    Performs s (s.callOp t i r) (s.loopCode t i r) := by
  have ho := s.loopCode_outcome t i r
  generalize s.loopCode t i r = x at ho ⊢
  cases ho with
  | fails hf => exact .fails hf
  | unresumed h => exact .faults h
  | enters h _ => exact .did h (fun _ _ hk => ⟨hk, fun _ h => by cases h⟩)
  | misses h _ => exact .did h (fun _ _ hk => ⟨hk, fun _ h => by cases h⟩)
  | @calls m c k p hx hk hp _ h =>
      rw [hin m rfl] at hx
      injection hx with hx
      rw [← hx] at hp h
      rw [← h]
      exact code_performs s (hin m rfl) hp
  -- The others are calls of the pool and the loop.
  | _ => exact .same rfl rfl

end Steps

/-- A step does to the coroutines what its operation does, and nothing else. -/
theorem step_performs {s : TcpSys} {a : TcpOp} (hi : s.Inv) :
    Performs s (s.worldOp a) (s.step a) := by
  cases a with
  | addLoop t fd ismain => exact .after (Io.newLoop_noMco s.io t fd) (fun _ => .same rfl rfl)
  | start t fd c ok =>
      change Performs s (s.worldOp (.start t fd c ok)) (s.start t fd c ok)
      unfold TcpSys.start worldOp
      cases s.loops.mainLoop with
      | none => exact .same rfl rfl
      | some l =>
          exact .after (Io.updateEvents_noMco _ l _ ok) (fun io =>
            .creates (k := { accepts := true, event := _, fd := fd, loop := l }) rfl rfl)
  | poll t events => exact .same rfl rfl
  | run t i =>
      exact loopCode_performs s (s.turn t) (fun d hd => hi.hosted.exec hd)
  | drop t c =>
      rw [step]
      cases s.corun c with
      | none => exact .fails (fun g h => by cases h)
      | some k =>
          cases hw : s.w.mcoFree t (some c) with
          | error g => exact .faults hw
          | ok w =>
              change Performs s _ (s.io.release k.event >>= _)
              refine .after (Io.release_noMco s.io k.event)
                (fun io => .did (a := .free t (some c)) hw (fun d kd hk => ?_))
              have hk' : Function.update s.corun c none d = some kd := hk
              by_cases hdc : d = c
              · rw [hdc, Function.update_self] at hk'
                cases hk'
              · rw [Function.update_of_ne hdc] at hk'
                refine ⟨hk', fun u h => hdc ?_⟩
                injection h with _ h
                injection h with h
                exact h.symm

end TcpSys

end Fasco
