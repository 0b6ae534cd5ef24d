import Fasco.Theory.Moving
import Fasco.Theory.Performing

/-!
# A Server That Does Not Stop

A step of the server can stop in an assertion, at a bad pointer, or in code of
the coroutines. The first two were excluded with the tables; the third is
excluded here. Every operation that the server performs is one its thread could
perform alone (`Owners.alone`): the loop resumes a coroutine of its own thread
that is in no call stack, a coroutine yields only itself, and what is freed is in
no call stack. So `apart_step` applies, whatever the other threads do in between.

Two things are assumed beside what the machine supplies (`TcpSys.Regular`): a
call is made from the stack that the thread is on, and a `Continuation` ends on
the thread that its coroutine is for. The second is not always so: `accept` has
a pointer too, and on the wrong thread `McoFree` would leave the block of the
other one with a dangling occupant.

## Main definitions

* `TcpSys.Regular`: What the steps rely on.
* `Owners`: The coroutines belong to the threads they are for.

## Theorems

* `Owners.alone`: What a step performs, its thread could perform alone.
* `server_never_stops`: Regular steps return, and the threads do not meet.
-/

namespace Fasco

open World Fallible

section Back

variable {t : Tid} {w v : World} {f : Frames}

/-! What holds of the shared state holds of the thread's own part. -/

/-- Where the thread executes is the same in both. -/
theorem Shows.onStack (hs : Shows t w v) (hc : Carried v f t) {sp : Nat} (h : w.OnStack t sp) :
    v.OnStack t sp := by
  intro c s hx hsc hp
  refine h c s ?_ ?_ hp
  · rw [hs.exec]
    exact hx
  · rw [hs.stack c (hc.exec_alive hx)]
    exact hsc

theorem Shows.absent (hs : Shows t w v) {c : McoRef} (h : w.co c = none) : v.co c = none := by
  cases hv : v.co c with
  | none => rfl
  | some r =>
      have heq := hs.co c (by rw [hv]; rfl)
      rw [h, hv] at heq
      cases heq

theorem Shows.freshMain (hs : Shows t w v) {e : CallSite} (h : w.FreshMain t e) :
    v.FreshMain t e := by
  intro h0
  refine hs.absent (h ?_)
  rw [hs.callstack]
  exact h0

end Back

namespace TcpSys

/-- What a step can rely on, and what the program keeps to: calls are made from
    the stack the thread is on, and a `Continuation` ends on the thread that its
    coroutine is for. -/
def Regular (s : TcpSys) (a : TcpOp) : Prop :=
  s.Supplied a ∧ match a with
    | .run t i => s.w.OnStack t i.site.sp
    | .drop t c => ∀ k, s.corun c = some k → k.loop = t
    | _ => True

instance (s : TcpSys) : ∀ a, Decidable (a.drops = false ∧ s.Regular a)
  | .addLoop t fd ismain => decidable_of_iff
      (TcpOp.drops (.addLoop t fd ismain) = false ∧ s.Supplied (.addLoop t fd ismain))
      ⟨fun h => ⟨h.1, h.2, trivial⟩, fun h => ⟨h.1, h.2.1⟩⟩
  | .start t fd c ok => decidable_of_iff
      (TcpOp.drops (.start t fd c ok) = false ∧ s.Supplied (.start t fd c ok))
      ⟨fun h => ⟨h.1, h.2, trivial⟩, fun h => ⟨h.1, h.2.1⟩⟩
  | .poll t events => decidable_of_iff
      (TcpOp.drops (.poll t events) = false ∧ s.Supplied (.poll t events))
      ⟨fun h => ⟨h.1, h.2, trivial⟩, fun h => ⟨h.1, h.2.1⟩⟩
  | .run t i => decidable_of_iff
      ((TcpOp.drops (.run t i) = false ∧ s.Supplied (.run t i)) ∧ s.w.OnStack t i.site.sp)
      ⟨fun h => ⟨h.1.1, h.1.2, h.2⟩, fun h => ⟨⟨h.1, h.2.1⟩, h.2.2⟩⟩
  | .drop _ _ => isFalse (fun h => Bool.noConfusion h.1)

/-- The threads' own runs, with the coroutine of every callback among those of
    the thread it is for. -/
structure Owners (s : TcpSys) (v : Tid → World) : Prop where
  apart : Apart s.w v
  owned : ∀ c k, s.corun c = some k → (v k.loop).mainOf c = some false

section Alone

variable {s : TcpSys} {v : Tid → World} {t : Tid} {c : McoRef} {k : Corun} {p : Pos} {i : Supply}

/-- A coroutine that no loop has resumed is in no slot. -/
theorem Owners.no_slot (ho : s.Owners v) (hi : s.Inv) (hp : s.pos c = some p)
    (hnot : ∀ u, s.turn u ≠ .inside c) {j : Nat} (hj : j < ((v t).callstack t).index) :
    ((v t).callstack t).slot j ≠ some c := by
  intro hs
  rcases hi.hosted with ⟨f, hf⟩
  have hsh := ho.apart.shows t
  rw [← hsh.callstack] at hj hs
  exact hf.not_mem hp hnot t ((hf.orderly.steady.holds t).slot_mem hj hs)

/-- The coroutine of a callback is alive on the thread of its loop. -/
theorem Owners.live (ho : s.Owners v) (hk : s.corun c = some k) :
    (v k.loop).Live (some c) := by
  intro d hd
  injection hd with hd
  rcases co_of_mainOf (ho.owned c k hk) with ⟨r, hr, _⟩
  rw [← hd, hr]
  rfl

theorem Owners.absent (ho : s.Owners v) (h : s.w.co c = none) (u : Tid) : (v u).co c = none :=
  (ho.apart.shows u).absent h

/-- The loop resumes a coroutine of its own, as it promises. -/
theorem Owners.resumes (ho : s.Owners v) (hi : s.Inv) (ht : s.turn t = .enter c)
    (hsite : s.w.FreshMain t i.site) (hsp : s.w.OnStack t i.site.sp) :
    Alone v (.resume t (some c) i.site) := by
  have hok := hi.turns t
  rw [ht] at hok
  rcases hok with ⟨⟨k, p, hk, hp, hpw, rfl⟩, _⟩
  rcases ho.apart.carried k.loop with ⟨f, hc⟩
  have hsh := ho.apart.shows k.loop
  refine ⟨⟨rfl, ⟨hc.inCode, ho.live hk, hsh.onStack hc hsp, hsh.freshMain hsite⟩, fun j hj => ?_⟩,
    fun d hd u => ?_⟩
  · exact ho.no_slot hi hp (hi.not_inside hp hpw) (Nat.lt_of_le_of_lt (Nat.le_add_right j 2) hj)
  · change d ∈ if ((v k.loop).callstack k.loop).index = 0 then [i.site.main] else [] at hd
    by_cases h0 : ((v k.loop).callstack k.loop).index = 0
    · rw [if_pos h0] at hd
      rw [List.mem_singleton.mp hd]
      refine ho.absent (hsite ?_) u
      rw [hsh.callstack]
      exact h0
    · rw [if_neg h0] at hd
      cases hd

/-- A hooked call yields the coroutine it is made from. -/
theorem Owners.yields {fd : Fd} {e : EvRef} {mco : McoRef} (ho : s.Owners v) (hi : s.Inv)
    (hk : s.corun c = some k) (hp : s.pos c = some (.switch fd e mco))
    (hsp : s.w.OnStack k.loop i.site.sp) : Alone v (.yield k.loop (some mco) i.site.sp) := by
  rcases (hi.serves c k _ hk hp).fits with ⟨_, _, rfl⟩
  rcases ho.apart.carried k.loop with ⟨f, hc⟩
  refine ⟨⟨rfl, ⟨hc.inCode, ho.live hk, (ho.apart.shows k.loop).onStack hc hsp⟩, ?_⟩,
    fun d hd => absurd hd List.not_mem_nil⟩
  change (v k.loop).mainOf mco ≠ some true
  rw [ho.owned mco k hk]
  exact fun h => by cases h

/-- A callback that returns ends its own coroutine. -/
theorem Owners.finishes (ho : s.Owners v) (hk : s.corun c = some k)
    (hx : s.w.exec k.loop = some c) (hsp : s.w.OnStack k.loop i.site.sp) :
    Alone v (.finish k.loop i.site.sp) := by
  rcases ho.apart.carried k.loop with ⟨f, hc⟩
  have hsh := ho.apart.shows k.loop
  rcases co_of_mainOf (ho.owned c k hk) with ⟨r, hr, hm⟩
  have hx' : (v k.loop).exec k.loop = some c := by
    rw [← hsh.exec]
    exact hx
  exact ⟨⟨rfl, ⟨hc.inCode, ⟨c, r, hx', hr, hm⟩, hsh.onStack hc hsp⟩, trivial⟩,
    fun d hd => absurd hd List.not_mem_nil⟩

theorem Owners.creates (ho : s.Owners v) (l : Tid) (h : s.w.co c = none) :
    Alone v (.create l c false) := by
  rcases ho.apart.carried l with ⟨f, hc⟩
  refine ⟨⟨rfl, ⟨hc.inCode, ho.absent h l⟩, trivial⟩, fun d hd u => ?_⟩
  rw [List.mem_singleton.mp hd]
  exact ho.absent h u

/-- A coroutine is freed by the thread of its loop, outside the call stack. -/
theorem Owners.frees (ho : s.Owners v) (hi : s.Inv) (hk : s.corun c = some k)
    (hun : s.Unheld c) : Alone v (.free k.loop (some c)) := by
  rcases ho.apart.carried k.loop with ⟨f, hc⟩
  rcases hi.pos_of hk with ⟨p, hp⟩
  refine ⟨⟨rfl, ⟨hc.inCode, ho.live hk⟩, fun j hj => ?_⟩, fun d hd => absurd hd List.not_mem_nil⟩
  refine ho.no_slot hi hp (fun u hu => (hun.1 u).2.2 ?_) hj
  rw [hu]
  rfl

/-- What a regular step performs, its thread could perform alone. -/
theorem Owners.alone {a : TcpOp} {o : Op} (ho : s.Owners v) (hi : s.Inv) (ha : s.Regular a)
    (hop : s.worldOp a = some o) : Alone v o := by
  cases a with
  | addLoop t fd ismain => cases hop
  | start t fd c ok =>
      rcases ha with ⟨⟨hmain, _, _, hco, _⟩, _⟩
      have hop' : some (Op.create t c false) = some o := by
        rw [← hop, worldOp, hmain]
        rfl
      injection hop' with hop'
      rw [← hop']
      exact ho.creates t hco
  | poll t events => cases hop
  | run t i =>
      rcases ha with ⟨⟨_, _, hsite, hco, _⟩, hsp⟩
      have hop' : s.callOp t i (s.turn t) = some o := hop
      cases hr : s.turn t with
      | enter mco =>
          rw [hr] at hop'
          injection hop' with hop'
          rw [← hop']
          exact ho.resumes hi hr hsite hsp
      | inside c =>
          have hok := hi.turns t
          rw [hr] at hok
          rcases hok with ⟨k, p, hk, hp, _, rfl⟩
          have hx := hi.hosted.exec hr
          rw [hr, callOp_inside hx hp] at hop'
          cases p with
          | switch fd e mco =>
              injection hop' with hop'
              rw [← hop']
              exact ho.yields hi hk hp hsp
          | made g e l =>
              injection hop' with hop'
              rw [← hop']
              exact ho.creates l hco
          | finish =>
              injection hop' with hop'
              rw [← hop']
              exact ho.finishes hk hx hsp
          | _ => cases hop'
      | _ =>
          rw [hr] at hop'
          cases hop'
  | drop t c =>
      injection hop with hop
      rcases ha with ⟨⟨hsome, hun⟩, hhome⟩
      rcases Option.isSome_iff_exists.mp hsome with ⟨k, hk⟩
      rw [← hop, ← hhome k hk]
      exact ho.frees hi hk hun

end Alone

/-- The state that a run of the server reaches, with the operations it has
    performed and the runs of the threads by themselves. -/
def Attended (w : World) (s : TcpSys) : Prop :=
  s.Inv ∧ ∃ ops v, Runs World.step (fun u o => OnThread o.thread u o) w ops s.w ∧
    Runs (Interleave.solo World.step Op.thread) Alone (fun _ => w) ops v ∧ s.Owners v

theorem attended_init {s : TcpSys} (h : TcpInit s) : s.Attended s.w := by
  refine ⟨inv_init h, [], fun _ => s.w, Runs.nil _, Runs.nil _, apart_init h.world,
    fun c k hk => ?_⟩
  rw [h.corun c] at hk
  cases hk

/-- Every regular step keeps each coroutine with its owner. -/
theorem owners_step {s s' : TcpSys} {v : Tid → World} {a : TcpOp} {o : Op} {u : World}
    (ho : s.Owners v) (hi : s.Inv) (ha : s.Regular a) (hop : s.worldOp a = some o)
    (hstep : s.step a = .ok s') (hs : (v o.thread).step o = .ok u)
    (hap : Apart s'.w (Function.update v o.thread u)) :
    s'.Owners (Function.update v o.thread u) := by
  have halone := ho.alone hi ha hop
  rcases ho.apart.carried o.thread with ⟨f, hc⟩
  refine ⟨hap, fun c k hk => ?_⟩
  rcases (step_performs hi).bound s' c k hstep hk with hnew | ⟨hold, hfree⟩
  -- The coroutine has just been made for its thread.
  · rw [hop] at hnew
    injection hnew with hnew
    rw [hnew] at hs ⊢
    change (v k.loop).step (.create k.loop c false) = .ok u at hs
    injection hs with hs
    have hborn : ((v k.loop).mcoCreate c false).mainOf c = some false := by
      unfold World.mainOf World.ctl mcoCreate
      simp only [Function.update_self]
      rfl
    rw [show Op.thread (.create k.loop c false) = k.loop from rfl, Function.update_self, ← hs]
    exact hborn
  · have hm := ho.owned c k hold
    by_cases ht : k.loop = o.thread
    · rw [ht, Function.update_self]
      rw [ht] at hm
      exact mainOf_step hc halone.1 hs hm (fun t h => hfree t (by rw [hop, h]))
    · rw [Function.update_of_ne ht]
      exact hm

/-- A regular step returns, and leaves the threads apart. -/
theorem attended_step {w : World} {s : TcpSys} {a : TcpOp} (h : s.Attended w)
    (ha : s.Regular a) : ∃ s', s.step a = .ok s' ∧ s'.Attended w := by
  rcases h with ⟨hi, ops, v, hrun, hsolo, ho⟩
  have hperf := step_performs (a := a) hi
  have hkeep := step_keeps hi ha.1
  cases hop : s.worldOp a with
  | none =>
      cases hs : s.step a with
      | error f =>
          rw [hs] at hkeep
          rcases hkeep with ⟨g, rfl⟩
          rcases hperf.fault g hs with ⟨o, ho', _⟩
          rw [hop] at ho'
          cases ho'
      | ok s' =>
          rw [hs] at hkeep
          have hw := hperf.stays hop s' hs
          refine ⟨s', rfl, hkeep, ops, v, by rw [hw]; exact hrun, hsolo,
            by rw [hw]; exact ho.apart, fun c k hk => ?_⟩
          rcases hperf.bound s' c k hs hk with hnew | ⟨hold, _⟩
          · rw [hop] at hnew
            cases hnew
          · exact ho.owned c k hold
  | some o =>
      have halone := ho.alone hi ha hop
      rcases ho.apart.carried o.thread with ⟨f, hc⟩
      rcases onThread_returns hc halone.1 with ⟨u, hu⟩
      rcases apart_step ho.apart halone hu with ⟨w', hw', hap⟩
      cases hs : s.step a with
      -- The operation has returned, so the step has not stopped in it.
      | error f =>
          rw [hs] at hkeep
          rcases hkeep with ⟨g, rfl⟩
          rcases hperf.fault g hs with ⟨o', ho', hfault⟩
          rw [hop] at ho'
          injection ho' with ho'
          rw [← ho', hw'] at hfault
          cases hfault
      | ok s' =>
          rw [hs] at hkeep
          have heq := hperf.steps o hop s' hs
          rw [hw'] at heq
          injection heq with heq
          rw [heq] at hw' hap
          refine ⟨s', rfl, hkeep, ops ++ [o], Function.update v o.thread u, ?_, ?_,
            owners_step ho hi ha hop hs hu hap⟩
          · exact hrun.append (Runs.cons _ _ _ o [] (ho.apart.onThread halone) hw' (Runs.nil _))
          · exact hsolo.append (Runs.cons _ _ _ o [] halone
              (Interleave.solo_eq_ok.mpr ⟨u, hu, rfl⟩) (Runs.nil _))

end TcpSys

/-- No run of the server stops: steps that are regular where they are taken
    return, in any number, order and distribution over the threads. What they
    do to the coroutines is a run of coroutine operations in which every thread
    has at its end what it would have had alone: its call stack, its
    coroutines and the bytes on its stacks. -/
theorem server_never_stops {s₀ : TcpSys} {as : List TcpOp} (h₀ : TcpInit s₀)
    (h : Along TcpSys.step TcpSys.Regular s₀ as) :
    ∃ s, Runs TcpSys.step TcpSys.Regular s₀ as s ∧
      ∃ ops, Runs World.step (fun w o => OnThread o.thread w o) s₀.w ops s.w ∧
        ∀ t, ∃ v, Runs World.step (OnThread t) s₀.w (Interleave.mine Op.thread t ops) v ∧
          Shows t s.w v := by
  have hpres : ∀ (s : TcpSys) (a : TcpOp) (s' : TcpSys), s.Attended s₀.w → s.Regular a →
      s.step a = .ok s' → s'.Attended s₀.w := by
    intro s a s' hs ha hstep
    rcases TcpSys.attended_step hs ha with ⟨s1, h1, hs1⟩
    rw [hstep] at h1
    injection h1 with h1
    rw [h1]
    exact hs1
  rcases Interleave.runs_of_along hpres
      (fun s a hs ha => (TcpSys.attended_step hs ha).imp (fun _ h => h.1)) as s₀
      (TcpSys.attended_init h₀) h with ⟨s, hrun⟩
  rcases hrun.invariant hpres (TcpSys.attended_init h₀) with ⟨_, ops, v, hops, hsolo, ho⟩
  refine ⟨s, hrun, ops, hops, fun t => ⟨v t, ?_, ho.apart.shows t⟩⟩
  refine Interleave.solo_component (Q := OnThread t) (i := t) ?_ hsolo
  intro u o hal hot
  rw [← hot]
  exact hal.1

/-- A connection is accepted on thread 1 and handed to the loop of thread 2,
    where its coroutine begins and waits. -/
theorem server_never_stops_two :
    ∃ s, Runs TcpSys.step TcpSys.Regular TcpSys.blank TcpOp.firstConnection s ∧
      ∃ ops, Runs World.step (fun w o => OnThread o.thread w o) TcpSys.blank.w ops s.w ∧
        ∀ t, ∃ v, Runs World.step (OnThread t) TcpSys.blank.w
          (Interleave.mine Op.thread t ops) v ∧ Shows t s.w v :=
  server_never_stops tcpBlank_init ((Checks.runs (by decide +kernel)).along (I := fun _ => True)
    (fun _ _ _ _ _ _ => trivial)
    (fun (s : TcpSys) (a : TcpOp) _ (h : a.drops = false ∧ s.Regular a) => h.2) trivial)

end Fasco
