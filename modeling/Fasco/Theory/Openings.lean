import Fasco.Theory.Watching

/-!
# Descriptors Used Again

The kernel gives a number that has been closed to the next descriptor that is
opened, and neither the pools nor the tables nor the reports of an `epoll_wait`
say which opening of the number they are about. A server that closes
descriptors while reports are pending can take the report for one connection as
one for another.

This one does not. The object that a callback is bound to keeps the descriptor
open until the `Continuation` goes, so the coroutine has its connection to
itself for as long (`own_connection`). And a report is pending only as long as
the coroutine it is for waits: no other report wakes it in between, so it
cannot close the descriptor before the loop has come to the report
(`reports_are_current`). The second rests on what `epoll_wait` promises, namely
that it reports a descriptor once at most, and only if it is watched. It is a
statement about what is in `occur`, while other threads accept connections and
close others.

## Main definitions

* `TcpSys.Reports`: What `epoll_wait` promises.
* `TcpSys.Pending`: What holds of a report the loop has not come to.

## Theorems

* `Inv.step_bound`: A callback stays bound to its object.
* `own_connection`: A coroutine has its descriptor to itself.
* `step_current`: The pending reports stay what they are.
* `reports_are_current`: They are about the descriptors that are open.
-/

namespace Fasco

open Fallible

namespace TcpSys

section Own

variable {s s' : TcpSys} {c d : McoRef} {k k' : Corun} {p : Pos} {i : Supply} {a : TcpOp} {t : Tid}

/-- A call does not bind a callback again. -/
theorem Inv.run_bound (hi : s.Inv) (ha : s.Supplied (.run t i)) (hs : s.step (.run t i) = .ok s')
    (hk : s.corun c = some k) : s'.corun c = some k := by
  have hi' := next_inv hi ha hs
  by_cases hin : ∃ d, s.turn t = .inside d
  · rcases hin with ⟨d, hr⟩
    have hok := hi.turns t
    rw [hr] at hok
    rcases hok with ⟨kd, q, hkd, hq, hqa, rfl⟩
    have hcode := hi.run_inside hkd hq hr hs
    have hl := code_local hcode
    -- If it has a position afterwards it is bound, and to what it was before.
    have hback : ∀ {p'}, s'.pos c = some p' → s'.corun c = some k := by
      intro p' hp'
      rcases hi'.corun_of hp' with ⟨k', hk'⟩
      rcases (step_performs hi).bound s' c k' hs hk' with hmade | ⟨hold, _⟩
      · exfalso
        have hop : codeOp kd.loop i q = some (.create k'.loop c false) := by
          rw [← callOp_inside (d := d) (hi.hosted.exec hr) hq, ← hr]
          exact hmade
        cases q with
        | made g e l =>
            injection hop with hop
            injection hop with _ hc _
            rw [← hc, (hi.unborn ha.2.2.2.1).2] at hk
            cases hk
        | _ => cases hop
      · rw [hk] at hold
        rw [hk', ← hold]
    by_cases hcd : c = d
    · rcases code_flow hi hkd hq hcode with ⟨p', hp', _⟩
      exact hback (by rw [hcd]; exact hp')
    by_cases hh : q.hands i.co = some c
    · rcases hands_fresh hi hkd hq ha.2.2.2.1 hh hcode with ⟨_, hfr⟩
      exact hback hfr
    · rw [hl.corun c (fun h => h.elim hcd hh)]
      exact hk
  · rw [(loop_pos hi (fun d hd => hin ⟨d, hd⟩) hs).1]
    exact hk

/-- A callback stays bound until its `Continuation` goes. -/
theorem Inv.step_bound (hi : s.Inv) (ha : s.Supplied a) (hs : s.step a = .ok s')
    (hk : s.corun c = some k) (hdrop : ∀ t, a ≠ .drop t c) : s'.corun c = some k := by
  cases a with
  | addLoop t fd ismain =>
      rcases (bind_eq_ok_iff _ _ _).mp hs with ⟨io, _, hs⟩
      injection hs with hs
      rw [← hs]
      exact hk
  | start t fd co ok =>
      have hne : c ≠ co := by
        rintro rfl
        rw [(hi.unborn ha.2.2.2.1).2] at hk
        cases hk
      have hs' : s.start t fd co ok = .ok s' := hs
      unfold TcpSys.start at hs'
      simp only [ha.1] at hs'
      rcases (bind_eq_ok_iff _ _ _).mp hs' with ⟨io, _, hs'⟩
      injection hs' with hs'
      rw [← hs']
      exact (Function.update_of_ne hne _ _).trans hk
  | poll t events =>
      injection hs with hs
      rw [← hs]
      exact hk
  | run t i => exact hi.run_bound ha hs hk
  | drop t d =>
      have hne : c ≠ d := fun h => hdrop t (by rw [h])
      rcases Option.isSome_iff_exists.mp ha.1 with ⟨kd, hkd⟩
      rw [step, hkd] at hs
      rcases (bind_eq_ok_iff _ _ _).mp hs with ⟨w, _, hs⟩
      rcases (bind_eq_ok_iff _ _ _).mp hs with ⟨io, _, hs⟩
      injection hs with hs
      rw [← hs]
      exact (Function.update_of_ne hne _ _).trans hk

/-- The descriptor of a callback is open. -/
theorem Inv.bound_open (hi : s.Inv) (hk : s.corun c = some k) :
    s.io.kern.isOpen k.fd = true := by
  rcases hi.pos_of hk with ⟨p, hp⟩
  rcases (hi.serves c k p hk hp).object with ⟨x, hx, hxf, _⟩
  rw [← hxf]
  exact hi.neat.opened _ x hx

/-- A step keeps the opening. -/
theorem bound_step {n : Nat} (h : s.Inv ∧ s.corun c = some k ∧ s.io.kern.opening k.fd = n)
    (ha : s.Supplied a) (hdrop : ∀ t, a ≠ .drop t c) (hs : s.step a = .ok s') :
    s'.Inv ∧ s'.corun c = some k ∧ s'.io.kern.opening k.fd = n :=
  ⟨next_inv h.1 ha hs, h.1.step_bound ha hs h.2.1 hdrop,
    (h.1.step_opening ha hs (h.1.bound_open h.2.1)).1.trans h.2.2⟩

end Own

end TcpSys

namespace TcpSys

/-- What `epoll_wait` promises: a descriptor is reported once, and only if it is
    watched. -/
def Reports (s : TcpSys) : TcpOp → Prop
  | .poll t events => (events.map Prod.fst).Nodup ∧
      ∀ x ∈ events, (s.io.kern.interest t x.1).isSome
  | _ => True

instance (s : TcpSys) : ∀ a, Decidable (s.Reports a)
  | .poll t events => inferInstanceAs (Decidable ((events.map Prod.fst).Nodup ∧
      ∀ x ∈ events, (s.io.kern.interest t x.1).isSome))
  | .addLoop _ _ _ => isTrue trivial
  | .start _ _ _ _ => isTrue trivial
  | .run _ _ => isTrue trivial
  | .drop _ _ => isTrue trivial

/-- A report that the loop of thread `t` has not come to is about the opening
    its descriptor has, and this is the loop's `eventfd` or that of a coroutine
    that waits. -/
structure Pending (s : TcpSys) (t : Tid) (x : PollerEvent) : Prop where
  opening : s.io.kern.opening x.fd = x.opening
  subject : (∃ l, s.io.loop t = some l ∧ l.wakeFd = x.fd) ∨
    ∃ c k p, p.waits = true ∧ k.loop = t ∧ k.fd = x.fd ∧ Resting c k p s

/-- All reports are of this kind, and about different descriptors. -/
def Current (s : TcpSys) : Prop :=
  ∀ t, ((s.batch t).map PollerEvent.fd).Nodup ∧ ∀ x ∈ s.batch t, s.Pending t x

section Reports

variable {s s' : TcpSys} {a : TcpOp} {t : Tid} {i : Supply} {x : PollerEvent}

theorem Inv.pending_open (hi : s.Inv) (h : s.Pending t x) : s.io.kern.isOpen x.fd = true := by
  rcases h.subject with ⟨l, hl, hfd⟩ | ⟨c, k, p, _, _, hfd, hr⟩
  · rcases hi.neat.wake t l hl with ⟨y, hy, hyf⟩
    rw [← hfd, ← hyf]
    exact hi.neat.opened _ y hy
  · rw [← hfd]
    exact hi.bound_open hr.corun

/-- A loop that is told of an object keeps its `eventfd`. -/
theorem told_wake {io io' : Io} {l : Tid} {e : EvRef} {ok : Bool}
    (h : io.updateEvents l e ok = .ok io') (u : Tid) :
    (io'.loop u).map EventLoop.wakeFd = (io.loop u).map EventLoop.wakeFd := by
  have hset : ∀ {lp : EventLoop} (fd : Fd) (r : Option EvRef), io.loop l = some lp →
      ((io.setTable l lp fd r).loop u).map EventLoop.wakeFd
        = (io.loop u).map EventLoop.wakeFd := by
    intro lp fd r hl
    change (Function.update io.loop l _ u).map _ = _
    by_cases hu : u = l
    · rw [hu, Function.update_self, hl]
      rfl
    · rw [Function.update_of_ne hu]
  rcases Io.updateEvents_cases h with
    ⟨lp, x, hl, _, rfl | ⟨_, rfl⟩ | ⟨_, rfl⟩ | ⟨old, y, _, _, rfl⟩⟩
  · rfl
  · exact hset _ _ hl
  · rfl
  · rw [Io.dropped_pool.2]
    exact hset _ _ hl

theorem did_wake {R T : Option EvRef} {ok : Bool} {io io' : Io} (h : Io.Did R T ok io io')
    (u : Tid) : (io'.loop u).map EventLoop.wakeFd = (io.loop u).map EventLoop.wakeFd := by
  induction h with
  | quiet h => rw [h.loop]
  | told h _ _ hs =>
      rw [← h.loop]
      exact told_wake hs u
  | freed _ _ hs ih =>
      rcases Io.release_ok hs with ⟨x, _, rfl⟩
      rw [Io.dropped_pool.2]
      exact ih

/-- So do all in any step. -/
theorem Inv.step_wake (hi : s.Inv) (ha : s.Supplied a) (hs : s.step a = .ok s') {l : EventLoop}
    (hl : s.io.loop t = some l) : ∃ l', s'.io.loop t = some l' ∧ l'.wakeFd = l.wakeFd := by
  have hmap : ∀ {io : Io}, (io.loop t).map EventLoop.wakeFd = (s.io.loop t).map EventLoop.wakeFd →
      ∃ l', io.loop t = some l' ∧ l'.wakeFd = l.wakeFd := by
    intro io h
    rw [hl] at h
    exact Option.map_eq_some_iff.mp h
  cases a with
  | addLoop u fd ismain =>
      rcases (bind_eq_ok_iff _ _ _).mp hs with ⟨io, hio, hs⟩
      injection hs with hs
      rcases Io.newLoop_cases hio with ⟨l', _, _, _, rfl⟩
      have hne : t ≠ u := by
        rintro rfl
        rw [ha.1] at hl
        cases hl
      rw [← hs]
      exact ⟨l, (Function.update_of_ne hne _ _).trans hl, rfl⟩
  | start u fd co ok =>
      have hs' : s.start u fd co ok = .ok s' := hs
      unfold TcpSys.start at hs'
      simp only [ha.1] at hs'
      rcases (bind_eq_ok_iff _ _ _).mp hs' with ⟨io, hio, hs'⟩
      injection hs' with hs'
      rw [← hs']
      exact hmap (told_wake hio t)
  | poll u events =>
      injection hs with hs
      rw [← hs]
      exact ⟨l, hl, rfl⟩
  | run u i =>
      rcases hi.run_did ha hs with ⟨_, _, hd⟩ | ⟨r, _, _, hio⟩
      · exact hmap (did_wake hd t)
      · rw [hio]
        exact ⟨l, hl, rfl⟩
  | drop u d =>
      rcases Option.isSome_iff_exists.mp ha.1 with ⟨kd, hkd⟩
      exact hmap (did_wake (hi.drop_freed hkd hs).2 t)

/-! ### Steps -/

/-- A report stays what it is. -/
theorem pending_step (hi : s.Inv) (ha : s.Supplied a) (hs : s.step a = .ok s')
    (hne : a.calls t = true → ∀ y rest, s.turn t = .idle → s.batch t = y :: rest → y.fd ≠ x.fd)
    (h : s.Pending t x) : s'.Pending t x := by
  refine ⟨(hi.step_opening ha hs (hi.pending_open h)).1.trans h.opening, ?_⟩
  rcases h.subject with ⟨l, hl, hfd⟩ | ⟨c, k, p, hpw, rfl, hfd, hr⟩
  · rcases hi.step_wake ha hs hl with ⟨l', hl', hfd'⟩
    exact .inl ⟨l', hl', hfd'.trans hfd⟩
  -- The coroutine waits on, whatever the call serves.
  · refine .inr ⟨c, k, p, hpw, rfl, hfd, ?_⟩
    cases hcalls : a.calls k.loop with
    | true =>
        rcases TcpOp.of_calls hcalls with ⟨i, rfl⟩
        refine resting_own hpw hr (fun y rest ht hb => ?_) ha hs
        rw [hfd]
        exact hne hcalls y rest ht hb
    | false => exact resting_other hpw hr ha hcalls hs

/-- What `epoll_wait` reports is in the table, so it is the `eventfd` or belongs
    to a coroutine, which waits. -/
theorem poll_pending (hi : s.Inv) (hw : s.Watching) {events : List (Fd × UInt32)}
    (ha : s.Supplied (.poll t events)) (hr : s.Reports (.poll t events))
    (hs : s.step (.poll t events) = .ok s') {e : Fd × UInt32} (he : e ∈ events) :
    s'.Pending t { fd := e.1, event := e.2, opening := s.io.kern.opening e.1 } := by
  have hi' := next_inv hi ha hs
  injection hs with hs
  rw [← hs] at hi' ⊢
  rcases ha with ⟨ht, _, hloop⟩
  rcases Option.isSome_iff_exists.mp hloop with ⟨l, hl⟩
  refine ⟨rfl, ?_⟩
  by_cases hwake : l.wakeFd = e.1
  · exact .inl ⟨l, hl, hwake⟩
  rcases Option.isSome_iff_exists.mp (hw.listed t e.1 (hr.2 e he)) with ⟨ev, hent⟩
  rcases hi.watched hl hent hwake with ⟨c, k, p, hk, hp, _, hkl, hkf, hpw | hpa⟩
  · refine .inr ⟨c, k, p, hpw, hkl, hkf, .at (r := .idle) hi' hk hp ?_ (fun h => by cases h)
      (fun h => by cases h)⟩
    rw [hkl]
    exact ht
  -- Nobody executes on a thread that is in `epoll_wait`.
  · exfalso
    rw [hi.none_inside (t := t) (fun d h => by rw [ht] at h; cases h) hk hp hkl] at hpa
    cases hpa

theorem step_current (hi : s.Inv) (hw : s.Watching) (hc : s.Current) (ha : s.Supplied a)
    (hr : s.Reports a) (hs : s.step a = .ok s') : s'.Current := by
  intro t
  cases hcalls : a.calls t with
  | true =>
      rcases TcpOp.of_calls hcalls with ⟨i, rfl⟩
      have hnodup := (hc t).1
      rcases (run_batch hs).2 with ⟨_, y, hy⟩ | ⟨ht, hy⟩
      -- The reports are about different descriptors, so the others stay.
      · rw [hy, List.map_cons, List.nodup_cons] at hnodup
        refine ⟨hnodup.2, fun x hx => pending_step hi ha hs (fun _ z rest _ hz hfd => ?_) ?_⟩
        · rw [hy] at hz
          injection hz with hz _
          refine hnodup.1 ?_
          rw [hz, hfd]
          exact List.mem_map_of_mem hx
        · refine (hc t).2 x ?_
          rw [hy]
          exact List.mem_cons_of_mem y hx
      · rw [hy]
        exact ⟨hnodup, fun x hx => pending_step hi ha hs (fun _ _ _ hidle => absurd hidle ht)
          ((hc t).2 x hx)⟩
  | false =>
      rcases (step_elsewhere ha hcalls hs).2 with hb | ⟨events, rfl⟩
      · rw [hb]
        refine ⟨(hc t).1, fun x hx => pending_step hi ha hs (fun h => ?_) ((hc t).2 x hx)⟩
        rw [hcalls] at h
        cases h
      · have hbatch : s'.batch t = events.map (fun e =>
            { fd := e.1, event := e.2, opening := s.io.kern.opening e.1 }) := by
          injection hs with hs
          rw [← hs]
          exact Function.update_self _ _ _
        rw [hbatch]
        refine ⟨?_, fun x hx => ?_⟩
        · rw [List.map_map]
          exact hr.1
        · rcases List.mem_map.mp hx with ⟨e, he, rfl⟩
          exact poll_pending hi hw ha hr hs he

/-- While a report is being dealt with, the opening stays what it is. -/
theorem heard_opening {c : McoRef} {k : Corun} {p : Pos} {bs : List TcpOp} (hpw : p.waits = true)
    (hfd : x.fd = k.fd) (hm : x.event &&& ~~~kWriteEvent ≠ 0) (hr : Reported c k p x s)
    (h : Runs step (fun u a => u.Supplied a ∧ a.succeeds = true) s bs s') {n : Nat}
    (hn : n ≤ lastStage p) (hcount : bs.countP (TcpOp.calls k.loop) = n + 1) :
    Stage c k p n s' ∧ s'.io.kern.opening k.fd = s.io.kern.opening k.fd := by
  have hkeep : ∀ {n u a u'}, Heard c k p x n u → u.Supplied a → u.step a = .ok u' →
      u.io.kern.opening k.fd = s.io.kern.opening k.fd →
      u'.io.kern.opening k.fd = s.io.kern.opening k.fd := by
    intro n u a u' hu ha hs heq
    rcases hu.bound with ⟨hi, hk⟩
    exact (hi.step_opening ha hs (hi.bound_open hk)).1.trans heq
  have hrun := Interleave.stages
    (P := fun n u => Heard c k p x n u ∧ u.io.kern.opening k.fd = s.io.kern.opening k.fd)
    (q := TcpOp.calls k.loop) (m := lastStage p + 1)
    (fun _ _ _ _ hn h ha hcalls hs =>
      ⟨heard_own hpw hfd hm hn h.1 ha.1 hcalls hs, hkeep h.1 ha.1 hs h.2⟩)
    (fun _ _ _ _ h ha hcalls hs =>
      ⟨heard_other hpw h.1 ha.1 ha.2 hcalls hs, hkeep h.1 ha.1 hs h.2⟩) h (n := 0)
    ⟨⟨fun _ => hr, fun m hm => by omega⟩, rfl⟩ (by omega)
  exact ⟨hrun.1.2 n (by omega), hrun.2⟩

end Reports

end TcpSys

end Fasco
