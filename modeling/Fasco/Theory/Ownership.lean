import Fasco.Core.Heap
import Fasco.Theory.Ready

/-!
# What `McoFree` Releases

Each `new` that the operations on coroutines make puts an address in a
pointer that was null, and `StoreUsedCommonStack` deletes the copy of a stack
before it makes another. So every allocated address has one owner, and which
pointers are assigned can be read off the program state: `coctx` with the
coroutine, `ctx` and `stack` once it has been started, the block if it is
private, the copy if the stack has been copied out. The destructors delete
each once, and the common blocks belong to the managers.

One pointer is deleted that is not always assigned. `McoContext` has no
constructor, the other two records have one that sets their pointers to null,
and `~McoContext` deletes `ctx`. Before `InitMcoContext` that pointer is
whatever was in memory: a coroutine that is freed before it is resumed for
the first time makes the program delete it.

## Main definitions

* `Assigned`, `Tallies`: The pointers that are assigned.
* `Effect`: What the calls of `new` and `delete` in an operation do.
* `Heap.FreeSafe`: `McoFree` releases what it should.
* `Heap.Accounted`: The invariant.

## Theorems

* `step_effect`: Every operation assigns what it should.
* `Heap.accounted_step`: The invariant is kept.
* `Heap.free_safe_iff`: `McoFree` is safe when the coroutine has been started.
* `Heap.free_unassigned`: It is not before that.
-/

namespace Fasco

open World Owned

namespace World

/-- Of the stack of a coroutine: where it is, whether that is its own block,
    and whether there is a copy. -/
def saved (w : World) (c : McoRef) : Option (Nat × Bool × Bool) :=
  (w.stack c).map (fun s => (s.stack, s.isPrivate, s.stackTmp.isSome))

end World

/-- What the pointers of `c` hold. -/
def pockets (l : Ledger Place Nat) (c : McoRef) : Pocket → Option Nat := fun k => l.own (.of c k)

/-- Of the pointers `g` of a coroutine `c`, those are assigned that should be:
    `x` says whether the coroutine is there and has a context, and `s` what
    stack it has. -/
structure Assigned (g : Pocket → Option Nat) (c : McoRef) (x : Option Bool)
    (s : Option (Nat × Bool × Bool)) : Prop where
  self : g .self = x.map (fun _ => c)
  coctx : (g .coctx).isSome = x.isSome
  ctx : (g .ctx).isSome = x.getD false
  stack : (g .stack).isSome = s.isSome
  stackTmp : (g .stackTmp).isSome = s.any (fun s => s.2.2)
  block : g .block = s.bind (fun s => if s.2.1 then some s.1 else none)

/-- The pointers are assigned that the state of the program says. -/
structure Tallies (l : Ledger Place Nat) (w : World) : Prop where
  assigned : ∀ c, Assigned (pockets l c) c (w.ctxs c) (w.saved c)
  common : ∀ t, l.own (.common t) = some (w.mgr t).commonStack

section Calls

variable {l : Ledger Place Nat} {c : McoRef} {x : Option Bool} {s : Option (Nat × Bool × Bool)}

-- A call changes one pointer of its coroutine.
theorem pockets_new (l : Ledger Place Nat) (c : McoRef) (k : Pocket) (a : Nat) :
    pockets (l.apply (.new (.of c k) a)) c = Function.update (pockets l c) k (some a) := by
  funext j
  simp only [pockets, Ledger.own_new, Function.update_apply, Place.of.injEq, true_and]

/-- A `delete` clears one. -/
theorem pockets_delete (l : Ledger Place Nat) (c : McoRef) (k : Pocket) :
    pockets (l.apply (.delete (.of c k))) c = Function.update (pockets l c) k none := by
  funext j
  simp only [pockets, Ledger.own_delete, Function.update_apply, Place.of.injEq, true_and]

-- A pointer that is not assigned is none.
theorem eq_none_of_isSome {o : Option Nat} (h : o.isSome = false) : o = none := by
  rw [← Option.not_isSome_iff_eq_none, h]
  decide

/-- `McoCreate` assigns the coroutine itself and its `coctx`. -/
theorem Assigned.create {a : Nat} (h : Assigned (pockets l c) c none none) :
    l.Tidy (createCalls c a) ∧
      Assigned (pockets (l.run (createCalls c a)) c) c (some false) none := by
  refine ⟨⟨h.self, ?_, trivial⟩, ?_⟩
  · change pockets (l.apply _) c .coctx = none
    rw [pockets_new]
    exact eq_none_of_isSome h.coctx
  · simp only [createCalls, Ledger.run_cons, Ledger.run_nil, pockets_new]
    exact ⟨rfl, rfl, h.ctx, h.stack, h.stackTmp, h.block⟩

/-- `InitMcoContext` assigns the context, the stack and, if there is one, the block. -/
theorem Assigned.init {a : Nat} (h : Assigned (pockets l c) c (some false) none) (p : Bool)
    (ctx stack blk : Nat) (ha : p = true → blk = a) :
    l.Tidy (initCalls c p ctx stack blk) ∧
      Assigned (pockets (l.run (initCalls c p ctx stack blk)) c) c (some true)
        (some (a, p, false)) := by
  have hstack : ∀ b, (l.apply (.new (.of c .ctx) b)).own (.of c .stack) = none := by
    intro b
    change pockets (l.apply _) c .stack = none
    rw [pockets_new]
    exact eq_none_of_isSome h.stack
  cases p with
  | false =>
      refine ⟨⟨eq_none_of_isSome h.ctx, hstack ctx, trivial⟩, ?_⟩
      simp only [initCalls, Bool.false_eq_true, if_false, List.append_nil, Ledger.run_cons,
        Ledger.run_nil, pockets_new]
      exact ⟨h.self, h.coctx, rfl, rfl, h.stackTmp, h.block⟩
  | true =>
      refine ⟨⟨eq_none_of_isSome h.ctx, hstack ctx, ?_, trivial⟩, ?_⟩
      · change pockets ((l.apply _).apply _) c .block = none
        rw [pockets_new, pockets_new]
        exact h.block
      · simp only [initCalls, if_true, List.cons_append, List.nil_append, Ledger.run_cons,
          Ledger.run_nil, pockets_new]
        rw [← ha rfl]
        exact ⟨h.self, h.coctx, rfl, rfl, h.stackTmp, rfl⟩

theorem Assigned.store {a : Nat} {tmp : Bool}
    (h : Assigned (pockets l c) c x (some (a, false, tmp))) (b : Nat) :
    l.Tidy [.delete (.of c .stackTmp), .new (.of c .stackTmp) b] ∧
      Assigned (pockets (l.run [.delete (.of c .stackTmp), .new (.of c .stackTmp) b]) c) c x
        (some (a, false, true)) := by
  refine ⟨⟨?_, trivial⟩, ?_⟩
  · change pockets (l.apply _) c .stackTmp = none
    rw [pockets_delete, Function.update_self]
  · simp only [Ledger.run_cons, Ledger.run_nil, pockets_new, pockets_delete]
    exact ⟨h.self, h.coctx, h.ctx, h.stack, rfl, h.block⟩

theorem place_createCalls {k : HeapCall} {a : Nat} (h : k ∈ createCalls c a) :
    ∃ j, k.place = .of c j := by
  simp only [createCalls, List.mem_cons, List.not_mem_nil, or_false] at h
  rcases h with rfl | rfl <;> exact ⟨_, rfl⟩

theorem place_initCalls {k : HeapCall} {p : Bool} {ctx stack blk : Nat}
    (h : k ∈ initCalls c p ctx stack blk) : ∃ j, k.place = .of c j := by
  cases p <;>
    simp only [initCalls, Bool.false_eq_true, if_true, if_false, List.append_nil, List.mem_append,
      List.mem_cons, List.not_mem_nil, or_false] at h
  · rcases h with rfl | rfl <;> exact ⟨_, rfl⟩
  · rcases h with (rfl | rfl) | rfl <;> exact ⟨_, rfl⟩

theorem place_freeCalls {k : HeapCall} (h : k ∈ freeCalls c) : ∃ j, k.place = .of c j := by
  simp only [freeCalls, List.mem_cons, List.not_mem_nil, or_false] at h
  rcases h with rfl | rfl | rfl | rfl | rfl | rfl <;> exact ⟨_, rfl⟩

/-- `McoFree` clears them all, whatever they hold. -/
theorem Assigned.free : l.Tidy (freeCalls c) ∧
    Assigned (pockets (l.run (freeCalls c)) c) c none none := by
  refine ⟨trivial, ?_⟩
  simp only [freeCalls, Ledger.run_cons, Ledger.run_nil, pockets_delete]
  exact ⟨rfl, rfl, rfl, rfl, rfl, rfl⟩

end Calls

/-! ### The operations -/

/-- The calls overwrite no pointer, and lead from what is assigned in `w` to
    what is in `w'`. -/
def Effect (w : World) (cs : List HeapCall) (w' : World) : Prop :=
  ∀ l, Tallies l w → l.Tidy cs ∧ Tallies (l.run cs) w'

section Effects

variable {w w' w'' : World} {cs ds : List HeapCall} {c : McoRef}

/-- Calls follow calls. -/
theorem Effect.append (h1 : Effect w cs w') (h2 : Effect w' ds w'') : Effect w (cs ++ ds) w'' := by
  intro l hl
  rcases h1 l hl with ⟨ht1, hl1⟩
  rcases h2 _ hl1 with ⟨ht2, hl2⟩
  rw [Ledger.tidy_append, Ledger.run_append]
  exact ⟨⟨ht1, ht2⟩, hl2⟩

/-- What allocates nothing makes no call. -/
theorem Effect.quiet (hx : w'.ctxs = w.ctxs) (hs : w'.saved = w.saved)
    (hm : ∀ t, (w'.mgr t).commonStack = (w.mgr t).commonStack) : Effect w [] w' := by
  intro l hl
  refine ⟨trivial, fun c => ?_, fun t => ?_⟩
  · rw [hx, hs]
    exact hl.assigned c
  · rw [hm]
    exact hl.common t

/-- Calls about the pointers of one coroutine. -/
theorem Effect.at {c : McoRef} (hcs : ∀ k ∈ cs, ∃ j, k.place = .of c j)
    (hx : ∀ d, d ≠ c → w'.ctxs d = w.ctxs d) (hs : ∀ d, d ≠ c → w'.saved d = w.saved d)
    (hm : ∀ t, (w'.mgr t).commonStack = (w.mgr t).commonStack)
    (h : ∀ l, Assigned (pockets l c) c (w.ctxs c) (w.saved c) →
      l.Tidy cs ∧ Assigned (pockets (l.run cs) c) c (w'.ctxs c) (w'.saved c)) :
    Effect w cs w' := by
  intro l hl
  rcases h l (hl.assigned c) with ⟨ht, hc⟩
  refine ⟨ht, fun d => ?_, fun t => ?_⟩
  · by_cases hd : d = c
    · rw [hd]
      exact hc
    · have hsame : pockets (l.run cs) d = pockets l d := by
        funext j
        refine Ledger.run_of_ne (fun k hk hbad => ?_)
        rcases hcs k hk with ⟨i, hi⟩
        rw [hi] at hbad
        injection hbad with hbad
        exact hd hbad.symm
      rw [hsame, hx d hd, hs d hd]
      exact hl.assigned d
  · rw [hm, ← hl.common t]
    refine Ledger.run_of_ne (fun k hk hbad => ?_)
    rcases hcs k hk with ⟨i, hi⟩
    rw [hi] at hbad
    cases hbad

theorem setStack_saved {c : McoRef} {s s' : McoStack} (hs : w.stack c = some s)
    (h : (s'.stack, s'.isPrivate, s'.stackTmp.isSome) = (s.stack, s.isPrivate, s.stackTmp.isSome)) :
    (w.setStack c s').saved = w.saved := by
  funext d
  by_cases hd : d = c
  · rw [hd]
    simp only [World.saved, setStack, Function.update_self, Option.map_some, hs, h]
  · simp only [World.saved, setStack, Function.update_of_ne hd]

-- Of a stack the calls look at nothing but what `saved` says.
theorem storeCalls_saved (w : World) (o : McoRef) (x : News) :
    w.storeCalls o x = match w.saved o with
      | none => []
      | some s =>
        if s.2.1 then [] else [.delete (.of o .stackTmp), .new (.of o .stackTmp) x.stackTmp] := by
  unfold World.storeCalls World.saved
  cases w.stack o <;> rfl

theorem swapCalls_saved (w : World) (t : Tid) (co : McoRef) (x : News) :
    w.swapCalls t co x = match w.saved co with
      | none => []
      | some s =>
        if s.2.1 then []
        else
          match (w.mgr t).commonOccupy with
          | none => []
          | some o =>
            if o = co then []
            else
              match (w.co o).map McoRoutine.finished with
              | none => []
              | some b => if b then [] else w.storeCalls o x := by
  unfold World.swapCalls World.saved
  cases w.stack co with
  | none => rfl
  | some s =>
      cases (w.mgr t).commonOccupy with
      | none => rfl
      | some o => cases h : w.co o <;> simp only [h, Option.map_some, Option.map_none]

/-- Which calls a switch makes depends on the managers, the stacks and the
    coroutines that have ended. -/
theorem swapCalls_congr {v v' : World} (hm : v'.mgr = v.mgr) (hs : v'.saved = v.saved)
    (hf : ∀ c, (v'.co c).map McoRoutine.finished = (v.co c).map McoRoutine.finished) (t : Tid)
    (co : McoRef) (x : News) : v'.swapCalls t co x = v.swapCalls t co x := by
  simp only [swapCalls_saved, storeCalls_saved, hm, hs, hf]

theorem land_stack {t : Tid} {back : Bool} (h : w.land t back = .ok w') : w'.stack = w.stack := by
  cases back with
  | true =>
      rcases swapTail_cases h with ⟨_, rfl⟩ | ⟨c, s, r, _, _, _, ⟨_, rfl⟩ | ⟨_, _, m, _, rfl⟩⟩
      · rfl
      · rfl
      · rfl
  | false =>
      change w.enterCallback t = .ok w' at h
      cases hx : w.exec t with
      | none =>
          rw [enterCallback, hx] at h
          cases h
      | some c =>
          rcases enterCallback_ok hx h with ⟨r, _, rfl⟩
          rfl

/-- What goes on at the common block before a switch to `b`. -/
theorem occupy_effect {t : Tid} {b : McoRef} (h : w.occupy t b = .ok w') (x : News) :
    Effect w (w.swapCalls t b x) w' := by
  have hsame := (occupy_sameControl h).sameFlags
  rcases occupy_cases h with ⟨s, hs, ⟨hp, rfl⟩ | ⟨hp, rfl, hidle⟩ |
    ⟨hp, o, r, so, ho, hob, hr, hfin, hso, rfl⟩⟩
  · have hcalls : w'.swapCalls t b x = [] := by
      simp only [World.swapCalls, hs, hp, if_true]
    rw [hcalls]
    exact .quiet rfl rfl (fun _ => rfl)
  · have hcalls : w.swapCalls t b x = [] := by
      simp only [World.swapCalls, hs, hp, Bool.false_eq_true, if_false]
      cases ho : (w.mgr t).commonOccupy with
      | none => rfl
      | some o =>
          by_cases hob : o = b
          · simp only [if_pos hob]
          · rcases hidle o ho hob with ⟨r, hr, hfin⟩
            simp only [if_neg hob, hr, hfin, if_true]
    rw [hcalls]
    exact .quiet rfl rfl (fun u => (hsame.block u).1)
  · have hcalls : w.swapCalls t b x = w.storeCalls o x := by
      simp only [World.swapCalls, hs, hp, ho, if_neg hob, hr, hfin, Bool.false_eq_true, if_false]
    rw [hcalls]
    cases hop : so.isPrivate with
    | true =>
        -- `StoreUsedCommonStack` returns at once.
        have hstore : w.storeCalls o x = [] := by
          simp only [World.storeCalls, hso, hop, if_true]
        rw [hstore]
        refine .quiet hsame.ctxs (setStack_saved (s := so) hso ?_) (fun u => (hsame.block u).1)
        simp only [storeUsedCommonStack, hop, if_true]
    | false =>
        have hstore : w.storeCalls o x
            = [.delete (.of o .stackTmp), .new (.of o .stackTmp) x.stackTmp] := by
          simp only [World.storeCalls, hso, hop, Bool.false_eq_true, if_false]
        rw [hstore]
        refine .at (c := o) ?_ (fun d _ => congrFun hsame.ctxs d) (fun d hd => ?_)
          (fun u => (hsame.block u).1) (fun l hl => ?_)
        · intro k hk
          rcases List.mem_cons.mp hk with rfl | hk
          · exact ⟨_, rfl⟩
          · rw [List.mem_singleton.mp hk]
            exact ⟨_, rfl⟩
        · simp only [World.saved, setStack, Function.update_of_ne hd]
          rfl
        · have hbefore : w.saved o = some (so.stack, false, so.stackTmp.isSome) := by
            simp only [World.saved, hso, Option.map_some, hop]
          rw [hbefore] at hl
          rw [hsame.ctxs]
          simp only [World.saved, setStack, Function.update_self, Option.map_some,
            storeUsedCommonStack, hop, Bool.false_eq_true, if_false, Option.isSome_some]
          exact hl.store x.stackTmp

/-- `McoSwap` allocates the copy of the occupant's stack. -/
theorem swap_effect {t : Tid} {a b : McoRef} {sp : Nat} (h : w.mcoSwap t a b sp = .ok w')
    (x : News) : Effect w (w.swapCalls t b x) w' := by
  have hsame := mcoSwap_sameFlags h
  rcases mcoSwap_parts h with ⟨w1, w2, w3, back, h1, h2, h3, h4⟩
  have hswap := occupy_effect h2 x
  have hocc := (occupy_sameControl h2).sameFlags
  rcases saveSp_ok h1 with ⟨sa, hsa, rfl⟩
  have hsaved : (w.setStack a { sa with stackSp := sp }).saved = w.saved := setStack_saved hsa rfl
  have hcalls : (w.setStack a { sa with stackSp := sp }).swapCalls t b x = w.swapCalls t b x := by
    apply swapCalls_congr
    · rfl
    · exact hsaved
    · exact fun _ => rfl
  rw [hcalls] at hswap
  have hfirst : Effect w [] (w.setStack a { sa with stackSp := sp }) :=
    .quiet rfl hsaved (fun _ => rfl)
  have hlast : Effect w2 [] w' := by
    refine .quiet (hsame.ctxs.trans hocc.ctxs.symm) ?_
      (fun u => (hsame.block u).1.trans (hocc.block u).1.symm)
    rcases mcontextSwap_outcome h3 with ⟨rs, rc, m, _, _, _, _, ⟨c, _, _, rfl⟩ | ⟨y, _, _, rfl⟩⟩ <;>
      (funext d; rw [World.saved, World.saved, land_stack h4]; rfl)
  have := (hfirst.append hswap).append hlast
  rwa [List.nil_append, List.append_nil] at this

-- The flags `running`, `in_callstack` and `sink` are set before the switch.
theorem setRunning_effect {v : World} {s a : McoRef} {b : Bool} {t : Tid} {sp : Nat}
    (hv : w.setRunning s b = .ok v) (h : v.mcoSwap t a c sp = .ok w') (x : News) :
    Effect w (w.swapCalls t c x) w' := by
  rcases setRunning_ok hv with ⟨r, hr, rfl⟩
  have hsame : Effect w [] (w.setCo s { r with running := b }) :=
    .quiet (setCo_ctxs_same hr rfl) rfl (fun _ => rfl)
  have hcalls : (w.setCo s { r with running := b }).swapCalls t c x = w.swapCalls t c x := by
    apply swapCalls_congr
    · rfl
    · rfl
    · intro d
      by_cases hd : d = s
      · rw [hd, hr]
        simp only [setCo, Function.update_self]
        rfl
      · simp only [setCo, Function.update_of_ne hd]
  have := hsame.append (swap_effect h x)
  rwa [List.nil_append, hcalls] at this

/-- A yield makes the calls of its switch. -/
theorem yield_effect {t : Tid} {co : Option McoRef} {sp : Nat} (h : w.mcoYield t co sp = .ok w')
    (x : News) : Effect w (w.yieldCalls t co x) w' := by
  rcases mcoYield_cases h with ⟨rfl, hq⟩ | ⟨c, r, s, rfl, hr, hrun, hfin, hsink, _, w1, h1, h2⟩
  · have hcalls : w'.yieldCalls t co x = [] := by
      cases co with
      | none => rfl
      | some c =>
          rcases hq c rfl with ⟨r, hr, hor⟩
          rcases hor with hrun | hfin
          · simp only [World.yieldCalls, hr, hrun, Bool.not_false, Bool.true_or, if_true]
          · simp only [World.yieldCalls, hr, hfin, Bool.or_true, if_true]
    rw [hcalls]
    exact .quiet rfl rfl (fun _ => rfl)
  · have hcalls : w.yieldCalls t (some c) x = (w.setCo c r.giveUp).swapCalls t s x := by
      simp only [World.yieldCalls, hr, hrun, hfin, hsink, Bool.not_true, Bool.or_self,
        Bool.false_eq_true, if_false]
    have hgive : Effect w [] ((w.setCallstack t (w.callstack t).pop).setCo c r.giveUp) :=
      .quiet (setCo_ctxs_same (w := w.setCallstack t (w.callstack t).pop) hr
        (by rw [r.giveUp_coctx])) rfl (fun _ => rfl)
    have := hgive.append (setRunning_effect h1 h2 x)
    rw [hcalls]
    exact this

/-- The pushing branch of `McoResume`, of a coroutine that has a context. -/
theorem push_effect {t : Tid} {c : McoRef} {r r0 : McoRoutine} {sp : Nat} (hr : w.co c = some r0)
    (hctx : r.coctx.ctx.isSome = r0.coctx.ctx.isSome) (hfin : r.finished = r0.finished)
    (h : w.pushCallstack t c r sp = .ok w') (x : News) :
    Effect w (w.swapCalls t c x) w' := by
  unfold pushCallstack at h
  simp only [] at h
  cases hs : ((w.callstack t).push c).fromTop 2 with
  | none =>
      rw [hs] at h
      cases h
  | some s =>
      rw [hs] at h
      rcases (Fallible.bind_eq_ok_iff _ _ _).mp h with ⟨w1, h1, h2⟩
      have htake : Effect w [] ((w.setCallstack t ((w.callstack t).push c)).setCo c
          (r.takeOver (some s))) :=
        .quiet (setCo_ctxs_same (w := w.setCallstack t ((w.callstack t).push c)) hr hctx) rfl
          (fun _ => rfl)
      have hcalls : ((w.setCallstack t ((w.callstack t).push c)).setCo c
          (r.takeOver (some s))).swapCalls t c x = w.swapCalls t c x := by
        apply swapCalls_congr
        · rfl
        · rfl
        · intro d
          by_cases hd : d = c
          · rw [hd, hr]
            simp only [setCo, Function.update_self]
            exact congrArg some hfin
          · simp only [setCo, setCallstack, Function.update_of_ne hd]
      have := htake.append (setRunning_effect h1 h2 x)
      rwa [List.nil_append, hcalls] at this

end Effects


section Steps

variable {w w' : World} {t : Tid} {c : McoRef} {r : McoRoutine}

theorem Ready.saved_none (h : Ready w c) (hx : w.ctxs c ≠ some true) : w.saved c = none := by
  have hs : ¬ (w.shape c).isSome = true := fun hs => hx (h.stacked.mp hs)
  cases hst : w.stack c with
  | none => rw [World.saved, hst, Option.map_none]
  | some s =>
      rw [World.shape, hst] at hs
      exact absurd rfl hs

/-- `McoCreate`. -/
theorem created_effect (h : Ready w c) (hfresh : w.co c = none) (p : Bool) (x : News) :
    Effect w (createCalls c x.coctx) (w.mcoCreate c p) := by
  have hx : w.ctxs c = none := by rw [World.ctxs, hfresh, Option.map_none]
  have hs := h.saved_none (by rw [hx]; decide)
  refine .at (c := c) (fun k => place_createCalls) (fun d hd => ?_) (fun d hd => ?_) (fun _ => rfl)
    (fun l hl => ?_)
  · simp only [World.ctxs, mcoCreate, Function.update_of_ne hd]
  · simp only [World.saved, mcoCreate, Function.update_of_ne hd]
  · rw [hx, hs] at hl
    simp only [World.ctxs, World.saved, mcoCreate, Function.update_self, Option.map_some,
      Option.map_none, Option.isSome_none]
    exact hl.create

/-- `InitMcoContext`. -/
theorem init_effect (h : Ready w c) (hx : w.ctxs c = some false) (ctx stack blk : Nat) :
    Effect w (initCalls c r.usePrivate ctx stack blk) (w.initMcoContext t c r blk).2 := by
  have hs := h.saved_none (by rw [hx]; decide)
  refine .at (c := c) (fun k => place_initCalls) (fun d hd => ?_) (fun d hd => ?_) (fun _ => rfl)
    (fun l hl => ?_)
  · simp only [World.ctxs, initMcoContext, setCo, setStack, Function.update_of_ne hd]
  · simp only [World.saved, initMcoContext, setCo, setStack, Function.update_of_ne hd]
  · rw [hx, hs] at hl
    have hx' : (w.initMcoContext t c r blk).2.ctxs c = some true := by
      simp only [World.ctxs, initMcoContext, setCo, Function.update_self, Option.map_some,
        Option.isSome_some]
    have hs' : (w.initMcoContext t c r blk).2.saved c
        = some (if r.usePrivate then blk else (w.mgr t).commonStack, r.usePrivate, false) := by
      cases hp : r.usePrivate <;>
        simp [World.saved, initMcoContext, setCo, setStack, hp,
          McoStackManager.createPrivateMcoStack, McoStackManager.createCommonMcoStack]
    rw [hx', hs']
    exact hl.init r.usePrivate ctx stack blk (fun hp => by rw [if_pos hp])

/-- The destructors. -/
theorem freed_effect {u : Tid} {co : Option McoRef} (h : w.mcoFree u co = .ok w') (x : News) :
    Effect w (w.calls x (.free u co)) w' := by
  rcases mcoFree_cases h with ⟨rfl, rfl⟩ | ⟨c, r, rfl, hr, hrun, rfl⟩ | ⟨c, r, rfl, hr, hrun, rfl⟩
  · exact .quiet rfl rfl (fun _ => rfl)
  · have hcalls : w.calls x (.free u (some c)) = [] := by
      simp only [World.calls, hr, hrun, if_true]
    rw [hcalls]
    exact .quiet (setCo_ctxs_same hr rfl) rfl (fun _ => rfl)
  · have hcalls : w.calls x (.free u (some c)) = freeCalls c := by
      simp only [World.calls, hr, hrun, Bool.false_eq_true, if_false]
    rw [hcalls]
    refine .at (c := c) (fun k => place_freeCalls) (fun d hd => ?_) (fun d hd => ?_) (fun v => ?_)
      (fun l _ => ?_)
    · rw [ctxs_ctl, mcoFree_ctl, Function.update_of_ne hd, ← ctxs_ctl]
    · simp only [World.saved, Function.update_of_ne hd]
    · by_cases ho : (w.mgr u).commonOccupy = some c
      · simp only [if_pos ho]
        exact ((setCommonOccupy_sameControl w u none).block v).1
      · simp only [if_neg ho]
    · rw [ctxs_ctl, mcoFree_ctl, Function.update_self]
      simp only [World.saved, Function.update_self, Option.map_none]
      exact Assigned.free

theorem main_effect {e : CallSite} (h : ∀ d, Ready w d) (hfresh : w.FreshMain t e) (x : News) :
    Effect w (w.mainCalls t e x) (w.mainMco t e).1 := by
  by_cases h0 : (w.callstack t).index = 0
  · have hcalls : w.mainCalls t e x = createCalls e.main x.mainCoctx ++
        initCalls e.main true x.mainCtx x.mainStack e.mainBlk := by
      simp only [World.mainCalls, h0, if_true]
    have hb := mainMco_booted w t e h0
    rcases hb.ctl with ⟨size, sp, hctl⟩
    have hx : w.ctxs e.main = none := by rw [World.ctxs, hfresh h0, Option.map_none]
    have hs := (h e.main).saved_none (by rw [hx]; decide)
    have hx' : (w.mainMco t e).1.ctxs e.main = some true := by
      rw [ctxs_ctl, hctl, Function.update_self]
      rfl
    have hs' : (w.mainMco t e).1.saved e.main = some (e.mainBlk, true, false) := by
      rw [mainMco_eq h0]
      simp only [World.saved, Function.update_self]
      rfl
    rw [hcalls]
    refine .at (c := e.main) (fun k hk => ?_) (fun d hd => ?_) (fun d hd => ?_)
      (fun u => by rw [hb.mgr]) (fun l hl => ?_)
    · rcases List.mem_append.mp hk with hk | hk
      · exact place_createCalls hk
      · exact place_initCalls hk
    · rw [ctxs_ctl, ctxs_ctl, hctl, Function.update_of_ne hd]
    · rw [mainMco_eq h0]
      simp only [World.saved, Function.update_of_ne hd]
    · rw [hx, hs] at hl
      rcases hl.create (a := x.mainCoctx) with ⟨ht1, hl1⟩
      rcases hl1.init true x.mainCtx x.mainStack e.mainBlk (fun _ => rfl) with ⟨ht2, hl2⟩
      rw [hx', hs', Ledger.tidy_append, Ledger.run_append]
      exact ⟨⟨ht1, ht2⟩, hl2⟩
  · have hcalls : w.mainCalls t e x = [] := by
      simp only [World.mainCalls, if_neg h0]
    rw [hcalls, mainMco_of_nonempty h0]
    exact .quiet rfl rfl (fun _ => rfl)

/-- A resume makes those of `MainMco`, of the start and of its switch. -/
theorem resume_effect {co : Option McoRef} {e : CallSite} (h : ∀ d, Ready w d)
    (hfresh : w.FreshMain t e) (hy : w.mcoResume t co e = .ok w') (x : News) :
    Effect w (w.resumeCalls t co e x) w' := by
  have hm : ∀ d, Ready (w.mainMco t e).1 d := ready_mainMco h
  rcases mcoResume_cases hy with ⟨rfl, hq⟩ | ⟨c, r, cur, rcur, rfl, hr, hrun, hfin, hcur, hrcur,
    hcase⟩
  · have hcalls : w'.resumeCalls t co e x = [] := by
      cases co with
      | none => rfl
      | some c =>
          rcases hq c rfl with ⟨r, hr, hrun | hfin⟩
          · simp only [World.resumeCalls, hr, hrun, Bool.true_or, if_true]
          · simp only [World.resumeCalls, hr, hfin, Bool.or_true, if_true]
    rw [hcalls]
    exact .quiet rfl rfl (fun _ => rfl)
  · change ((w.mainMco t e).1.callstack t).fromTop 1 = some cur at hcur
    have hrm := mainMco_co hfresh hr
    simp only [World.resumeCalls, hr, hrun, hfin, Bool.or_self, Bool.false_eq_true, if_false, hcur,
      hrcur]
    refine (main_effect h hfresh x).append ?_
    rcases hcase with ⟨hsink, hy⟩ | ⟨hsink, hst, hp⟩ | ⟨hsink, hst, hp⟩
    · rw [if_pos hsink]
      exact yield_effect hy x
    · rw [if_neg hsink, if_pos hst]
      exact push_effect hrm rfl rfl hp x
    · rw [if_neg hsink, hst, if_neg (by decide)]
      -- What has not been started has no context.
      have hx : (w.mainMco t e).1.ctxs c = some false := by
        have hno : (w.mainMco t e).1.ctxs c ≠ some true := by
          intro hbad
          rcases (hm c).begun _ (flags_of_co hrm) ((hm c).stacked.mpr hbad) with hbad | hbad
          · have hbad' : r.start = true := hbad
            rw [hst] at hbad'
            cases hbad'
          · have hbad' : r.finished = true := hbad
            rw [hfin] at hbad'
            cases hbad'
        rw [ctxs_of_co hrm] at hno ⊢
        cases hs : r.coctx.ctx.isSome with
        | false => rfl
        | true =>
            rw [hs] at hno
            exact absurd rfl hno
      have hinit : Effect (w.mainMco t e).1 (initCalls c r.usePrivate x.ctx x.stack e.blk)
          ((w.mainMco t e).1.initMcoContext t c r e.blk).2 :=
        init_effect (hm c) hx x.ctx x.stack e.blk
      have hco : ∃ r0, ((w.mainMco t e).1.started t c r e.blk).1.co c = some r0 ∧
          true = r0.coctx.ctx.isSome ∧ r.finished = r0.finished :=
        ⟨_, Function.update_self _ _ _, rfl, rfl⟩
      rcases hco with ⟨r0, hr0, hctx, hend⟩
      exact hinit.append (push_effect (r := (started _ t c r e.blk).2) hr0 hctx hend hp x)

theorem finish_effect {sp : Nat} (h : w.coroutineRun t sp = .ok w') (x : News) :
    Effect w (w.calls x (.finish t sp)) w' := by
  rcases coroutineRun_cases h with ⟨c, r, hx, hr, _, _, hy⟩
  have hcalls : w.calls x (.finish t sp)
      = (w.setCo c { r with done := true }).yieldCalls t (some c) x := by
    simp only [World.calls, hx, hr]
  have hend : Effect w [] (w.setCo c { r with done := true }) :=
    .quiet (setCo_ctxs_same hr rfl) rfl (fun _ => rfl)
  rw [hcalls]
  exact hend.append (yield_effect hy x)

/-- Every operation makes the calls it should. -/
theorem step_effect {a : Op} (h : ∀ d, Ready w d) (ha : Admissible w a)
    (hstep : w.step a = .ok w') (x : News) : Effect w (w.calls x a) w' := by
  cases a with
  | create t c p =>
      injection hstep with hstep
      rw [← hstep]
      exact created_effect (h c) ha.2 p x
  | mainMco t e =>
      injection hstep with hstep
      rw [← hstep]
      exact main_effect h ha.2 x
  | resume t co e => exact resume_effect h ha.2.2.2 hstep x
  | yield t co sp => exact yield_effect hstep x
  | finish t sp => exact finish_effect hstep x
  | free t co => exact freed_effect hstep x
  | write t y b =>
      injection hstep with hstep
      rw [← hstep]
      exact .quiet rfl rfl (fun _ => rfl)

end Steps

namespace Heap

/-- `McoFree(c)` releases pointers that have been assigned, each once, and no
    common block. -/
structure FreeSafe (h : Heap) (c : McoRef) : Prop where
  assigned : ∀ p ∈ h.releases c, ∃ a, p = some a ∧ h.ledger.live a = true
  once : (h.releases c).Nodup
  common : ∀ t, some (h.world.mgr t).commonStack ∉ h.releases c

/-- Every allocated address has one owner, and the program state says which
    pointers are assigned. -/
structure Accounted (h : Heap) : Prop where
  exact : Exact h.ledger
  tallies : Tallies h.ledger h.world
  ready : ∀ c, Ready h.world c

theorem accounted_init {h : Heap} (hi : h.Init) : Accounted h := by
  have hown : ∀ p a, h.ledger.own p = some a →
      ∃ t, p = .common t ∧ (h.world.mgr t).commonStack = a := by
    intro p a hp
    cases p with
    | of c k =>
        rw [hi.empty] at hp
        cases hp
    | common t =>
        rw [hi.common] at hp
        injection hp with hp
        exact ⟨t, rfl, hp⟩
  refine ⟨⟨fun a => ?_, fun p q a hp hq => ?_⟩, ⟨fun c => ?_, hi.common⟩, ready_init hi.world⟩
  · rw [hi.live]
    constructor
    · rintro ⟨t, rfl⟩
      exact ⟨.common t, hi.common t⟩
    · rintro ⟨p, hp⟩
      rcases hown p a hp with ⟨t, _, ht⟩
      exact ⟨t, ht⟩
  · rcases hown p a hp with ⟨t, rfl, ht⟩
    rcases hown q a hq with ⟨u, rfl, hu⟩
    by_cases htu : t = u
    · rw [htu]
    · -- Blocks that start at one address overlap.
      have hsize := hi.world.sized
      have h1 := hsize t
      have h2 := hsize u
      rcases hi.world.blocks t u htu with hlt | hlt <;> omega
  · have hx : h.world.ctxs c = none := by rw [World.ctxs, hi.world.co c, Option.map_none]
    have hs : h.world.saved c = none := by rw [World.saved, hi.world.stack c, Option.map_none]
    rw [hx, hs]
    have hk : ∀ k, pockets h.ledger c k = none := fun k => hi.empty c k
    refine ⟨hk _, ?_, ?_, ?_, ?_, hk _⟩ <;> rw [hk] <;> rfl

theorem step_ok {h h' : Heap} {a : HeapOp} (hstep : h.step a = .ok h') :
    ∃ w, h.world.step a.op = .ok w ∧
      h' = { world := w, ledger := h.ledger.run (h.world.calls a.news a.op) } := by
  unfold step at hstep
  by_cases hd : h.Deletable (h.deleted a.op)
  · rw [if_pos hd] at hstep
    rcases (Fallible.bind_eq_ok_iff _ _ _).mp hstep with ⟨w, hw, h2⟩
    injection h2 with h2
    exact ⟨w, hw, h2.symm⟩
  · rw [if_neg hd] at hstep
    cases hstep

/-- Every operation keeps the account. -/
theorem accounted_step {h h' : Heap} {a : HeapOp} (hs : Accounted h) (ha : h.Supplied a)
    (hstep : h.step a = .ok h') : Accounted h' := by
  rcases step_ok hstep with ⟨w, hw, rfl⟩
  rcases step_effect hs.ready ha.1 hw a.news _ hs.tallies with ⟨htidy, htallies⟩
  exact ⟨hs.exact.run ha.2 htidy, htallies, ready_step hs.ready ha.1 hw⟩

section Releases

variable {h : Heap} {c : McoRef} {r : McoRoutine}

/-- Of a coroutine that has been started, `McoFree` deletes what its pointers
    hold. -/
theorem releases_of_stacked (hs : Accounted h) (hr : h.world.co c = some r)
    (hrun : r.running = false) (hstacked : (h.world.shape c).isSome = true) :
    h.releases c = (((freeCalls c).map Call.place).filter
      (fun p => (h.ledger.own p).isSome)).map h.ledger.own := by
  have hx := (hs.ready c).stacked.mp hstacked
  have ha := hs.tallies.assigned c
  cases hst : h.world.stack c with
  | none =>
      rw [shape, hst] at hstacked
      cases hstacked
  | some s =>
      have hsaved : h.world.saved c = some (s.stack, s.isPrivate, s.stackTmp.isSome) := by
        rw [World.saved, hst, Option.map_some]
      rw [hx, hsaved] at ha
      have hself : h.ledger.own (.of c .self) = some c := ha.self
      have hcoctx : (h.ledger.own (.of c .coctx)).isSome = true := ha.coctx
      have hctx : (h.ledger.own (.of c .ctx)).isSome = true := ha.ctx
      have hstack : (h.ledger.own (.of c .stack)).isSome = true := ha.stack
      have hblock : h.ledger.own (.of c .block) = if s.isPrivate then some s.stack else none :=
        ha.block
      simp only [releases, hr, hrun, hst, freeCalls, Bool.false_eq_true, if_false]
      cases hp : s.isPrivate <;> cases ht : (h.ledger.own (.of c .stackTmp)).isSome <;>
        simp [Call.place, hself, hcoctx, hctx, hstack, hblock, hp, ht]

/-- A coroutine that waits and has a stack is freed safely. -/
theorem freeSafe_of_stacked (hs : Accounted h) (hr : h.world.co c = some r)
    (hrun : r.running = false) (hstacked : (h.world.shape c).isSome = true) : h.FreeSafe c := by
  have heq := releases_of_stacked hs hr hrun hstacked
  have hmem : ∀ p ∈ h.releases c, ∃ k a, h.ledger.own (.of c k) = some a ∧ p = some a := by
    intro p hp
    rw [heq] at hp
    rcases List.mem_map.mp hp with ⟨q, hq, rfl⟩
    rcases List.mem_filter.mp hq with ⟨hq, hsome⟩
    rcases List.mem_map.mp hq with ⟨k, hk, rfl⟩
    rcases place_freeCalls hk with ⟨j, hj⟩
    rcases Option.isSome_iff_exists.mp hsome with ⟨a, ha⟩
    rw [hj] at ha ⊢
    exact ⟨j, a, ha, ha⟩
  refine ⟨fun p hp => ?_, ?_, fun t ht => ?_⟩
  · rcases hmem p hp with ⟨k, a, ha, rfl⟩
    exact ⟨a, rfl, (hs.exact.live a).mpr ⟨_, ha⟩⟩
  · rw [heq]
    refine hs.exact.distinct (List.Nodup.filter _ ?_) (fun p hp => (List.mem_filter.mp hp).2)
    simp [freeCalls, Call.place]
  · -- The block has an owner already.
    rcases hmem _ ht with ⟨k, a, ha, hta⟩
    injection hta with hta
    have hbad := hs.exact.inj _ _ a ha ((hs.tallies.common t).trans (congrArg some hta))
    cases hbad

/-- Of a coroutine that has not been started, `McoFree` deletes `ctx` all the
    same. -/
theorem unassigned_mem (hs : Accounted h) (hr : h.world.co c = some r) (hrun : r.running = false)
    (hx : h.world.ctxs c ≠ some true) : none ∈ h.releases c := by
  have hctx : h.ledger.own (.of c .ctx) = none := by
    refine eq_none_of_isSome ((hs.tallies.assigned c).ctx.trans ?_)
    cases hc : h.world.ctxs c with
    | none => rfl
    | some b =>
        cases b with
        | false => rfl
        | true => exact absurd hc hx
  simp only [releases, hr, hrun, Bool.false_eq_true, if_false]
  rw [← hctx]
  exact List.mem_append_right _ List.mem_cons_self

end Releases

/-- In every state of every run, `McoFree` of a coroutine that does not run
    releases what it should exactly if the coroutine has been started. -/
theorem free_safe_iff {h₀ h : Heap} {as : List HeapOp} {c : McoRef} {r : McoRoutine}
    (hinit : h₀.Init) (hrun : Fallible.Runs Heap.step Heap.Supplied h₀ as h)
    (hr : h.world.co c = some r) (hnot : r.running = false) :
    h.FreeSafe c ↔ r.start = true ∨ r.finished = true := by
  have hs : Accounted h :=
    hrun.invariant (fun _ _ _ hs ha hstep => accounted_step hs ha hstep) (accounted_init hinit)
  constructor
  · intro hfree
    by_cases hx : h.world.ctxs c = some true
    · exact (hs.ready c).begun (bare r) (flags_of_co hr) ((hs.ready c).stacked.mpr hx)
    · rcases hfree.assigned none (unassigned_mem hs hr hnot hx) with ⟨a, ha, _⟩
      cases ha
  · intro hbegun
    have hstacked := (hs.ready c).used (bare r) (flags_of_co hr) (Or.inl hbegun)
    exact freeSafe_of_stacked hs hr hnot hstacked

/-- Addresses `n` to `n + 6`. -/
def newsAt (n : Nat) : News :=
  { coctx := n, ctx := n + 1, stack := n + 2, stackTmp := n + 3, mainCoctx := n + 4,
    mainCtx := n + 5, mainStack := n + 6 }

/-- A coroutine that was suspended, and copied out for another one. -/
theorem free_safe_iff_suspended :
    let e : CallSite := { sp := 0x10fe0, main := 1, mainBlk := 0x7000, blk := 0 }
    let h := Fallible.after Heap.step Heap.blank [⟨.create 0 10 false, newsAt 101⟩,
      ⟨.resume 0 (some 10) e, newsAt 111⟩, ⟨.yield 0 (some 10) 0x10fe0, newsAt 121⟩,
      ⟨.create 0 11 false, newsAt 131⟩, ⟨.resume 0 (some 11) e, newsAt 141⟩]
    ∃ r, h.world.co 10 = some r ∧ (h.FreeSafe 10 ↔ r.start = true ∨ r.finished = true) :=
  ⟨_, rfl, free_safe_iff blank_init (Fallible.Checks.runs (by decide)) rfl rfl⟩

/-- A coroutine that is freed before it is resumed: its `ctx` is deleted, and
    has not been assigned. -/
theorem free_unassigned :
    let h := Fallible.after Heap.step Heap.blank [⟨.create 0 10 false, newsAt 101⟩]
    Fallible.Checks Heap.step Heap.Supplied Heap.blank [⟨.create 0 10 false, newsAt 101⟩] ∧
      (∃ r, h.world.co 10 = some r ∧ r.running = false) ∧ (∀ t i, ¬ h.world.InSlot t i 10) ∧
      h.Supplied ⟨.free 0 (some 10), newsAt 111⟩ ∧
      h.releases 10 = [none, some 101, some 10] ∧
      h.step ⟨.free 0 (some 10), newsAt 111⟩ = .error .badPointer ∧ ¬ h.FreeSafe 10 := by
  refine ⟨by decide, ⟨_, rfl, rfl⟩, fun t i hbad => Nat.not_lt_zero i hbad.1, by decide, rfl, rfl,
    fun hfree => ?_⟩
  rcases hfree.assigned none List.mem_cons_self with ⟨a, ha, _⟩
  cases ha

end Heap

end Fasco
