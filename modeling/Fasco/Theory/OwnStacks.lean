import Fasco.Theory.Apart
import Fasco.Theory.PlainStack

/-!
# Every Coroutine Has a Stack of Its Own

What the block that the coroutines of a thread share is for. The reference is a
machine in which nothing is shared: beside the plain stack of coroutines it has,
for each of them, the bytes that the coroutine has stored and not given up.
Storing changes the bytes of the coroutine that runs; a coroutine that gives up
control keeps what lies from its stack pointer on; and the end of a callback, or
of the object, takes the rest. There is no block, no occupant and no copy in it.

`own_bytes` says that the program implements this machine, on any number of
threads at once and in any order of their steps. Whatever the reference says a
coroutine has at an address, the coroutine finds there in memory when it runs.

## Main definitions

* `Own`, `Own.next`: The reference machine.
* `Has`: A byte that belongs to a coroutine, in the block or saved.
* `Stores`: How the program's state represents the reference's.

## Theorems

* `stays_on`: An operation during which a coroutine goes on running.
* `gives_up`: An operation in which it gives up control.
* `stores_step`: One operation follows the reference machine.
* `own_bytes`: The refinement over interleaved runs.
-/

namespace Fasco

open World

/-- The stack pointer with which the code that performs the operation is left,
    if it gives up control. -/
def Op.sp : Op → Option Nat
  | .resume _ _ e => some e.sp
  | .yield _ _ sp => some sp
  | _ => none

/-- The reference: a plain stack, and the bytes that each coroutine has. -/
structure Own where
  plain : Plain
  bytes : McoRef → Nat → Option UInt8

namespace Own

def empty : Own := { plain := .empty, bytes := fun _ _ => none }

/-- A coroutine that gives up control keeps what lies from its stack pointer
    on, and one that ends nothing. -/
def kept (o : Own) (a : Op) (c : McoRef) (x : Nat) : Option UInt8 :=
  if o.plain.list.head? = some c ∧ (o.plain.next a).list.head? ≠ some c then
    match a.sp with
    | some sp => if sp ≤ x then o.bytes c x else none
    | none => none
  else o.bytes c x

def next (o : Own) (a : Op) : Own where
  plain := o.plain.next a
  bytes := fun c x =>
    match a with
    | .write _ y b => if o.plain.list.head? = some c ∧ x = y then some b else o.bytes c x
    | .free _ co => if co = some c then none else o.bytes c x
    | a => o.kept a c x

end Own

/-- The byte at `x` belongs to `c`, in the block or in the copy. -/
def Has (w : World) (t : Tid) (c : McoRef) (x : Nat) (b : UInt8) : Prop :=
  ∃ lo hi l, (w.block t).content c = some (lo, hi, l) ∧ lo ≤ x ∧ x < hi ∧ l[x - lo]? = some b

/-- The stack of `c` is the common block. -/
def World.Common (w : World) (c : McoRef) : Prop :=
  ∃ s, w.stack c = some s ∧ s.isPrivate = false

/-- The state on thread `t` represents the reference's: the coroutine that runs
    finds its bytes in memory, and the others' are kept for them. -/
structure Stores (w : World) (t : Tid) (lo size : Nat) (o : Own) : Prop where
  follows : ∃ f, Follows w f t o.plain
  regions : Regions t lo size w
  running : ∀ c x b, w.exec t = some c → o.bytes c x = some b →
    w.mem x = b ∧ w.InBlock t x ∧ w.Common c
  waiting : ∀ c x b, w.exec t ≠ some c → o.bytes c x = some b → Has w t c x b

theorem stores_init {w : World} (h : Init w) (t : Tid) :
    Stores w t (w.mgr t).commonStack (w.mgr t).commonSize .empty :=
  ⟨⟨_, follows_init h t⟩, regions_init h t, fun _ _ _ _ hb => (by cases hb),
    fun _ _ _ _ hb => (by cases hb)⟩

/-! ### What belongs to a client -/

section Clients

variable {w : World} {t : Tid} {c : McoRef} {x : Nat} {b : UInt8}

theorem has_of_read {k : Spill.Client UInt8} {mem : Nat → UInt8} (hk : w.client c = some k)
    (hmem : k.content w.mem = Spill.read mem k.lo (k.hi - k.lo)) (h1 : k.lo ≤ x) (h2 : x < k.hi)
    (hb : mem x = b) : Has w t c x b := by
  have hk' : (w.block t).client c = some k := hk
  refine ⟨k.lo, k.hi, _, Spill.Block.content_eq hk', h1, h2, ?_⟩
  change (k.content w.mem)[x - k.lo]? = some b
  rw [hmem, Spill.read, List.getElem?_map, List.getElem?_range (by omega), Option.map_some,
    show k.lo + (x - k.lo) = x by omega, hb]

theorem Has.client (h : Has w t c x b) : ∃ k, w.client c = some k ∧ k.lo ≤ x ∧ x < k.hi ∧
    (k.content w.mem)[x - k.lo]? = some b := by
  rcases h with ⟨lo, hi, l, hcont, h1, h2, hb⟩
  rcases Option.map_eq_some_iff.mp hcont with ⟨k, hk, heq⟩
  injection heq with hlo heq
  injection heq with hhi hl
  refine ⟨k, hk, by rw [hlo]; exact h1, by rw [hhi]; exact h2, ?_⟩
  have hl' : k.content w.mem = l := hl
  rw [hl', hlo]
  exact hb

/-- What a client in place has is in memory. -/
theorem Has.read (h : Has w t c x b) (hs : ∀ k, w.client c = some k → k.saved = none) :
    w.mem x = b := by
  rcases h.client with ⟨k, hk, h1, h2, hb⟩
  rw [Spill.Client.content_unsaved (hs k hk), Spill.read, List.getElem?_map,
    List.getElem?_range (by omega), Option.map_some, show k.lo + (x - k.lo) = x by omega] at hb
  injection hb

/-- What a coroutine that waits has lies in the block. -/
theorem Has.inBlock {lo size : Nat} (h : Has w t c x b) (hi : Regions t lo size w)
    (hx : w.exec t ≠ some c) : w.InBlock t x ∧ w.Common c := by
  rcases h.client with ⟨k, hk, h1, h2, _⟩
  have hlow := hi.inside c k hk hx
  rcases client_eq_some.mp hk with ⟨_, s, _, hs, _, hp, hreg⟩
  have hbp := (hi.laid.stack hs hp).2.2
  rw [← hreg] at h1 h2 hlow
  change s.stackSp ≤ x at h1
  change x < s.stackBp at h2
  change (w.mgr t).commonStack ≤ s.stackSp at hlow
  refine ⟨?_, s, hs, hp⟩
  unfold World.InBlock
  omega

theorem common_of_shape {w' : World} (hc : w.Common c) (h : w'.shape c = w.shape c) :
    w'.Common c := by
  rcases hc with ⟨s, hs, hp⟩
  have h' : w'.shape c = some (s.stack, s.size, s.stackBp, s.isPrivate) := by
    rw [h, shape, hs]
    rfl
  rcases Option.map_eq_some_iff.mp h' with ⟨s', hs', heq⟩
  refine ⟨s', hs', ?_⟩
  injection heq with _ heq
  injection heq with _ heq
  injection heq with _ heq
  rw [heq, hp]

end Clients

/-! ### A coroutine that goes on running -/

/-- What is in memory after an operation that does not switch. -/
def Op.stored (m : Nat → UInt8) : Op → Nat → UInt8
  | .write _ x b => Function.update m x b
  | _ => m

/-- As long as a coroutine goes on running, only what it stores is stored, and
    its stack stays where it is. -/
theorem stays_on {w w' : World} {f : Frames} {t : Tid} {a : Op} {c : McoRef}
    (hc : Carried w f t) (ha : OnThread t w a) (h : w.step a = .ok w')
    (hx : w.exec t = some c) (hx' : w'.exec t = some c) :
    w'.mem = a.stored w.mem ∧ w'.shape c = w.shape c := by
  have halive := hc.exec_alive hx
  rcases ha with ⟨ht, hadm, hdis⟩
  have hflat := flat_of_disciplined hc.orderly hc.alone ht hdis
  rcases hadm with ⟨hcode, hsup⟩
  have hhead : (f t).head? = some c := by rw [← hc.orderly.steady.exec t, hx]
  have hindex : (w.callstack t).index ≠ 0 := by
    intro h0
    rw [(hc.orderly.steady.empty_iff t).mp h0] at hhead
    cases hhead
  cases a with
  | create u d p =>
      injection h with h
      have hcd : c ≠ d := by
        rintro rfl
        have hnone : w.co c = none := hsup
        rw [hnone] at halive
        cases halive
      rw [← h]
      exact ⟨rfl, congrArg (Option.map _) (Function.update_of_ne hcd _ _)⟩
  | mainMco u e =>
      change u = t at ht
      rw [ht] at h
      injection h with h
      rw [← h, mainMco_of_nonempty hindex]
      exact ⟨rfl, rfl⟩
  | resume u co e =>
      change u = t at ht
      change w.InCode u at hcode
      rw [ht] at hcode hsup hflat h
      rcases hc.orderly.resume hcode hsup.2.2 hflat h with ⟨rfl, _⟩ | ⟨d, r, cur, l, _, _, _,
        _, hb, ⟨_, _, hf, _, hp, _⟩ | ⟨_, _, hp, _⟩⟩
      · exact ⟨rfl, rfl⟩
      -- Otherwise somebody else runs now.
      · exfalso
        rw [hf] at hhead
        injection hhead with hhead
        rw [hp.exec, Function.update_self] at hx'
        injection hx' with hx'
        exact hp.ne (hhead.trans hx'.symm)
      · exfalso
        rw [mainMco_of_nonempty hindex] at hp
        rw [booted_of_nonempty (fun hnil => by rw [hnil] at hhead; cases hhead)] at hb
        rw [hb] at hhead
        injection hhead with hhead
        rw [hp.exec, Function.update_self] at hx'
        injection hx' with hx'
        exact hp.ne (hhead.trans hx'.symm)
  | yield u co sp =>
      change u = t at ht
      rw [ht] at h
      rcases hc.orderly.yield h with ⟨rfl, _⟩ | ⟨d, s, l, _, hf, hp, _⟩
      · exact ⟨rfl, rfl⟩
      · exfalso
        rw [hf] at hhead
        injection hhead with hhead
        rw [hp.exec, Function.update_self] at hx'
        injection hx' with hx'
        exact hp.ne (hhead.trans hx'.symm)
  | finish u sp =>
      change u = t at ht
      rw [ht] at h
      rcases hc.orderly.finish h with ⟨d, s, l, hf, hp, _⟩
      exfalso
      rw [hf] at hhead
      injection hhead with hhead
      rw [hp.exec, Function.update_self] at hx'
      injection hx' with hx'
      exact hp.ne (hhead.trans hx'.symm)
  | free u co =>
      rcases mcoFree_cases h with ⟨_, rfl⟩ | ⟨d, r, _, _, _, rfl⟩ | ⟨d, r, _, hr, hrun, rfl⟩
      · exact ⟨rfl, rfl⟩
      · exact ⟨rfl, rfl⟩
      -- What is freed does not run.
      · have hcd : c ≠ d := by
          rintro rfl
          have hruns := hc.orderly.steady.head_runs hhead
          rw [runs_of_ctl (ctl_of_co hr)] at hruns
          injection hruns with hruns
          have hruns' : r.running = true := hruns
          rw [hrun] at hruns'
          cases hruns'
        refine ⟨?_, congrArg (Option.map _) (Function.update_of_ne hcd _ _)⟩
        by_cases ho : (w.mgr u).commonOccupy = some d
        · rw [if_pos ho]
          rfl
        · rw [if_neg ho]
          rfl
  | write u x y =>
      injection h with h
      rw [← h]
      exact ⟨rfl, rfl⟩

/-! ### A coroutine that gives up control -/

/-- The stack pointer that was stored for a coroutine last. -/
def World.spOf (w : World) (c : McoRef) : Option Nat := (w.stack c).map (fun s => s.stackSp)

theorem setStack_spOf (w : World) (c d : McoRef) (s : McoStack) :
    (w.setStack c s).spOf d = if d = c then some s.stackSp else w.spOf d := by
  unfold World.spOf setStack
  simp only [Function.update_apply]
  by_cases hd : d = c
  · rw [if_pos hd, if_pos hd]
    rfl
  · rw [if_neg hd, if_neg hd]

theorem occupy_spOf {w w' : World} {t : Tid} {co : McoRef} (h : w.occupy t co = .ok w')
    (c : McoRef) : w'.spOf c = w.spOf c := by
  rcases occupy_cases h with ⟨_, _, ⟨_, rfl⟩ | ⟨_, rfl, _⟩ | ⟨_, o, r, so, _, _, _, _, hso, rfl⟩⟩
  · rfl
  · rfl
  -- A copy is made; the record keeps its stack pointer.
  · rw [setStack_spOf]
    by_cases hco : c = o
    · rw [if_pos hco, hco, World.spOf, hso]
      unfold storeUsedCommonStack
      by_cases hp : so.isPrivate = true
      · rw [if_pos hp]
        rfl
      · rw [if_neg hp]
        rfl
    · rw [if_neg hco]
      rfl

theorem land_spOf {w w' : World} {t : Tid} {back : Bool} (h : w.land t back = .ok w')
    (c : McoRef) : w'.spOf c = w.spOf c := by
  cases back with
  | true =>
      rcases swapTail_cases h with ⟨_, rfl⟩ | ⟨_, _, _, _, _, _, ⟨_, rfl⟩ | ⟨_, _, mem, _, rfl⟩⟩
      · rfl
      · rfl
      · rfl
  | false =>
      change w.enterCallback t = .ok w' at h
      cases hx : w.exec t with
      | none =>
          unfold enterCallback at h
          rw [hx] at h
          cases h
      | some d =>
          rcases enterCallback_ok hx h with ⟨_, _, rfl⟩
          rfl

/-- The stack pointer of the caller of a switch is stored. -/
theorem mcoSwap_spOf {w w' : World} {t : Tid} {a b : McoRef} {sp : Nat}
    (h : w.mcoSwap t a b sp = .ok w') : w'.spOf a = some sp := by
  rcases mcoSwap_parts h with ⟨w1, w2, w3, back, h1, h2, h3, h4⟩
  have hsame : w3.spOf a = w2.spOf a := by
    rcases mcontextSwap_outcome h3 with ⟨_, _, _, _, _, _, _, ⟨_, _, _, rfl⟩ | ⟨_, _, _, rfl⟩⟩
    · rfl
    · rfl
  rcases saveSp_ok h1 with ⟨s, _, rfl⟩
  rw [land_spOf h4, hsame, occupy_spOf h2, setStack_spOf, if_pos rfl]

theorem client_lo {w : World} {c : McoRef} {r : McoRoutine} {sp : Nat} (hr : w.ctl c = some r)
    (hst : r.start = true) (hcm : w.Common c) (hsp : w.spOf c = some sp) :
    ∃ k, w.client c = some k ∧ k.lo = sp := by
  rcases co_of_ctl hr with ⟨r', hr', hf⟩
  rcases hcm with ⟨s, hs, hp⟩
  have hst' : r'.start = true := by
    rw [← hf] at hst
    exact hst
  refine ⟨region s r'.stackStore, ?_, ?_⟩
  · rw [client_eq hr' hs, hst', hp]
    rfl
  · unfold World.spOf at hsp
    rw [hs] at hsp
    injection hsp

/-- Whoever yields has its region from the stack pointer on. -/
theorem popped_client {w w' : World} {f : Frames} {t : Tid} {c s : McoRef} {l : List McoRef}
    {sp : Nat} (hc : Carried w f t) (hf : f t = c :: s :: l) (hp : Popped w w' t c s false)
    (h : w.mcoYield t (some c) sp = .ok w') (hcm : w.Common c) :
    ∃ k, w'.client c = some k ∧ k.lo = sp := by
  have hmem : c ∈ f t := by
    rw [hf]
    exact List.mem_cons_self
  rcases hp.ctl_from with ⟨r, r', hr, _, hr', hy⟩
  rcases hc.orderly.started t c hmem with ⟨r1, hr1, hst⟩
  rw [hr] at hr1
  injection hr1 with hr1
  rw [← hr1] at hst
  have hdone : r.done = false := by
    rw [(hc.orderly.steady.sound c r hr).done]
    exact hc.orderly.unfinished hmem hr
  refine client_lo hr' ?_ (common_of_shape hcm (congrFun hp.shape c)) ?_
  · rw [hy.start]
    simp only [McoRoutine.ending, hdone, hst, Bool.or_false, Bool.false_eq_true, if_false]
  · rcases mcoYield_cases h with ⟨rfl, _⟩ | ⟨d, r2, s2, hd, _, _, _, _, _, w1, _, hswap⟩
    -- A yield that does nothing takes nothing off.
    · exfalso
      have hx := hc.orderly.steady.exec t
      rw [hp.exec, Function.update_self, hf] at hx
      injection hx with hx
      exact hp.ne hx.symm
    · injection hd with hd
      rw [hd]
      exact mcoSwap_spOf hswap

theorem pushed_client {w w' : World} {f : Frames} {t : Tid} {cur c : McoRef} {l : List McoRef}
    {sp : Nat} (hc : Carried w f t) (hf : f t = cur :: l) (hp : Pushed w w' t cur c)
    (hsp : w'.spOf cur = some sp) (hcm : w.Common cur) :
    ∃ k, w'.client cur = some k ∧ k.lo = sp := by
  rcases hp.ctl_from with ⟨r, hr, hr'⟩
  rcases hc.orderly.started t cur (by rw [hf]; exact List.mem_cons_self) with ⟨r1, hr1, hst⟩
  rw [hr] at hr1
  injection hr1 with hr1
  rw [← hr1] at hst
  exact client_lo hr' hst (common_of_shape hcm (hp.shape cur (.inl hp.ne))) hsp

theorem pushCallstack_spOf {w w' : World} {t : Tid} {cur c : McoRef} {r : McoRoutine} {sp : Nat}
    (htop : w.top t = some cur) (h : w.pushCallstack t c r sp = .ok w') :
    w'.spOf cur = some sp := by
  have hsink : ((w.callstack t).push c).fromTop 2 = some cur := by
    rw [McoCallStack.push_fromTop_two]
    exact htop
  unfold pushCallstack at h
  simp only [hsink] at h
  rcases (Fallible.bind_eq_ok_iff _ _ _).mp h with ⟨w1, _, hswap⟩
  exact mcoSwap_spOf hswap

/-- A coroutine that gives up control and has not ended has its region from its
    stack pointer on. -/
theorem gives_up {w w' : World} {f : Frames} {t : Tid} {a : Op} {c : McoRef} {sp : Nat}
    (hc : Carried w f t) (ha : OnThread t w a) (h : w.step a = .ok w') (hx : w.exec t = some c)
    (hx' : w'.exec t ≠ some c) (hcm : w.Common c) (hsp : a.sp = some sp) :
    ∃ k, w'.client c = some k ∧ k.lo = sp := by
  rcases ha with ⟨ht, hadm, hdis⟩
  have hflat := flat_of_disciplined hc.orderly hc.alone ht hdis
  rcases hadm with ⟨hcode, hsup⟩
  have hhead : (f t).head? = some c := by rw [← hc.orderly.steady.exec t, hx]
  cases a with
  | resume u co e =>
      change u = t at ht
      change w.InCode u at hcode
      rw [ht] at hcode hsup hflat h
      injection hsp with hsp
      rw [← hsp]
      have hindex : (w.callstack t).index ≠ 0 := by
        intro h0
        rw [(hc.orderly.steady.empty_iff t).mp h0] at hhead
        cases hhead
      rcases hc.orderly.resume hcode hsup.2.2 hflat h with ⟨rfl, _⟩ | ⟨d, r, cur, l, _, _, _,
        _, hb, ⟨_, _, hf, hy, hp, _⟩ | ⟨_, hpush, hp, _⟩⟩
      · exact absurd hx hx'
      · have hcur : cur = c := by
          rw [hf] at hhead
          injection hhead
        rw [hcur] at hf hy hp
        exact popped_client hc hf hp hy hcm
      · rw [mainMco_of_nonempty hindex] at hp hpush
        rw [booted_of_nonempty (fun hnil => by rw [hnil] at hhead; cases hhead)] at hb
        have hcur : cur = c := by
          rw [hb] at hhead
          injection hhead
        rw [hcur] at hp hb
        refine pushed_client hc hb hp ?_ hcm
        rcases hpush with ⟨_, hpush⟩ | ⟨_, hpush⟩
        · exact pushCallstack_spOf (hc.top_eq hb) hpush
        · refine pushCallstack_spOf ?_ hpush
          exact hc.top_eq hb
  | yield u co sp' =>
      change u = t at ht
      rw [ht] at h
      injection hsp with hsp
      rw [← hsp]
      rcases hc.orderly.yield h with ⟨rfl, _⟩ | ⟨d, s, l, hd, hf, hp, _⟩
      · exact absurd hx hx'
      · have hdc : d = c := by
          rw [hf] at hhead
          injection hhead
        rw [hd] at h
        rw [hdc] at h hf hp
        exact popped_client hc hf hp h hcm
  | _ => cases hsp

/-! ### The refinement -/

/-- What the reference says a coroutine has after an operation it has stored in
    it, or had before, was not freed, and lies above the stack pointer if it has
    given up control. -/
theorem Own.bytes_next {o : Own} {a : Op} {c : McoRef} {x : Nat} {b : UInt8}
    (h : (o.next a).bytes c x = some b) :
    (∃ u, a = .write u x b ∧ o.plain.list.head? = some c) ∨
    o.bytes c x = some b ∧ (∀ u, a ≠ .free u (some c)) ∧
      (∀ u y, a = .write u x y → o.plain.list.head? ≠ some c) ∧
      (o.plain.list.head? = some c → (o.plain.next a).list.head? ≠ some c →
        ∃ sp, a.sp = some sp ∧ sp ≤ x) := by
  have hkept : o.kept a c x = some b → o.bytes c x = some b ∧
      (o.plain.list.head? = some c → (o.plain.next a).list.head? ≠ some c →
        ∃ sp, a.sp = some sp ∧ sp ≤ x) := by
    intro hk
    unfold Own.kept at hk
    by_cases hgone : o.plain.list.head? = some c ∧ (o.plain.next a).list.head? ≠ some c
    · rw [if_pos hgone] at hk
      cases hsp : a.sp with
      | none =>
          rw [hsp] at hk
          cases hk
      | some sp =>
          rw [hsp] at hk
          simp only [] at hk
          by_cases hle : sp ≤ x
          · rw [if_pos hle] at hk
            exact ⟨hk, fun _ _ => ⟨sp, rfl, hle⟩⟩
          · rw [if_neg hle] at hk
            cases hk
    · rw [if_neg hgone] at hk
      exact ⟨hk, fun h1 h2 => absurd ⟨h1, h2⟩ hgone⟩
  cases a with
  | write u y b' =>
      change (if o.plain.list.head? = some c ∧ x = y then some b' else o.bytes c x) = some b at h
      by_cases hxy : o.plain.list.head? = some c ∧ x = y
      · rw [if_pos hxy] at h
        injection h with h
        exact .inl ⟨u, by rw [h, hxy.2], hxy.1⟩
      · rw [if_neg hxy] at h
        refine .inr ⟨h, fun _ h => (by cases h), fun v z hz hc => hxy ⟨hc, ?_⟩,
          fun h1 h2 => absurd h1 h2⟩
        injection hz with _ hz _
        exact hz.symm
  | free u co =>
      change (if co = some c then none else o.bytes c x) = some b at h
      by_cases hco : co = some c
      · rw [if_pos hco] at h
        cases h
      · rw [if_neg hco] at h
        refine .inr ⟨h, fun v hv => hco ?_, fun _ _ h => (by cases h), fun h1 h2 => absurd h1 h2⟩
        injection hv
  | _ =>
      rcases hkept h with ⟨hb, hsp⟩
      exact .inr ⟨hb, fun _ h => (by cases h), fun _ _ h => (by cases h), hsp⟩

/-- While it waits, what a coroutine has is kept for it. -/
theorem Has.kept {w w' : World} {t : Tid} {c : McoRef} {x : Nat} {b : UInt8} (h : Has w t c x b)
    (hk : Kept w w' t) (hx : w.exec t ≠ some c) (halive : (w'.co c).isSome) :
    Has w' t c x b := by
  rcases h.client with ⟨k, hcl, _⟩
  rcases hk.stays c k hcl hx with hgone | ⟨k', hcl'⟩
  · rw [hgone] at halive
    cases halive
  · rcases hk.other c k' hcl' hx with ⟨hnone, _⟩ | heq
    · rw [hcl] at hnone
      cases hnone
    · rcases h with ⟨lo, hi, l, hcont, hrest⟩
      exact ⟨lo, hi, l, heq.trans hcont, hrest⟩

theorem stores_step {w w' : World} {t : Tid} {lo size : Nat} {o : Own} {a : Op}
    (hs : Stores w t lo size o) (ha : OnThread t w a) (h : w.step a = .ok w') :
    Stores w' t lo size (o.next a) := by
  rcases hs.follows with ⟨f, hf⟩
  have hc := hf.carried
  rcases follows_step hf ha h with ⟨f', hf'⟩
  have hk := (onThread_step ⟨f, hc⟩ ha h).2
  have hi' := (regions_step (b := w.rest w) hc hs.regions ha (fun c hcl => rest_free c hcl) h).1
  have hhead : w.exec t = o.plain.list.head? := by rw [hc.orderly.steady.exec t, hf.list]
  have hhead' : w'.exec t = (o.plain.next a).list.head? := by
    rw [hf'.carried.orderly.steady.exec t, hf'.list]
  have hblock : ∀ x, w.InBlock t x → w'.InBlock t x := by
    intro x hx
    unfold World.InBlock at hx ⊢
    rw [hi'.block.1, hi'.block.2]
    rw [hs.regions.block.1, hs.regions.block.2] at hx
    exact hx
  refine ⟨⟨f', hf'⟩, hi', fun c x b hx' hb => ?_, fun c x b hx' hb => ?_⟩
  · by_cases hx : w.exec t = some c
    -- It goes on running.
    · rcases stays_on hc ha h hx hx' with ⟨hmem, hshape⟩
      rcases Own.bytes_next hb with ⟨u, rfl, _⟩ | ⟨hold, _, hother, _⟩
      · rcases ha with ⟨rfl, ⟨_, d, s, hd, hsd, hp, h1, h2⟩, _⟩
        change w.exec u = some c at hx
        rw [hx] at hd
        injection hd with hd
        rw [← hd] at hsd
        rcases hs.regions.laid.stack hsd hp with ⟨hst, hsz, _⟩
        rw [hst] at h1 h2
        rw [hsz] at h2
        exact ⟨by rw [hmem]; exact Function.update_self _ _ _, hblock x ⟨h1, h2⟩,
          common_of_shape ⟨s, hsd, hp⟩ hshape⟩
      · rcases hs.running c x b hx hold with ⟨hold, hin, hcm⟩
        refine ⟨?_, hblock x hin, common_of_shape hcm hshape⟩
        rw [hmem, ← hold]
        cases a with
        | write u y b' =>
            refine Function.update_of_ne ?_ _ _
            rintro rfl
            exact hother u b' rfl (by rw [← hhead, hx])
        | _ => rfl
    -- It has got control back, and its bytes are in place.
    · rcases Own.bytes_next hb with ⟨_, _, hrun⟩ | ⟨hold, _⟩
      · rw [← hhead] at hrun
        exact absurd hrun hx
      · have hhas := hs.waiting c x b hx hold
        rcases hhas.inBlock hs.regions hx with ⟨hin, _⟩
        have hhas' := hhas.kept hk hx (hf'.carried.exec_alive hx')
        refine ⟨hhas'.read (fun k hcl => ?_), hblock x hin, ?_⟩
        · refine hf'.carried.settled c k (hf'.carried.holder c k ?_ hcl) hcl
          rw [← hf'.carried.orderly.steady.exec t, hx']
        · rcases hhas'.client with ⟨k, hcl, _⟩
          rcases client_eq_some.mp hcl with ⟨_, s, _, hsc, _, hp, _⟩
          exact ⟨s, hsc, hp⟩
  · by_cases hx : w.exec t = some c
    -- It has given up control.
    · rcases Own.bytes_next hb with ⟨u, rfl, hrun⟩ | ⟨hold, _, _, hgone⟩
      · exact absurd (hhead'.trans hrun) hx'
      · rcases hs.running c x b hx hold with ⟨hmem, hin, hcm⟩
        rcases hgone (by rw [← hhead, hx]) (fun h => hx' (hhead'.trans h)) with ⟨sp, hsp, hle⟩
        rcases gives_up hc ha h hx hx' hcm hsp with ⟨k, hcl, hlo⟩
        refine has_of_read hcl (hk.caller c k hcl hx hx') (by rw [hlo]; exact hle) ?_ hmem
        rcases client_eq_some.mp hcl with ⟨_, s, _, hsc, _, hp, hreg⟩
        rw [← hreg]
        change x < s.stackBp
        rw [(hi'.laid.stack hsc hp).2.2]
        exact (hblock x hin).2
    · rcases Own.bytes_next hb with ⟨_, _, hrun⟩ | ⟨hold, hfree, _⟩
      · rw [← hhead] at hrun
        exact absurd hrun hx
      · have hhas := hs.waiting c x b hx hold
        refine hhas.kept hk hx ?_
        -- Only what is freed goes.
        rcases hhas.client with ⟨k, hcl, _⟩
        rcases client_eq_some.mp hcl with ⟨r, _, hr, _⟩
        rcases co_of_mainOf (mainOf_step hc ha h (mainOf_of_co hr) hfree) with ⟨r', hr', _⟩
        rw [hr']
        rfl

/-- The reference machine's state after the operations. -/
def Own.after (as : List Op) : Own := as.foldl Own.next .empty

theorem stores_run {w w' : World} {t : Tid} {as : List Op} (hinit : Init w)
    (h : Fallible.Runs World.step (OnThread t) w as w') :
    Stores w' t (w.mgr t).commonStack (w.mgr t).commonSize (Own.after as) := by
  have hsim : ∀ v o a v', Stores v t (w.mgr t).commonStack (w.mgr t).commonSize o →
      OnThread t v a → v.step a = .ok v' →
      Stores v' t (w.mgr t).commonStack (w.mgr t).commonSize (Own.next o a) :=
    fun _ _ _ _ hs ha hstep => stores_step hs ha hstep
  exact h.simulate
    (R := fun v o => Stores v t (w.mgr t).commonStack (w.mgr t).commonSize o) hsim
    (stores_init hinit t)

/-- Threads whose own runs behave are interleaved in any order. Then on every
    thread the coroutine on top of the reference's stack runs, and it finds in
    memory every byte that the reference, in which each coroutine has a stack
    of its own, says it has. -/
theorem own_bytes {w : World} {as : List Op} (hinit : Init w)
    (h : Fallible.Along (Interleave.solo World.step Op.thread) Alone (fun _ => w) as) :
    ∃ w', Fallible.Runs World.step (fun u a => OnThread a.thread u a) w as w' ∧
      ∀ t, w'.exec t = (Own.after (Interleave.mine Op.thread t as)).plain.list.head? ∧
        ∀ c x b, w'.exec t = some c →
          (Own.after (Interleave.mine Op.thread t as)).bytes c x = some b → w'.mem x = b := by
  rcases apart_runs hinit h with ⟨w', v, hrun, hsolo, hap⟩
  refine ⟨w', hrun, fun t => ?_⟩
  have hs := stores_run hinit (hsolo t)
  have hsh := hap.shows t
  rcases hs.follows with ⟨f, hf⟩
  rw [hsh.exec]
  refine ⟨?_, fun c x b hx hb => ?_⟩
  · rw [hf.carried.orderly.steady.exec t, hf.list]
  · rcases hs.running c x b hx hb with ⟨hmem, hin, _⟩
    rw [hsh.mem x hin, hmem]

/-- Two coroutines of thread 0 store different bytes at one address and take
    turns, while a third one on thread 1 does the same at another. The first,
    resumed, has its byte above the stack pointer and no other. -/
theorem own_bytes_two :
    let e : CallSite := { sp := 0, main := 1, mainBlk := 0x7000, blk := 0 }
    let as : List Op := [.create 0 10 false, .create 0 11 false, .create 1 12 false,
      .resume 0 (some 10) e, .resume 1 (some 12) { e with main := 2, mainBlk := 0x8000 },
      .write 0 0x10ff0 7, .write 0 0x10fd0 5, .write 1 0x20ff0 3, .yield 0 (some 10) 0x10fe0,
      .resume 0 (some 11) e, .write 0 0x10ff0 9, .yield 1 (some 12) 0x20fe0,
      .yield 0 (some 11) 0x10fc0, .resume 0 (some 10) e]
    (Own.after (Interleave.mine Op.thread 0 as)).bytes 10 0x10ff0 = some 7 ∧
    (Own.after (Interleave.mine Op.thread 0 as)).bytes 10 0x10fd0 = none ∧
    ∃ w', Fallible.Runs World.step (fun u a => OnThread a.thread u a) World.blank as w' ∧
      ∀ t, w'.exec t = (Own.after (Interleave.mine Op.thread t as)).plain.list.head? ∧
        ∀ c x b, w'.exec t = some c →
          (Own.after (Interleave.mine Op.thread t as)).bytes c x = some b → w'.mem x = b :=
  ⟨by decide, by decide,
    own_bytes blank_init (along_alone (n := 2) blank_init (Fallible.Checks.along (by decide)))⟩

end Fasco
