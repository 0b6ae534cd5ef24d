import Fasco.Core.TcpServer
import Fasco.Theory.CallStack

/-!
# Coroutines of a Server

On a thread of the server at most one coroutine lies above the main one: the
loop resumes it, and it resumes nobody. `Hosted` says so of the call stacks, in
terms of the turns of the loops, and that a coroutine whose callback has not
ended can be resumed. So the loop's resume gets to the coroutine, and a yield,
or the end of the callback, back to the loop.

## Main definitions

* `Hosting`, `Hosted`: The call stacks and the turns agree.

## Theorems

* `Hosted.exec`: The coroutine that a loop has resumed executes.
* `Hosted.enter`: The loop's resume gets to the coroutine.
* `Hosted.yield`, `Hosted.finish`: The coroutine gives control back.
* `Hosted.create`, `Hosted.free`: Coroutines come and go.
-/

namespace Fasco

open World

/-- The call stacks are `f`, with the resumed coroutine on top of the main one.
    Main coroutines have no position, and what has one and has not ended is not
    done. -/
structure Hosting (w : World) (turn : Tid → Turn) (pos : McoRef → Option Pos) (f : Frames) :
    Prop where
  orderly : Orderly w f
  inside : ∀ t c, turn t = .inside c → ∃ b, f t = [c, b] ∧ pos b = none
  outside : ∀ t, (∀ c, turn t ≠ .inside c) → f t = [] ∨ ∃ b, f t = [b] ∧ pos b = none
  live : ∀ c p, pos c = some p → ∃ r, w.ctl c = some r ∧ (p ≠ .ended → r.done = false)

def Hosted (w : World) (turn : Tid → Turn) (pos : McoRef → Option Pos) : Prop :=
  ∃ f, Hosting w turn pos f

theorem hosted_init {w : World} (h : Init w) : Hosted w (fun _ => .idle) (fun _ => none) :=
  ⟨fun _ => [], ⟨orderly_init h, fun _ _ h => (by cases h), fun _ _ => .inl rfl,
    fun _ _ h => (by cases h)⟩⟩

namespace Hosting

variable {w w' : World} {turn : Tid → Turn} {pos : McoRef → Option Pos} {f : Frames} {t : Tid}
  {c : McoRef} {p : Pos} {r : Turn}

/-- What lies in a call stack is the resumed coroutine or has no position. -/
theorem mem (h : Hosting w turn pos f) {u : Tid} {d : McoRef} (hd : d ∈ f u) :
    turn u = .inside d ∨ pos d = none := by
  by_cases hu : ∃ c, turn u = .inside c
  · rcases hu with ⟨c, hc⟩
    rcases h.inside u c hc with ⟨b, hf, hb⟩
    rw [hf] at hd
    rcases List.mem_cons.mp hd with rfl | hd
    · exact .inl hc
    · rw [List.mem_singleton.mp hd]
      exact .inr hb
  · rcases h.outside u (fun c hc => hu ⟨c, hc⟩) with hf | ⟨b, hf, hb⟩
    · rw [hf] at hd
      cases hd
    · rw [hf] at hd
      rw [List.mem_singleton.mp hd]
      exact .inr hb

theorem not_mem (h : Hosting w turn pos f) (hp : pos c = some p)
    (hnot : ∀ u, turn u ≠ .inside c) (u : Tid) : c ∉ f u := by
  intro hmem
  rcases h.mem hmem with hin | hnone
  · exact hnot u hin
  · rw [hp] at hnone
    cases hnone

theorem not_running (h : Hosting w turn pos f) (hp : pos c = some p)
    (hnot : ∀ u, turn u ≠ .inside c) {x : McoRoutine} (hx : w.ctl c = some x) :
    x.running = false := by
  cases hrun : x.running with
  | false => rfl
  | true =>
      rcases h.orderly.head_of_running hx hrun with ⟨u, hu⟩
      exact absurd (List.mem_of_head? hu) (h.not_mem hp hnot u)

/-- The turn of one thread and its call stack change together. -/
theorem change {l : List McoRef} {pos' : McoRef → Option Pos} (h : Hosting w turn pos f)
    (ho : Orderly w' (Function.update f t l)) (hkeep : ∀ b, pos b = none → pos' b = none)
    (hin : ∀ c, r = .inside c → ∃ b, l = [c, b] ∧ pos' b = none)
    (hout : (∀ c, r ≠ .inside c) → l = [] ∨ ∃ b, l = [b] ∧ pos' b = none)
    (hlive : ∀ c p, pos' c = some p → ∃ x, w'.ctl c = some x ∧ (p ≠ .ended → x.done = false)) :
    Hosting w' (Function.update turn t r) pos' (Function.update f t l) := by
  refine ⟨ho, fun u d hd => ?_, fun u hu => ?_, hlive⟩
  · by_cases hut : u = t
    · rw [hut, Function.update_self] at hd ⊢
      exact hin d hd
    · rw [Function.update_of_ne hut] at hd ⊢
      rcases h.inside u d hd with ⟨b, hf, hb⟩
      exact ⟨b, hf, hkeep b hb⟩
  · by_cases hut : u = t
    · rw [hut, Function.update_self] at hu ⊢
      exact hout hu
    · rw [Function.update_of_ne hut] at hu ⊢
      rcases h.outside u hu with hf | ⟨b, hf, hb⟩
      · exact .inl hf
      · exact .inr ⟨b, hf, hkeep b hb⟩

/-- The resumed coroutine has given up control. -/
theorem popped {pos' : McoRef → Option Pos} {s d : McoRef} {l : List McoRef} {ended : Bool}
    (hf : Hosting w turn pos f) (ht : turn t = .inside c) (hfl : f t = d :: s :: l)
    (hpop : Popped w w' t d s ended) (ho : Orderly w' (Function.update f t (s :: l)))
    (hr : ∀ c, r ≠ .inside c) (hkeep : ∀ b, pos b = none → pos' b = none)
    (hsame : ∀ b p', pos' b = some p' → ∃ p, pos b = some p ∧
      (p' ≠ .ended → p ≠ .ended ∧ (ended = true → b ≠ c))) :
    w'.exec t ≠ some c ∧ Hosted w' (Function.update turn t r) pos' := by
  rcases hf.inside t c ht with ⟨b, hfb, hnb⟩
  rw [hfb] at hfl
  injection hfl with hd hl
  injection hl with hb hl
  rw [← hd] at hpop
  rw [← hb] at hpop ho
  rw [← hl] at ho
  refine ⟨?_, _, hf.change ho hkeep (fun e he => absurd he (hr e))
    (fun _ => .inr ⟨b, rfl, hkeep b hnb⟩) (fun e p' he => ?_)⟩
  · rw [hpop.exec, Function.update_self]
    intro hbc
    injection hbc with hbc
    exact hpop.ne hbc.symm
  · rcases hsame e p' he with ⟨p, hp, hend⟩
    rcases hf.live e p hp with ⟨x, hx, hdone⟩
    by_cases hec : e = c
    · rcases hpop.ctl_from with ⟨y, y', hy, _, hy', hyield⟩
      rw [hec] at hx ⊢
      rw [hy] at hx
      injection hx with hx
      refine ⟨y', hy', fun hne => ?_⟩
      have hnot : ended = false := by
        cases ended with
        | false => rfl
        | true => exact absurd hec ((hend hne).2 rfl)
      rw [hyield.done, hnot, hx, McoRoutine.ending, Bool.or_false]
      exact hdone (hend hne).1
    · by_cases heb : e = b
      · rw [heb, hnb] at hp
        cases hp
      · exact ⟨x, by rw [hpop.ctl_other e hec heb]; exact hx, fun hne => hdone (hend hne).1⟩

end Hosting

namespace Hosted

variable {w w' : World} {turn : Tid → Turn} {pos pos' : McoRef → Option Pos} {t : Tid}
  {c : McoRef} {p : Pos} {r : Turn} {sp : Nat}

theorem exec (h : Hosted w turn pos) (ht : turn t = .inside c) : w.exec t = some c := by
  rcases h with ⟨f, hf⟩
  rcases hf.inside t c ht with ⟨b, hb, _⟩
  rw [hf.orderly.steady.exec t, hb]
  rfl

/-- Nobody gets or loses a position, and who has ended stays so. -/
theorem congr (h : Hosted w turn pos) (hnone : ∀ d, pos d = none → pos' d = none)
    (hsome : ∀ d p', pos' d = some p' → ∃ p, pos d = some p ∧ (p' ≠ .ended → p ≠ .ended)) :
    Hosted w turn pos' := by
  rcases h with ⟨f, hf⟩
  refine ⟨f, hf.orderly, fun u d hd => ?_, fun u hu => ?_, fun d p' hd => ?_⟩
  · rcases hf.inside u d hd with ⟨b, hb, hnb⟩
    exact ⟨b, hb, hnone b hnb⟩
  · rcases hf.outside u hu with hb | ⟨b, hb, hnb⟩
    · exact .inl hb
    · exact .inr ⟨b, hb, hnone b hnb⟩
  · rcases hsome d p' hd with ⟨p, hp, hend⟩
    rcases hf.live d p hp with ⟨x, hx, hdone⟩
    exact ⟨x, hx, fun hne => hdone (hend hne)⟩

/-- A coroutine that has not ended moves. -/
theorem move (h : Hosted w turn pos) (hp : pos c = some p) (hne : p ≠ .ended) (p' : Pos) :
    Hosted w turn (Function.update pos c (some p')) := by
  refine h.congr (fun d hd => ?_) (fun d q hq => ?_)
  · rw [Function.update_of_ne]
    · exact hd
    · rintro rfl
      rw [hp] at hd
      cases hd
  · by_cases hdc : d = c
    · exact ⟨p, by rw [hdc]; exact hp, fun _ => hne⟩
    · rw [Function.update_of_ne hdc] at hq
      exact ⟨q, hq, fun hn => hn⟩

/-- A loop that has resumed nobody moves on. -/
theorem turned (h : Hosted w turn pos) (ht : ∀ c, turn t ≠ .inside c) (hr : ∀ c, r ≠ .inside c) :
    Hosted w (Function.update turn t r) pos := by
  rcases h with ⟨f, hf⟩
  refine ⟨f, hf.orderly, fun u d hd => ?_, fun u hu => ?_, hf.live⟩
  · by_cases hut : u = t
    · rw [hut, Function.update_self] at hd
      exact absurd hd (hr d)
    · rw [Function.update_of_ne hut] at hd
      exact hf.inside u d hd
  · by_cases hut : u = t
    · rw [hut]
      exact hf.outside t ht
    · rw [Function.update_of_ne hut] at hu
      exact hf.outside u hu

/-- The resume of a coroutine that waits gets to it. -/
theorem enter (h : Hosted w turn pos) (ht : ∀ d, turn t ≠ .inside d) (hp : pos c = some p)
    (hne : p ≠ .ended) (hnot : ∀ u, turn u ≠ .inside c) {e : CallSite} (hfresh : w.FreshMain t e)
    (hw : w.mcoResume t (some c) e = .ok w') :
    w'.exec t = some c ∧ Hosted w' (Function.update turn t (.inside c)) pos := by
  rcases h with ⟨f, hf⟩
  -- It lies in no call stack, so it does not run.
  have hmem := hf.not_mem hp hnot
  rcases hf.live c p hp with ⟨x, hx, hdone⟩
  have hrun := hf.not_running hp hnot hx
  -- What the thread executes has not ended.
  have hcode : w.InCode t := by
    intro d y hd hy
    have hhead := hf.orderly.steady.exec t
    rw [hd] at hhead
    have hdy := hf.orderly.unfinished (List.mem_of_head? hhead.symm) (ctl_of_co hy)
    have hdy' : y.doneYield = false := hdy
    rw [McoRoutine.finished, hdy', Bool.and_false]
  have hflat : Flat w (.resume t (some c) e) := by
    intro u hu
    exact absurd (List.mem_of_mem_tail (hf.orderly.waits_iff.mp hu)) (hmem u)
  rcases hf.orderly.resume hcode hfresh hflat hw with ⟨_, hq⟩ | ⟨d, y, cur, l, hd, hy, _, _, hb,
    hcase⟩
  · -- There is something to resume.
    rcases hq c rfl with ⟨y, hy, hrf⟩
    rw [ctl_of_co hy] at hx
    injection hx with hx
    rcases hrf with hrf | hrf
    · rw [← hx] at hrun
      rw [show (forget y).running = y.running from rfl, hrf] at hrun
      cases hrun
    · have hd := hdone hne
      rw [← hx, show (forget y).done = y.done from rfl] at hd
      rw [McoRoutine.finished, hd, Bool.false_and] at hrf
      cases hrf
  · injection hd with hd
    rw [← hd] at hcase hy
    rcases hcase with ⟨l', _, hfl, _⟩ | ⟨_, _, hpush, ho⟩
    · -- It does not lie below the caller.
      exfalso
      refine hmem t ?_
      rw [hfl]
      exact List.mem_cons_of_mem cur List.mem_cons_self
    · refine ⟨by rw [hpush.exec, Function.update_self], ?_⟩
      -- `MainMco` may have put the main coroutine there just now.
      have hboot : Function.update (booted f t e.main) t (c :: cur :: l)
          = Function.update f t (c :: cur :: l) := by
        unfold booted
        by_cases hnil : f t = []
        · rw [if_pos hnil, Function.update_idem]
        · rw [if_neg hnil]
      rw [hboot] at ho
      -- The caller is the main coroutine of the thread, perhaps made just now.
      have hcur : l = [] ∧ pos cur = none := by
        rcases hf.outside t ht with hnil | ⟨b, hfb, hnb⟩
        · rw [booted, if_pos hnil, Function.update_self] at hb
          injection hb with hb hl
          refine ⟨hl.symm, ?_⟩
          cases hpc : pos cur with
          | none => rfl
          | some q =>
              rcases hf.live cur q hpc with ⟨z, hz, _⟩
              have hnone := hfresh ((hf.orderly.steady.empty_iff t).mpr hnil)
              rw [hb, ← ctl_eq_none, hz] at hnone
              cases hnone
        · rw [booted_of_nonempty (by rw [hfb]; exact List.cons_ne_nil b []), hfb] at hb
          injection hb with hb hl
          exact ⟨hl.symm, by rw [← hb]; exact hnb⟩
      refine ⟨_, hf.change ho (fun _ hn => hn) (fun d hd => ?_) (fun hno => absurd rfl (hno c))
        (fun d q hq => ?_)⟩
      · injection hd with hd
        rw [← hd, hcur.1]
        exact ⟨cur, rfl, hcur.2⟩
      · rcases hf.live d q hq with ⟨z, hz, hzd⟩
        -- `MainMco` and the push change no callback's end.
        rcases co_of_ctl hz with ⟨z0, hz0, hfz⟩
        have hz1 := ctl_of_co (mainMco_co hfresh hz0)
        rw [hfz] at hz1
        by_cases hdc : d = c
        · rcases hpush.ctl_to with ⟨z2, z3, hz2, hz3, hres⟩
          rw [hdc] at hz1 ⊢
          rw [hz1] at hz2
          injection hz2 with hz2
          exact ⟨z3, hz3, fun hqe => by rw [hres.done, ← hz2]; exact hzd hqe⟩
        · have hdcur : d ≠ cur := by
            rintro rfl
            rw [hcur.2] at hq
            cases hq
          exact ⟨z, by rw [hpush.ctl_other d hdcur hdc]; exact hz1, hzd⟩

theorem yield (h : Hosted w turn pos) (ht : turn t = .inside c)
    (hw : w.mcoYield t (some c) sp = .ok w') (hr : ∀ c, r ≠ .inside c) :
    w'.exec t ≠ some c ∧ Hosted w' (Function.update turn t r) pos := by
  rcases h with ⟨f, hf⟩
  rcases hf.inside t c ht with ⟨b, hfb, _⟩
  rcases hf.orderly.yield hw with ⟨_, hq⟩ | ⟨d, s, l, _, hfl, hpop, ho⟩
  -- A yield does nothing only for a coroutine that does not run.
  · exfalso
    have hruns := hf.orderly.steady.head_runs (t := t) (c := c) (by rw [hfb]; rfl)
    rw [hq c rfl] at hruns
    cases hruns
  · exact hf.popped ht hfl hpop ho hr (fun _ hn => hn)
      (fun b p' hp => ⟨p', hp, fun hne => ⟨hne, fun h => by cases h⟩⟩)

theorem finish (h : Hosted w turn pos) (ht : turn t = .inside c)
    (hw : w.coroutineRun t sp = .ok w') (hp : pos c = some p) (hr : ∀ c, r ≠ .inside c) :
    Hosted w' (Function.update turn t r) (Function.update pos c (some .ended)) := by
  rcases h with ⟨f, hf⟩
  rcases hf.orderly.finish hw with ⟨d, s, l, hfl, hpop, ho⟩
  refine (hf.popped ht hfl hpop ho hr (fun b hb => ?_) (fun b p' hp' => ?_)).2
  · rw [Function.update_of_ne]
    · exact hb
    · rintro rfl
      rw [hp] at hb
      cases hb
  · by_cases hbc : b = c
    · rw [hbc, Function.update_self] at hp'
      injection hp' with hp'
      exact ⟨p, by rw [hbc]; exact hp, fun hne => absurd hp'.symm hne⟩
    · rw [Function.update_of_ne hbc] at hp'
      exact ⟨p', hp', fun hne => ⟨hne, fun _ => hbc⟩⟩

/-- A new coroutine. -/
theorem create (h : Hosted w turn pos) (hc : w.co c = none) (p : Pos) :
    Hosted (w.mcoCreate c false) turn (Function.update pos c (some p)) := by
  rcases h with ⟨f, hf⟩
  -- A new address lies in no call stack.
  have hnot : ∀ u, c ∉ f u := hf.orderly.steady.fresh_not_mem (ctl_eq_none.mpr hc)
  have hkeep : ∀ b u, b ∈ f u → pos b = none → Function.update pos c (some p) b = none := by
    intro b u hb hnb
    rw [Function.update_of_ne]
    · exact hnb
    · rintro rfl
      exact hnot u hb
  refine ⟨f, hf.orderly.created hc, fun u d hd => ?_, fun u hu => ?_, fun d q hq => ?_⟩
  · rcases hf.inside u d hd with ⟨b, hfb, hnb⟩
    refine ⟨b, hfb, hkeep b u ?_ hnb⟩
    rw [hfb]
    exact List.mem_cons_of_mem d List.mem_cons_self
  · rcases hf.outside u hu with hnil | ⟨b, hfb, hnb⟩
    · exact .inl hnil
    · refine .inr ⟨b, hfb, hkeep b u ?_ hnb⟩
      rw [hfb]
      exact List.mem_cons_self
  · rw [mcoCreate_ctl]
    by_cases hdc : d = c
    · rw [hdc, Function.update_self]
      exact ⟨_, rfl, fun _ => rfl⟩
    · rw [Function.update_of_ne hdc] at hq ⊢
      exact hf.live d q hq

/-- A coroutine that no loop has resumed goes. -/
theorem free (h : Hosted w turn pos) (hp : pos c = some p) (hnot : ∀ u, turn u ≠ .inside c)
    (hw : w.mcoFree t (some c) = .ok w') : Hosted w' turn (Function.update pos c none) := by
  rcases h with ⟨f, hf⟩
  have hmem := hf.not_mem hp hnot
  have hflat : Flat w (.free t (some c)) := by
    intro u hu
    exact absurd (List.mem_of_mem_tail (hf.orderly.waits_iff.mp hu)) (hmem u)
  have hkeep : ∀ b, pos b = none → Function.update pos c none b = none := by
    intro b hb
    by_cases hbc : b = c
    · rw [hbc, Function.update_self]
    · rw [Function.update_of_ne hbc]
      exact hb
  refine ⟨f, hf.orderly.free hflat hw, fun u d hd => ?_, fun u hu => ?_, fun d q hq => ?_⟩
  · rcases hf.inside u d hd with ⟨b, hfb, hnb⟩
    exact ⟨b, hfb, hkeep b hnb⟩
  · rcases hf.outside u hu with hnil | ⟨b, hfb, hnb⟩
    · exact .inl hnil
    · exact .inr ⟨b, hfb, hkeep b hnb⟩
  · have hdc : d ≠ c := by
      rintro rfl
      rw [Function.update_self] at hq
      cases hq
    rw [Function.update_of_ne hdc] at hq
    rcases hf.live d q hq with ⟨x, hx, hdone⟩
    refine ⟨x, ?_, hdone⟩
    rcases mcoFree_cases hw with ⟨hc, _⟩ | ⟨c', y, hc, _, _, rfl⟩ | ⟨c', y, hc, _, _, rfl⟩
    · cases hc
    · injection hc with hc
      rw [setCo_ctl, Function.update_of_ne (by rw [← hc]; exact hdc)]
      exact hx
    · injection hc with hc
      rw [mcoFree_ctl, Function.update_of_ne (by rw [← hc]; exact hdc)]
      exact hx

end Hosted

end Fasco
