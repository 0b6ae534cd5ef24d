import Fasco.Theory.Moving

/-!
# The Control Flow of the Callbacks

Which call comes after which in `TcpServer::accept` and `client_call`, with the
hooks they are in, and in `EventLoop::loop`. As it is written the code has more
branches than are ever taken: a descriptor without a coroutine, a thread without
a loop, a yield that comes back at once. In the server the pool has the
coroutine, the registry the loop and the loop control after a yield, so none of
these is. `Pos.Goes` is the graph that is left, and `code_flow` says that every
call follows it.

The graph has two loops, the one of the acceptor and the one of a connection,
and each goes through the system call. From the hooked `close` on there is no
way back.

## Main definitions

* `ClosePos.Goes`, `Pos.Goes`: The graph.
* `TcpSys.TurnGoes`: That of the loop.

## Theorems

* `closeCode_flow`, `code_flow`: The calls follow it.
* `run_turns`: Those of the loop do.
-/

namespace Fasco

open Fallible

/-- What comes next in the hooked `close`. -/
inductive ClosePos.Goes : ClosePos → ClosePos → Prop where
  | asked (m : Option McoRef) : Goes .cur (.fdmco m)
  | same (m : Option McoRef) : Goes (.fdmco m) .clear
  | other (m : Option McoRef) : Goes (.fdmco m) .remove
  | cleared : Goes .clear .remove
  | removed : Goes .remove .look
  | looked (l : Tid) : Goes .look (.find l)
  | found (l : Tid) (e : EvRef) : Goes (.find l) (.ask e)
  | marked (e : EvRef) (l : Tid) : Goes (.ask e) (.tell e l)
  | told (e : EvRef) (l : Tid) : Goes (.tell e l) (.out e)

/-- What comes next in a callback. -/
inductive Pos.Goes : Pos → Pos → Prop where
  | begins : Goes .start .top
  | plain (fd : Fd) : Goes .top (.sys fd)
  | hooked (fd : Fd) (m : McoRef) : Goes .top (.check fd m)
  | checked (fd : Fd) (m : McoRef) : Goes (.check fd m) (.look fd)
  | looked (fd : Fd) (l : Tid) : Goes (.look fd) (.find fd l)
  | found (fd : Fd) (l : Tid) (e : EvRef) : Goes (.find fd l) (.report fd e .ask)
  | changed (fd : Fd) (e : EvRef) (r : Report) (l : Tid) :
      Goes (.report fd e r) (.tell fd e l r)
  | asked (fd : Fd) (e : EvRef) (l : Tid) : Goes (.tell fd e l .ask) (.yield fd e)
  | withdrawn (fd : Fd) (e : EvRef) (l : Tid) : Goes (.tell fd e l .withdraw) (.sys fd)
  | yields (fd : Fd) (e : EvRef) (m : McoRef) : Goes (.yield fd e) (.switch fd e m)
  | sleeps (fd : Fd) (e : EvRef) (m : McoRef) : Goes (.switch fd e m) (.asleep fd e)
  /-- The acceptor has got nothing, or a connection something. -/
  | again (fd : Fd) : Goes (.sys fd) .top
  | accepts (fd g : Fd) : Goes (.sys fd) (.accepted g)
  | stops (fd g : Fd) : Goes (.sys fd) (.close g .cur)
  | chosen (g : Fd) (e : EvRef) (l : Tid) : Goes (.accepted g) (.made g e l)
  | made (g : Fd) (e : EvRef) (l : Tid) (co : McoRef) : Goes (.made g e l) (.give g e l co)
  | given (g : Fd) (e : EvRef) (l : Tid) (co : McoRef) : Goes (.give g e l co) (.enter e l co)
  | entered (e : EvRef) (l : Tid) (co : McoRef) : Goes (.enter e l co) (.leave e co)
  | left (e : EvRef) (co : McoRef) : Goes (.leave e co) .top
  | closes (fd : Fd) {q q' : ClosePos} (h : q.Goes q') : Goes (.close fd q) (.close fd q')
  | closed (fd : Fd) (e : EvRef) : Goes (.close fd (.out e)) .finish
  | ends : Goes .finish .ended

namespace TcpSys

section Flow

variable {s s' : TcpSys} {c : McoRef} {k : Corun} {i : Supply} {p p' : Pos}

theorem closeCode_flow {fd : Fd} {q : ClosePos} {io : Io} (hi : s.Inv) (hk : s.corun c = some k)
    (hp : s.pos c = some (.close fd q)) (h : CloseMoves s k.loop i fd q io p') :
    Pos.Goes (.close fd q) p' := by
  have hs := hi.serves c k _ hk hp
  cases h with
  | unhooked hh =>
      rw [hi.hookable] at hh
      cases hh
  | asked _ => exact .closes fd (.asked _)
  | same _ => exact .closes fd (.same _)
  | other _ => exact .closes fd (.other _)
  | cleared => exact .closes fd .cleared
  | removed => exact .closes fd .removed
  | loopless hl =>
      rw [hi.getLoop hk hp] at hl
      cases hl
  | looked _ => exact .closes fd (.looked _)
  | @missing l io hio =>
      rcases hs.fits with ⟨_, rfl, hl⟩
      have hl : l = k.loop := hl
      rw [hl] at hio
      -- The table has the object.
      rcases Io.getEvents_ok hio with ⟨hnot, _⟩ | ⟨_, _, h, _⟩
      · rw [hs.tabled rfl] at hnot
        cases hnot
      · cases h
  | found _ => exact .closes fd (.found _ _)
  | marked _ _ _ => exact .closes fd (.marked _ _)
  | told _ => exact .closes fd (.told _ _)
  | released _ => exact .closed fd _

/-- After a report, which is not that of a new object. -/
theorem afterReport_flow {io io' : Io} {fd : Fd} {e : EvRef} {l : Tid} {r : Report}
    (hr : r ≠ .enrol) (h : AfterReport io fd e r io' p') : Pos.Goes (.tell fd e l r) p' := by
  cases h with
  | waits hw =>
      cases r with
      | ask => exact .asked fd e l
      | enrol => exact absurd rfl hr
      | withdraw => exact absurd rfl hw
  | released _ => exact .withdrawn fd e l

/-- A call that moves the coroutine only. -/
theorem moves_flow {io : Io} (hi : s.Inv) (hk : s.corun c = some k) (hp : s.pos c = some p)
    (h : Moves s k.loop k i p io p') : p.Goes p' := by
  have hs := hi.serves c k _ hk hp
  cases h with
  | begins _ _ => exact .begins
  | binds _ _ => exact .begins
  | plain _ _ => exact .plain _
  | hooked _ _ _ => exact .hooked _ _
  | unmapped hfd _ hm =>
      rw [hi.getFd hk] at hfd
      injection hfd with hfd
      rw [← hfd, hs.mapped rfl] at hm
      cases hm
  | checked _ => exact .checked _ _
  | looked _ => exact .looked _ _
  | loopless hl =>
      rw [hi.getLoop hk hp] at hl
      cases hl
  | found _ => exact .found _ _ _
  | missing _ => exact .found _ _ _
  | outside _ => exact hs.fits.elim
  | current _ => exact hs.fits.elim
  | enrolled => exact hs.fits.elim
  | changed _ _ _ => exact .changed _ _ _ _
  | @unheard fd e r io io' y p' hio hy hl _ =>
      -- The object names the loop's thread, so the loop is found.
      rcases hs.fits with ⟨rfl, rfl, hr⟩
      rcases hs.object with ⟨x, hx, _, hxt, _⟩
      rcases Io.modifyEvents_ok hio with ⟨x', hx', rfl⟩
      rw [hx] at hx'
      injection hx' with hx'
      rw [show y = { x' with obj := r.change x'.obj } from
        Option.some.inj (hy.symm.trans (Function.update_self _ _ _)), ← hx'] at hl
      have htid : (r.change x.obj).tid = k.loop := (change_keeps hr x.obj).2.1.trans (hxt rfl)
      have hl : s.loops.getLoop (r.change x.obj).tid = none := hl
      rw [htid, hi.getLoop hk hp] at hl
      cases hl
  | told _ hr => exact afterReport_flow hs.fits.2.2.2 hr
  | unyielding hm =>
      rw [hs.current rfl] at hm
      cases hm
  | yields _ => exact .yields _ _ _
  | refused _ _ => exact .again _
  | @accepted fd g _ _ _ =>
      by_cases hg : 0 < g
      · rw [if_pos hg]
        exact .accepts fd g
      · rw [if_neg hg]
        exact .again fd
  | again _ _ => exact .again _
  | stops _ _ _ => exact .stops _ _
  | left _ => exact .left _ _
  | closes h => exact closeCode_flow hi hk hp h

/-- Every call of a coroutine follows the graph. -/
theorem code_flow (hi : s.Inv) (hk : s.corun c = some k) (hp : s.pos c = some p)
    (h : s.code k.loop c k i p = .ok s') : ∃ p', s'.pos c = some p' ∧ p.Goes p' := by
  have hs := hi.serves c k _ hk hp
  have ho := code_outcome s k.loop c k i p
  have hself := fun p' : Pos => Function.update_self c (some p') s.pos
  rw [h] at ho
  cases ho with
  | moves hm => exact ⟨_, hself _, moves_flow hi hk hp hm⟩
  | @stays _ _ mco _ hy hx =>
      -- Control has gone back to the loop.
      rcases hs.fits with ⟨_, _, rfl⟩
      exact absurd hx
        (hi.hosted.yield (r := .after mco) (hs.active rfl) hy (fun _ h => by cases h)).1
  | sleeps _ _ => exact ⟨_, hself _, .sleeps _ _ _⟩
  | chosen _ => exact ⟨_, hself _, .chosen _ _ _⟩
  | made _ _ => exact ⟨_, Function.update_self _ _ _, .made _ _ _ _⟩
  | given _ => exact ⟨_, Function.update_self _ _ _, .given _ _ _ _⟩
  | entered _ => exact ⟨_, Function.update_self _ _ _, .entered _ _ _⟩
  | ended _ _ => exact ⟨_, hself _, .ends⟩

/-- What the turn of the loop of thread `t` is after a call there. -/
inductive TurnGoes (s : TcpSys) (t : Tid) : Turn → Turn → Prop where
  | passed : TurnGoes s t .idle .idle
  | found (x : PollerEvent) (rest : List PollerEvent) (h : s.batch t = x :: rest) :
      TurnGoes s t .idle (.found x.fd)
  | mapped (d : McoRef) (k : Corun) (h : s.corun d = some k) :
      TurnGoes s t (.found k.fd) (.resume d)
  | resumes (d : McoRef) : TurnGoes s t (.resume d) (.enter d)
  | enters (d : McoRef) : TurnGoes s t (.enter d) (.inside d)
  | stays (d : McoRef) : TurnGoes s t (.inside d) (.inside d)
  | back (d : McoRef) : TurnGoes s t (.inside d) (.after d)
  | ends (d : McoRef) : TurnGoes s t (.after d) .idle

/-- Every call of a loop follows this. -/
theorem run_turns {t : Tid} (hi : s.Inv) (ha : s.Supplied (.run t i))
    (hs : s.step (.run t i) = .ok s') : TurnGoes s t (s.turn t) (s'.turn t) := by
  have hok := hi.turns t
  have ho := run_outcome hs
  have hself : ∀ r : Turn, Function.update s.turn t r t = r := fun r => Function.update_self _ _ _
  generalize hr : s.turn t = r at hok ho ⊢
  cases ho with
  | passes _ _ =>
      change TurnGoes s t .idle (s.turn t)
      rw [hr]
      exact .passed
  | @finds x rest io fd hb hf =>
      change TurnGoes s t .idle (Function.update s.turn t (.found fd) t)
      rw [hself, hi.finds_reported hf rfl]
      exact .found x rest hb
  | unmapped hm =>
      -- The pool has the coroutine.
      rcases hok with ⟨d, kd, q, hkd, hq, hqw, hloop, rfl⟩
      have hmap := (hi.serves d kd q hkd hq).mapped (wakes hqw).mapped
      rw [hloop, hm] at hmap
      cases hmap
  | @mapped fd m hm =>
      rcases hok with ⟨d, kd, q, hkd, hq, hqw, hloop, rfl⟩
      have hmap := (hi.serves d kd q hkd hq).mapped (wakes hqw).mapped
      rw [hloop, hm] at hmap
      injection hmap with hmap
      change TurnGoes s t _ (Function.update s.turn t (.resume m) t)
      rw [hself]
      exact .mapped m kd (by rw [hmap]; exact hkd)
  | @resumes m =>
      change TurnGoes s t _ (Function.update s.turn t (.enter m) t)
      rw [hself]
      exact .resumes m
  | @enters m _ _ _ =>
      change TurnGoes s t _ (Function.update s.turn t (.inside m) t)
      rw [hself]
      exact .enters m
  | misses hw hx =>
      -- The resume gets to the coroutine.
      rcases hok with ⟨⟨kd, q, hkd, hq, hqw, _⟩, _⟩
      exact absurd (hi.hosted.enter (fun x h => by rw [hr] at h; cases h) hq (wakes hqw).goes
        (hi.not_inside hq hqw) ha.2.2.1 hw).1 hx
  | @calls m d kd q _ _ _ _ h =>
      rcases (code_local h).back with hback | hback
      · rw [hback, hr]
        exact .stays m
      · rw [hback, hr]
        exact .back m
  | @ends m =>
      change TurnGoes s t _ (Function.update s.turn t .idle t)
      rw [hself]
      exact .ends m

end Flow

end TcpSys

end Fasco
