import Mathlib.Tactic.ByContra
import Fasco.Core.Wait

/-!
# The Buffer of `epoll_wait`

`Epoll::Loop` clears its vector after every call and gives it elements again
only when the batch was full. So after any other batch the next `epoll_wait` is
told of `maxNum_` elements at the address of a vector that has none, and what
it reports is read with subscripts beyond the end.

The buffer is large enough in the first call, and in a later one exactly if
all the calls before it came back full. Full batches grow by `addStep_`, so
this can be said of the answers of the kernel alone.

## Main definitions

* `Epoll.Handles`: What a call of `Loop` should do.
* `Epoll.FullBatches`: All batches but the last are full.

## Theorems

* `loop_of_size`: What a call does while the vector has its size.
* `handles_iff`: When such a call is in order.
* `buffer_along_iff`: When all calls are.
* `buffer_after_timeout`: A call that reports nothing, and the next one.
-/

namespace Fasco

namespace Epoll

open Fallible

/-- The vector has as many elements as the kernel is told, every subscript is
    below its size, and what is reported is appended to the caller's vector, in
    order. -/
structure Handles (s : Epoll) (a : Wait) : Prop where
  size : s.maxNum ≤ s.revents.length
  subscripts : ∀ i, i < a.reported.length → i < s.revents.length
  appends : ∃ s', s.loop a = .ok (s',
    a.events ++ a.reported.map (fun e => { fd := e.fd, event := e.events }))

/-- `epoll_wait` reports no more events than it was asked for. -/
def Answers (s : Epoll) (a : Wait) : Prop := a.reported.length ≤ s.maxNum

/-- The calls but the last report `m`, `m + 15`, `m + 30`, … events, and a
    call that reports so many leaves room for more in an `int`. -/
def FullBatches (m : Nat) (as : List Wait) : Prop :=
  (∀ k a, as[k]? = some a → k + 1 < as.length → a.reported.length = m + addStep * k) ∧
  ∀ k a, as[k]? = some a → a.reported.length = m + addStep * k → m + addStep * (k + 1) < 2 ^ 31

instance (s : Epoll) (a : Wait) : Decidable (Answers s a) :=
  inferInstanceAs (Decidable (_ ≤ _))

variable {s s' : Epoll} {a : Wait}

theorem collect_append (pre rs post : List EpollEvent) (events : List PollerEvent) :
    collect (pre ++ rs ++ post) pre.length rs.length events
      = .ok (events ++ rs.map (fun e => { fd := e.fd, event := e.events })) := by
  induction rs generalizing pre events with
  | nil => simp [collect]
  | cons e rs ih =>
      have hget : (pre ++ e :: rs ++ post)[pre.length]? = some e := by simp
      have hrest := ih (pre ++ [e]) (events ++ [{ fd := e.fd, event := e.events }])
      rw [List.length_cons, collect, hget]
      simp only [List.append_assoc, List.cons_append, List.nil_append, List.length_append,
        List.length_cons, List.length_nil, Nat.zero_add, List.map_cons] at hrest ⊢
      exact hrest

-- Interruptions make no difference.
theorem loopWait_interrupted (revents : List EpollEvent) (n : Nat) (r : Option (List EpollEvent)) :
    loopWait revents n r = loopWait revents 0 r := by
  induction n with
  | zero => rfl
  | succ n ih => rw [loopWait, ih]

/-- While the vector has room for what is reported, a call appends it, and
    goes on with a larger vector if the batch was full and with an empty one
    otherwise. -/
theorem loop_of_size (hpos : 0 < s.maxNum) (hsize : a.reported.length ≤ s.revents.length) :
    s.loop a =
      if a.reported.length = s.maxNum then
        if s.maxNum + addStep < 2 ^ 31 then
          .ok ({ revents := resized (s.maxNum + addStep), maxNum := s.maxNum + addStep },
            a.events ++ a.reported.map (fun e => { fd := e.fd, event := e.events }))
        else .error .overflow
      else
        .ok ({ revents := [], maxNum := s.maxNum },
          a.events ++ a.reported.map (fun e => { fd := e.fd, event := e.events })) := by
  unfold loop
  rw [loopWait_interrupted]
  cases hr : a.result with
  | none =>
      have hrep : a.reported = [] := by rw [Wait.reported, hr, Option.getD_none]
      have hne : ¬ (0 : Nat) = s.maxNum := by omega
      simp only [loopWait, hrep, List.length_nil, if_neg hne, List.map_nil, List.append_nil]
      -- -1 is no number of elements.
      rfl
  | some rs =>
      have hrep : a.reported = rs := by rw [Wait.reported, hr, Option.getD_some]
      rw [hrep] at hsize ⊢
      have hfill : fill s.revents rs = rs ++ s.revents.drop rs.length := by
        rw [fill, List.take_of_length_le]
        rw [List.length_append, List.length_drop]
        omega
      have hcol := collect_append [] rs (s.revents.drop rs.length) a.events
      rw [List.nil_append, List.length_nil] at hcol
      simp only [loopWait, hfill, Int.toNat_natCast, hcol, ok_bind, Int.ofNat_inj]

/-- While the vector has its size, a call is in order unless the `int`
    overflows. -/
theorem handles_iff (hpos : 0 < s.maxNum) (hsize : s.revents.length = s.maxNum)
    (ha : Answers s a) :
    Handles s a ↔ (a.reported.length = s.maxNum → s.maxNum + addStep < 2 ^ 31) := by
  have hroom : a.reported.length ≤ s.revents.length := by
    rw [hsize]
    exact ha
  have heq := loop_of_size hpos hroom
  constructor
  · intro h hfull
    by_contra hover
    rcases h.appends with ⟨s', hs'⟩
    rw [heq, if_pos hfull, if_neg hover] at hs'
    cases hs'
  · intro h
    refine ⟨by omega, fun i hi => by omega, ?_⟩
    rw [heq]
    by_cases hfull : a.reported.length = s.maxNum
    · rw [if_pos hfull, if_pos (h hfull)]
      exact ⟨_, rfl⟩
    · rw [if_neg hfull]
      exact ⟨_, rfl⟩

/-- After a full batch the vector has its size again, and otherwise none. -/
theorem next_size (hpos : 0 < s.maxNum) (hsize : s.revents.length = s.maxNum)
    (ha : Answers s a) (h : mute loop s a = .ok s') :
    (a.reported.length = s.maxNum ∧ s'.maxNum = s.maxNum + addStep ∧
      s'.revents.length = s'.maxNum) ∨
    (a.reported.length ≠ s.maxNum ∧ s'.maxNum = s.maxNum ∧ s'.revents.length = 0) := by
  rcases mute_eq_ok h with ⟨x, hx⟩
  have hroom : a.reported.length ≤ s.revents.length := by
    rw [hsize]
    exact ha
  rw [loop_of_size hpos hroom] at hx
  by_cases hfull : a.reported.length = s.maxNum
  · rw [if_pos hfull] at hx
    by_cases hover : s.maxNum + addStep < 2 ^ 31
    · rw [if_pos hover] at hx
      injection hx with hx
      injection hx with hx _
      rw [← hx]
      exact .inl ⟨hfull, rfl, List.length_replicate⟩
    · rw [if_neg hover] at hx
      cases hx
  · rw [if_neg hfull] at hx
    injection hx with hx
    injection hx with hx _
    rw [← hx]
    exact .inr ⟨hfull, rfl, rfl⟩

-- The first batch, and those after it, which start from a larger number.
theorem fullBatches_cons {m : Nat} {as : List Wait} :
    FullBatches m (a :: as) ↔
      ((as ≠ [] → a.reported.length = m) ∧ (a.reported.length = m → m + addStep < 2 ^ 31)) ∧
      FullBatches (m + addStep) as := by
  have harith : ∀ k, m + addStep * (k + 1) = m + addStep + addStep * k := by
    intro k
    rw [Nat.mul_add, Nat.mul_one]
    omega
  constructor
  · rintro ⟨hfull, hroom⟩
    refine ⟨⟨fun hne => ?_, fun hlen => ?_⟩, fun k b hb hk => ?_, fun k b hb hlen => ?_⟩
    · have := List.length_pos_iff.mpr hne
      exact hfull 0 a rfl (by rw [List.length_cons]; omega)
    · exact hroom 0 a rfl hlen
    · rw [← harith]
      exact hfull (k + 1) b hb (by rw [List.length_cons]; omega)
    · rw [← harith] at hlen ⊢
      exact hroom (k + 1) b hb hlen
  · rintro ⟨⟨hhead, hroom⟩, htail, hroom'⟩
    constructor
    · intro k b hb hk
      cases k with
      | zero =>
          injection hb with hb
          rw [← hb]
          refine hhead ?_
          rintro rfl
          rw [List.length_cons, List.length_nil] at hk
          omega
      | succ k =>
          rw [List.length_cons] at hk
          rw [harith]
          exact htail k b hb (by omega)
    · intro k b hb hlen
      cases k with
      | zero =>
          injection hb with hb
          rw [← hb] at hlen
          exact hroom hlen
      | succ k =>
          rw [harith] at hlen ⊢
          exact hroom' k b hb hlen

/-- The calls from a state in which the vector has its size. -/
theorem along_of_size (as : List Wait) :
    ∀ s : Epoll, 0 < s.maxNum → s.revents.length = s.maxNum →
      Along (mute loop) Answers s as →
      (Along (mute loop) Handles s as ↔ FullBatches s.maxNum as) := by
  induction as with
  | nil =>
      intro s _ _ _
      refine iff_of_true trivial ⟨?_, ?_⟩
      · intro k a hk
        cases hk
      · intro k a hk
        cases hk
  | cons a as ih =>
      intro s hpos hsize hans
      rcases hans with ⟨ha, hrest⟩
      rw [fullBatches_cons]
      have hhead := handles_iff hpos hsize ha
      constructor
      · rintro ⟨hh, htail⟩
        have hroom := hhead.mp hh
        rcases hh.appends with ⟨s', hs'⟩
        have hstep : mute loop s a = .ok s' := by
          rw [mute, hs']
          rfl
        rcases next_size hpos hsize ha hstep with ⟨hfull, hmax, hsize'⟩ | ⟨hpart, hmax, hsize'⟩
        · refine ⟨⟨fun _ => hfull, hroom⟩, ?_⟩
          rw [← hmax]
          exact (ih s' (by omega) hsize' (hrest s' hstep)).mp (htail s' hstep)
        · -- The next call would find the vector empty.
          cases as with
          | nil =>
              refine ⟨⟨fun hne => absurd rfl hne, hroom⟩, ?_, ?_⟩
              · intro k b hk
                cases hk
              · intro k b hk
                cases hk
          | cons b bs =>
              have := (htail s' hstep).1.size
              omega
      · rintro ⟨⟨hfull, hroom⟩, hbatches⟩
        refine ⟨hhead.mpr hroom, fun s' hstep => ?_⟩
        rcases next_size hpos hsize ha hstep with ⟨_, hmax, hsize'⟩ | ⟨hpart, _, _⟩
        · rw [← hmax] at hbatches
          exact (ih s' (by omega) hsize' (hrest s' hstep)).mpr hbatches
        · cases as with
          | nil => trivial
          | cons b bs => exact absurd (hfull (List.cons_ne_nil b bs)) hpart

/-- In every sequence of calls on one object, with any answers of the kernel,
    all calls are in order exactly if all but the last report as many events as
    they ask for. The numbers are those of the constructor; the limit of `int`
    is out of reach of the kernel. -/
theorem buffer_along_iff {as : List Wait} (h : Along (mute loop) Answers construct as) :
    Along (mute loop) Handles construct as ↔ FullBatches 20 as :=
  along_of_size as construct (by decide) rfl h

/-- A wait that times out, the last of the calls. -/
theorem buffer_along_iff_timeout :
    let as : List Wait := [{ events := [], interrupted := 1, result := some [] }]
    Along (mute loop) Handles construct as ↔ FullBatches 20 as :=
  buffer_along_iff (Checks.along (by decide))

/-- A wait times out, and in the next one descriptor 5 is reported: the kernel
    is told of 20 elements, and there are none. -/
theorem buffer_after_timeout :
    let s := after (mute loop) construct [{ events := [], interrupted := 0, result := some [] }]
    let a : Wait :=
      { events := [], interrupted := 0, result := some [{ events := pollIn, fd := 5 }] }
    s.maxNum = 20 ∧ s.revents.length = 0 ∧ ¬ Handles s a ∧ s.loop a = .error .subscript := by
  refine ⟨rfl, rfl, fun h => ?_, rfl⟩
  exact absurd h.size (by decide)

end Epoll

end Fasco
