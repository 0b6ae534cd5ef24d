import Fasco.Lib.Masks
import Fasco.Core.Events

/-!
# What Is Left of a Report

`EventLoop::eventHandleAble` strikes from what `epoll_wait` has reported what
the program no longer asks for. Events come in two classes, those that make a
descriptor readable and the one that makes it writable; the rest, errors and
hang-ups, are reported unasked and stay.

The test whether anything readable was reported or is asked for looks for
`POLLIN`, `POLLPRI` and `POLLRDHUP`. What is struck is `kReadEvent`, which does
not contain `POLLRDHUP`. So if the other end has shut down its side, that bit
survives although reading is not asked for, and the loop resumes a coroutine
that does not wait.

## Main definitions

* `readClass`, `writeClass`: The two classes.
* `Events.left`: What is left of the report.
* `Events.Delivers`: What should be left.

## Theorems

* `left_read_asked`, `left_read_unasked`, `left_write_asked`,
  `left_write_unasked`, `left_outside`: What is left, class by class.
* `delivers_iff`: When it is what should be left.
* `rdhup_is_left`: When it is not.
-/

namespace Fasco

def readClass : UInt32 := pollIn ||| pollPri ||| pollRdHup
def writeClass : UInt32 := pollOut

namespace Events

variable {o : Events}

/-- The reported mask after the two deletions of `eventHandleAble`. -/
def left (o : Events) : UInt32 :=
  let m := if o.isRead && !o.originRead then o.mutable_ &&& ~~~kReadEvent else o.mutable_
  if o.isWrite && !o.originWrite then m &&& ~~~kWriteEvent else m

/-- What `eventHandleAble` should do: of each class it keeps what is reported
    if the class is asked for and nothing otherwise, it leaves the other bits
    alone, and it tells whether anything remains. -/
structure Delivers (o : Events) : Prop where
  read : o.eventHandleAble.2.isRead = true → o.eventHandleAble.2.originRead = true
  write : o.eventHandleAble.2.isWrite = true → o.eventHandleAble.2.originWrite = true
  outside : o.eventHandleAble.2.mutable_ &&& ~~~(readClass ||| writeClass)
    = o.mutable_ &&& ~~~(readClass ||| writeClass)
  readKept : o.originRead = true →
    o.eventHandleAble.2.mutable_ &&& readClass = o.mutable_ &&& readClass
  writeKept : o.originWrite = true →
    o.eventHandleAble.2.mutable_ &&& writeClass = o.mutable_ &&& writeClass
  result : o.eventHandleAble.1 = true ↔ o.eventHandleAble.2.mutable_ ≠ 0

theorem isRead_iff : o.isRead = true ↔ o.mutable_ &&& readClass ≠ 0 := bne_iff_ne

theorem isWrite_iff : o.isWrite = true ↔ o.mutable_ &&& writeClass ≠ 0 := bne_iff_ne

/-- The first deletion takes nothing from the writable class, so the second
    test sees what was reported. -/
theorem isWrite_deleteRead : (o.deleteEventMutable kReadEvent).isWrite = o.isWrite := by
  have h : (o.mutable_ &&& ~~~kReadEvent) &&& pollOut = o.mutable_ &&& pollOut :=
    Masks.not_and_and (by decide)
  simp only [isWrite, deleteEventMutable, containsAtLeastOneEvents, h]

theorem eventHandleAble_mod (h : o.state = .MOD) :
    o.eventHandleAble = (o.left != kNoneEvent, { o with mutable_ := o.left }) := by
  have hd : o.isdel = false := by simp [isdel, h]
  have hm : o.ismod = true := by simp [ismod, h]
  simp only [eventHandleAble, hd, hm, Bool.false_eq_true, if_false, if_true, left]
  by_cases h1 : (o.isRead && !o.originRead) = true
  · have hw : (o.deleteEventMutable kReadEvent).originWrite = o.originWrite := rfl
    simp only [if_pos h1, isWrite_deleteRead, hw]
    by_cases h2 : (o.isWrite && !o.originWrite) = true
    · simp only [if_pos h2, deleteEventMutable, h]
    · simp only [if_neg h2, deleteEventMutable, h]
  · simp only [if_neg h1]
    by_cases h2 : (o.isWrite && !o.originWrite) = true
    · simp only [if_pos h2, deleteEventMutable, h]
    · simp only [if_neg h2]

/-! ### Class by class -/

-- The second deletion concerns the writable class only.
theorem left_and {m : UInt32} (hm : kWriteEvent &&& m = 0) :
    o.left &&& m
      = (if o.isRead && !o.originRead then o.mutable_ &&& ~~~kReadEvent else o.mutable_) &&& m := by
  unfold left
  by_cases h2 : (o.isWrite && !o.originWrite) = true
  · rw [if_pos h2]
    exact Masks.not_and_and hm
  · rw [if_neg h2]

theorem left_read_asked (h : o.originRead = true) :
    o.left &&& readClass = o.mutable_ &&& readClass := by
  rw [left_and (by decide), if_neg (by simp [h])]

/-- Of a readable class that is not asked for, `POLLRDHUP` is left. -/
theorem left_read_unasked (h : o.originRead = false) :
    o.left &&& readClass = o.mutable_ &&& pollRdHup := by
  rw [left_and (by decide)]
  cases hr : o.isRead with
  | true =>
      rw [if_pos (by simp [h])]
      exact Masks.not_and_or (by decide)
  | false =>
      rw [if_neg (by simp)]
      -- Nothing readable was reported.
      have hnone : o.mutable_ &&& readClass = 0 := by
        by_contra hne
        rw [isRead_iff.mpr hne] at hr
        cases hr
      rw [hnone, Masks.and_eq_zero_mono hnone (by decide)]

theorem left_write_asked (h : o.originWrite = true) :
    o.left &&& writeClass = o.mutable_ &&& writeClass := by
  unfold left
  simp only []
  rw [if_neg (by simp [h])]
  by_cases h1 : (o.isRead && !o.originRead) = true
  · rw [if_pos h1]
    exact Masks.not_and_and (by decide)
  · rw [if_neg h1]

theorem left_write_unasked (h : o.originWrite = false) : o.left &&& writeClass = 0 := by
  unfold left
  simp only []
  cases hw : o.isWrite with
  | true =>
      rw [if_pos (by simp [h])]
      have hself := Masks.not_and_or (x := if o.isRead && !o.originRead
        then o.mutable_ &&& ~~~kReadEvent else o.mutable_) (a := kWriteEvent) (b := 0) (by decide)
      rw [UInt32.and_zero, UInt32.or_zero] at hself
      exact hself
  | false =>
      rw [if_neg (by simp)]
      have hnone : o.mutable_ &&& writeClass = 0 := by
        by_contra hne
        rw [isWrite_iff.mpr hne] at hw
        cases hw
      by_cases h1 : (o.isRead && !o.originRead) = true
      · rw [if_pos h1, Masks.not_and_and (by decide), hnone]
      · rw [if_neg h1, hnone]

theorem left_outside :
    o.left &&& ~~~(readClass ||| writeClass) = o.mutable_ &&& ~~~(readClass ||| writeClass) := by
  rw [left_and (by decide)]
  by_cases h1 : (o.isRead && !o.originRead) = true
  · rw [if_pos h1]
    exact Masks.not_and_and (by decide)
  · rw [if_neg h1]

/-! ### The whole report -/

/-- For all masks, what is left is what should be left exactly if reading is
    asked for or `POLLRDHUP` was not reported. -/
theorem delivers_iff {o : Events} (h : o.state = .MOD) :
    o.Delivers ↔ o.originRead = true ∨ o.mutable_ &&& pollRdHup = 0 := by
  have heq := eventHandleAble_mod h
  have hread : o.eventHandleAble.2.isRead = true ↔ o.left &&& readClass ≠ 0 := by
    rw [heq]
    exact isRead_iff
  have hasked : o.eventHandleAble.2.originRead = o.originRead := by rw [heq]; rfl
  constructor
  · intro hd
    cases hor : o.originRead with
    | true => exact .inl rfl
    | false =>
        right
        by_contra hne
        rw [← left_read_unasked hor] at hne
        have hbad := hd.read (hread.mpr hne)
        rw [hasked, hor] at hbad
        cases hbad
  · intro hok
    refine ⟨?_, ?_, ?_, ?_, ?_, ?_⟩
    · intro hr
      rw [hasked]
      rcases hok with hor | hhup
      · exact hor
      · by_contra hor
        rw [Bool.not_eq_true] at hor
        rw [hread, left_read_unasked hor] at hr
        exact hr hhup
    · rw [heq]
      intro hw
      by_contra how
      rw [Bool.not_eq_true] at how
      exact isWrite_iff.mp hw (left_write_unasked how)
    · rw [heq]
      exact left_outside
    · intro hor
      rw [heq]
      exact left_read_asked hor
    · intro how
      rw [heq]
      exact left_write_asked how
    · rw [heq]
      exact bne_iff_ne

/-- Writing is asked for, and the descriptor is readable. -/
theorem delivers_iff_writer :
    let o : Events :=
      { fd := 5, tid := 1, state := .MOD, eorigin := kWriteEvent, mutable_ := pollIn ||| pollOut }
    o.Delivers ↔ o.originRead = true ∨ o.mutable_ &&& pollRdHup = 0 :=
  delivers_iff rfl

/-- Nothing is asked for, and the other end has shut down its side: the report
    is taken for something readable, and the coroutine is resumed for it. -/
theorem rdhup_is_left :
    let o : Events :=
      { fd := 5, tid := 1, state := .MOD, eorigin := kNoneEvent, mutable_ := pollIn ||| pollRdHup }
    ¬ o.Delivers ∧ o.eventHandleAble.1 = true ∧ o.eventHandleAble.2.isRead = true ∧
      o.eventHandleAble.2.originRead = false := by
  refine ⟨fun h => ?_, by decide, by decide, by decide⟩
  have := h.read (by decide)
  cases this

end Events

end Fasco
