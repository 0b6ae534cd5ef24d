import Fasco.Core.Routine
import Fasco.Core.Swap

/-!
# Starting a Coroutine on a Target

`Core.Routine` has `McontextMake` as a change of a context alone, which is
what it is on x86_64. On i386 it also writes the argument of `CoroutineRun`,
the address of the coroutine, into the stack the context is for, four bytes
below the top and rounded down to a multiple of sixteen. `McoResume` and
`MainMco` are given here once more with that write, with the target as an
argument.

## Main definitions

* `Target.makeMem`: What `McontextMake` does to memory outside of the context.
* `World.mainMcoOn`, `World.mcoResumeOn`: `MainMco` and `McoResume`.
-/

namespace Fasco

/-- `(ss_sp + ss_size - sizeof(void *)) & -16` on i386. -/
def argTop (ssSp ssSize : Nat) : Nat := (ssSp + ssSize + (2 ^ 32 - 4)) % 2 ^ 32 / 16 * 16

/-- The bytes of an argument on i386, the lowest first. -/
def argBytes (c : McoRef) : List UInt8 :=
  [.ofNat c, .ofNat (c / 2 ^ 8), .ofNat (c / 2 ^ 16), .ofNat (c / 2 ^ 24)]

/-- `McontextMake(ctx, CoroutineRun, c)`, for a context with the given stack. -/
def Target.makeMem (T : Target) (mem : Nat → UInt8) (ssSp ssSize : Nat) (c : McoRef) :
    Nat → UInt8 :=
  match T with
  | .i386 => writeBytes mem (argTop ssSp ssSize) (argBytes c)
  | .x86_64 => mem

namespace World

/-- `McontextMake` on the context of `c`, with record `r`. -/
def makeOn (T : Target) (w : World) (c : McoRef) (r : McoRoutine) : World :=
  match r.coctx.ctx with
  | none => w
  | some m => { w with mem := T.makeMem w.mem m.ssSp m.ssSize c }

/-- `MainMco` on thread `t`. -/
def mainMcoOn (T : Target) (w : World) (t : Tid) (e : CallSite) : World :=
  if (w.callstack t).index = 0 then
    { (w.mainMco t e).1 with
      mem := T.makeMem w.mem e.mainBlk (w.mgr t).privateSize e.main }
  else w

/-- `McoResume(co)` on thread `t`. -/
def mcoResumeOn (T : Target) (w : World) (t : Tid) (co : Option McoRef) (e : CallSite) :
    Except Fault World :=
  match co with
  | none => .ok w
  | some c =>
    match w.co c with
    | none => .error .badPointer
    | some r =>
      if r.running || r.finished then .ok w
      else
        let w := w.mainMcoOn T t e
        match (w.callstack t).fromTop 1 with
        | none => .error .badPointer
        | some cur =>
          match w.co cur with
          | none => .error .badPointer
          | some rcur =>
            if rcur.sink = some c then w.mcoYield t (some cur) e.sp
            else if r.start then w.pushCallstack t c r e.sp
            else
              match w.initMcoContext t c r e.blk with
              | (false, w) => .ok w
              | (true, w) =>
                match w.co c with
                | none => .error .badPointer
                | some r =>
                  (w.makeOn T c r).pushCallstack t c (madeContext c { r with start := true }) e.sp

end World

end Fasco
