import Fasco.Lib.X86

/-!
# The Context Switch

`swap.S` and `Mcontext.cpp`, for the two targets they are written for. A
context is an array of saved registers, followed by the size and the address
of the stack it is to run on. `mco_swap(a, b)` fills the array of `a` with
`push` and empties that of `b` with `pop`, with the stack pointer as the
cursor; the last two slots are the return address and the stack pointer, and
the return address goes back on the stack that is switched to, for `ret`.
`McontextMake` prepares an array by hand, so that a switch to it enters a
function.

The code is that of the file, in its order and with its displacements. On
x86_64 the arguments are in registers; on i386 they are on the stack above the
return address. The state is the one after the `call`, with the return address
on top of the stack.

## Main definitions

* `Target`: The two targets, with their words, slots and conventions.
* `Target.mcontextInit`, `Target.mcontextMake`: The functions of
  `Mcontext.cpp`.
* `Target.mcoSwap`: The code of `mco_swap`.
-/

namespace Fasco

open X86

inductive Target where
  | i386
  | x86_64
  deriving DecidableEq, Repr

namespace Target

/-- `sizeof(void *)`. -/
abbrev bytes : Target → Nat
  | .i386 => 4
  | .x86_64 => 8

abbrev Word (T : Target) := X86.Word T.bytes

/-- The registers in the order of their slots, from `EAX` and `RAX` on. -/
def saved : Target → List Reg
  | .i386 => [.ax, .bx, .cx, .dx, .di, .si, .bp]
  | .x86_64 =>
    [.ax, .bx, .cx, .dx, .di, .si, .bp, .r8, .r9, .r10, .r11, .r12, .r13, .r14, .r15]

/-- `RDI`. -/
def slotDi : Nat := 4

/-- `ERET` and `RET`. -/
def slotRet : Target → Nat
  | .i386 => 7
  | .x86_64 => 15

/-- `ESP` and `RSP`. -/
def slotSp : Target → Nat
  | .i386 => 8
  | .x86_64 => 16

/-- The length of `regs`. -/
def slots : Target → Nat
  | .i386 => 9
  | .x86_64 => 17

/-- `sizeof(ctx->regs)`. -/
def regsSize (T : Target) : Nat := T.bytes * T.slots

/-- `&ctx->regs[k]`. -/
def slotAddr (T : Target) (ctx : T.Word) (k : Nat) : T.Word :=
  ctx + BitVec.ofNat (8 * T.bytes) (T.bytes * k)

/-- `sizeof(Mcontext)`: `regs`, `ss_size`, `ss_sp`. -/
def contextSize (T : Target) : Nat := T.bytes * (T.slots + 2)

/-- `ctx->ss_size`. -/
def ssSize (T : Target) (m : Mem T.bytes) (ctx : T.Word) : T.Word :=
  load m (T.slotAddr ctx T.slots)

/-- `ctx->ss_sp`. -/
def ssSp (T : Target) (m : Mem T.bytes) (ctx : T.Word) : T.Word :=
  load m (T.slotAddr ctx (T.slots + 1))

/-- The first argument, at the entry of a function. -/
def arg0 : (T : Target) → State T.bytes → T.Word
  | .i386, s => load s.mem (s.reg .sp + 4)
  | .x86_64, s => s.reg .di

def arg1 : (T : Target) → State T.bytes → T.Word
  | .i386, s => load s.mem (s.reg .sp + 8)
  | .x86_64, s => s.reg .si

/-- The bytes on the stack that a call with two arguments is made with: the
    return address, and the arguments if they are there. -/
def frameSize : Target → Nat
  | .i386 => 12
  | .x86_64 => 8

/-- The registers a function leaves as they are. -/
def calleeSaved : Target → List Reg
  | .i386 => [.bx, .bp, .si, .di]
  | .x86_64 => [.bx, .bp, .r12, .r13, .r14, .r15]

/-! ### `Mcontext.cpp` -/

/-- `memset(ctx->regs, 0, sizeof(ctx->regs))`. -/
def clearRegs (T : Target) (m : Mem T.bytes) (ctx : T.Word) : Mem T.bytes :=
  storeWords m ctx (List.replicate T.slots 0)

/-- `McontextInit`. -/
def mcontextInit (T : Target) (m : Mem T.bytes) (ctx : T.Word) : Mem T.bytes :=
  storeWords m ctx (List.replicate (T.slots + 2) 0)

/-- The address in the stack that `McontextMake` aligns: where the argument
    goes on i386. -/
def stackTop : (T : Target) → T.Word → T.Word → T.Word
  | .i386, sp, size => (sp + size - 4) &&& BitVec.ofInt _ (-16)
  | .x86_64, sp, size => (sp + size - 1) &&& BitVec.ofInt _ (-16)

/-- `McontextMake(ctx, pfn, s)`. -/
def mcontextMake : (T : Target) → Mem T.bytes → T.Word → T.Word → T.Word → Mem T.bytes
  | .i386, m, ctx, pfn, s =>
    let m := clearRegs .i386 m ctx
    let sp := stackTop .i386 (ssSp .i386 m ctx) (ssSize .i386 m ctx)
    let m := store m sp s
    let m := store m (slotAddr .i386 ctx (slotSp .i386)) (sp - 4)
    store m (slotAddr .i386 ctx (slotRet .i386)) pfn
  | .x86_64, m, ctx, pfn, s =>
    let m := clearRegs .x86_64 m ctx
    let sp := stackTop .x86_64 (ssSp .x86_64 m ctx) (ssSize .x86_64 m ctx)
    let m := store m (slotAddr .x86_64 ctx slotDi) s
    let m := store m (slotAddr .x86_64 ctx (slotSp .x86_64)) (sp - 8)
    store m (slotAddr .x86_64 ctx (slotRet .x86_64)) pfn

/-! ### `swap.S` -/

/-- `mco_swap`. -/
def mcoSwap : Target → List Instr
  | .i386 =>
    [.lea 4 .sp .ax,
      .load 4 .sp .sp,
      .lea 36 .sp .sp,
      .push .ax,
      .pushMem (-4) .ax,
      .push .bp, .push .si,
      .push .di, .push .dx, .push .cx, .push .bx, .push .ax,
      .load 4 .ax .sp,
      .pop .ax, .pop .bx, .pop .cx, .pop .dx, .pop .di,
      .pop .si, .pop .bp, .pop .ax, .pop .sp,
      .push .ax,
      .xorl .ax .ax,
      .ret]
  | .x86_64 =>
    [.lea 8 .sp .ax,
      .lea 136 .di .sp,
      .push .ax,
      .pushMem (-8) .ax,
      .push .r15, .push .r14, .push .r13, .push .r12, .push .r11, .push .r10, .push .r9,
      .push .r8, .push .bp, .push .si, .push .di, .push .dx, .push .cx, .push .bx, .push .ax,
      .mov .si .sp,
      .pop .ax, .pop .bx, .pop .cx, .pop .dx, .pop .di, .pop .si, .pop .bp, .pop .r8, .pop .r9,
      .pop .r10, .pop .r11, .pop .r12, .pop .r13, .pop .r14, .pop .r15,
      .pop .ax,
      .pop .sp,
      .push .ax,
      .xorl .ax .ax,
      .ret]

end Target

end Fasco
