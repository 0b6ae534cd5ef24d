import Fasco.Lib.Layout

/-!
# Addresses of Sockets

`NetAddress.cpp`, and the functions of `Socket.cpp` that take a `NetAddress`.
A `NetAddress` keeps an address twice: as the text and the port it was
constructed with, and in a union of a `sockaddr_in` and a `sockaddr_in6`,
which system calls are given a pointer to. The union is a piece of memory, and
both of its members start where it does.

What the system calls do is an input. `inet_pton` is a parameter, of which
only the sizes of its results are known. `accept` is the one of
`SysapiHook.cpp`, which hands the pointer on to the system call once on every
path that returns, and returns what that does. The port is stored by a machine
that has the lowest byte first.

The log is left out, and so are `state_` and the descriptor of a `Socket`,
which the system calls are the only ones to look at.

## Main definitions

* `SockLayout`, `sockaddrIn`, `sockaddrIn6`: The two structures.
* `InetPton`: What `inet_pton` is.
* `NetAddress`: An address.
* `NetAddress.construct`, `NetAddress.getIp`, `NetAddress.getPort`,
  `NetAddress.addrPtr`, `NetAddress.addrLen`: Its functions.
* `Socket.bind`, `Socket.connect`, `Socket.accept`: What a socket does with
  it.
* `SockCall`, `NetAddress.call`: Such a call, with what comes of it.
* `NetAddress.step`, `NetAddress.run`: Such calls, in any order.
-/

namespace Fasco

open Layout

def AF_INET : UInt16 := 2

def AF_INET6 : UInt16 := 10

/-- Where a socket address structure has its family, port and address. -/
structure SockLayout where
  size : Nat
  family : Field
  port : Field
  ip : Field
  family_size : family.size = 2
  port_size : port.size = 2
  family_port : port.Apart family
  family_ip : ip.Apart family
  port_ip : ip.Apart port
  family_in : family.In size
  port_in : port.In size
  ip_in : ip.In size

/-- `struct sockaddr_in`. -/
def sockaddrIn : SockLayout where
  size := 16
  family := ⟨0, 2⟩
  port := ⟨2, 2⟩
  ip := ⟨4, 4⟩
  family_size := rfl
  port_size := rfl
  family_port := by decide
  family_ip := by decide
  port_ip := by decide
  family_in := by decide
  port_in := by decide
  ip_in := by decide

/-- `struct sockaddr_in6`. The flow information is between the port and the
    address, and the scope after it. -/
def sockaddrIn6 : SockLayout where
  size := 28
  family := ⟨0, 2⟩
  port := ⟨2, 2⟩
  ip := ⟨8, 16⟩
  family_size := rfl
  port_size := rfl
  family_port := by decide
  family_ip := by decide
  port_ip := by decide
  family_in := by decide
  port_in := by decide
  ip_in := by decide

/-- The members of the union. -/
inductive SockMember where
  | addr
  | addr6
  deriving DecidableEq, Repr

def SockMember.layout : SockMember → SockLayout
  | .addr => sockaddrIn
  | .addr6 => sockaddrIn6

/-- `inet_pton`: the bytes of the address that a text denotes in a family, if
    any, in network order. -/
structure InetPton where
  pton : UInt16 → String → Option (List UInt8)
  size : ∀ text ip, pton AF_INET text = some ip → ip.length = 4
  size6 : ∀ text ip, pton AF_INET6 text = some ip → ip.length = 16

/-- `htobe16`, which takes an `int` modulo the range of two bytes. -/
def htobe16 (n : Int) : Nat := swap (n % 65536).toNat

/-- `class NetAddress`. -/
structure NetAddress where
  family : UInt16
  /-- The bytes of the union. -/
  mem : Nat → UInt8
  ip : String
  port : Int

namespace NetAddress

/-- A structure is zeroed and given a family, a port, and the address if
    `inet_pton` finds one. -/
def fill (N : InetPton) (L : SockLayout) (mem : Nat → UInt8) (family : UInt16) (port : Int)
    (ip : String) : Nat → UInt8 :=
  let mem := copy mem (List.replicate L.size 0)
  let mem := set mem L.family (toLE 2 family.toNat)
  let mem := set mem L.port (toLE 2 (htobe16 port))
  -- When it finds none the address stays zero, and nobody is told.
  match N.pton family ip with
  | none => mem
  | some bytes => set mem L.ip bytes

/-- The constructor, in memory that holds `mem`. -/
def construct (N : InetPton) (mem : Nat → UInt8) (family : UInt16) (port : Int) (ip : String) :
    NetAddress :=
  if family = AF_INET then
    { family := family, mem := fill N sockaddrIn mem family port ip, ip := ip, port := port }
  -- Every other family is filled in as the larger structure.
  else
    { family := family, mem := fill N sockaddrIn6 mem family port ip, ip := ip, port := port }

def getIp (a : NetAddress) : String := a.ip

def getPort (a : NetAddress) : Int := a.port

/-- The member of the union that the pointer is to. -/
def addrPtr (a : NetAddress) : SockMember :=
  if a.family = AF_INET then .addr
  else if a.family = AF_INET6 then .addr6
  else .addr6

def addrLen (a : NetAddress) : Nat :=
  if a.family = AF_INET then sockaddrIn.size
  else if a.family = AF_INET6 then sockaddrIn6.size
  else sockaddrIn6.size

/-- The bytes that a system call with `addrPtr()` and `addrLen()` is given. -/
def sockaddr (a : NetAddress) : List UInt8 := get a.mem ⟨0, a.addrLen⟩

end NetAddress

/-- What `accept` does: it fails, or it returns a descriptor and has the
    address of the peer. -/
inductive Accepted where
  | failed
  | conn (fd : Nat) (peer : List UInt8)
  deriving DecidableEq, Repr

/-- What the first two calls of `fcntl` in `SetNoBlockingOrExec` return. -/
structure FcntlAnswers where
  getfl : BitVec 32
  setfl : Int
  deriving DecidableEq, Repr

inductive FcntlCall where
  | getfl
  | setfl (flag : BitVec 32)
  | getfd
  | setfd (flag : BitVec 32)
  deriving DecidableEq, Repr

def O_NONBLOCK : BitVec 32 := 0x800

def FD_CLOEXEC : BitVec 32 := 1

/-- `SetNoBlockingOrExec`, with the calls of `fcntl` it makes. The flags of
    the descriptor are made out of the status flags: those that the third call
    returns are not looked at, and neither is what the fourth one returns. -/
def setNoBlockingOrExec (f : FcntlAnswers) : Bool × List FcntlCall :=
  let nflag := f.getfl ||| O_NONBLOCK
  let calls := [.getfl, .setfl nflag, .getfd]
  let nflag := nflag ||| FD_CLOEXEC
  let calls := if f.setfl = -1 then calls else calls ++ [.setfd nflag]
  if f.setfl = -1 then (false, calls) else (true, calls)

namespace Socket

/-- `bind`: the address the system call is given, and what `bind` returns if
    that returns `ret`. -/
def bind (addr : NetAddress) (ret : Int) : List UInt8 × Bool :=
  (addr.sockaddr, if ret = -1 then false else true)

/-- `connect`; `inprogress` says whether `errno` is `EINPROGRESS`. -/
def connect (addr : NetAddress) (ret : Int) (inprogress : Bool) : List UInt8 × Bool :=
  (addr.sockaddr, if ret = -1 then (if inprogress then true else false) else true)

/-- `accept`. The system call writes as much of the address of the peer as
    `len` allows. -/
def accept (addr : NetAddress) (noblockingexec : Bool) (k : Accepted) (f : FcntlAnswers) :
    NetAddress × Int :=
  let len := addr.addrLen
  match k with
  | .failed => (addr, -1)
  | .conn fd peer =>
    let addr := { addr with mem := copy addr.mem (peer.take len) }
    if !noblockingexec then (addr, fd)
    else if (setNoBlockingOrExec f).1 = false then (addr, fd)
    else (addr, fd)

end Socket

/-- A call that is given a `NetAddress`. -/
inductive SockCall where
  | bind (ret : Int)
  | connect (ret : Int) (inprogress : Bool)
  | accept (noblockingexec : Bool) (k : Accepted) (f : FcntlAnswers)
  deriving DecidableEq, Repr

/-- What comes of a call: the address its system call has been given, with
    what the function returns, or what `accept` returns. -/
inductive SockAnswer where
  | given (addr : List UInt8) (ret : Bool)
  | accepted (ret : Int)
  deriving DecidableEq, Repr

namespace NetAddress

/-- A call, which leaves the address to the calls after it. -/
def call (a : NetAddress) : SockCall → NetAddress × SockAnswer
  -- `bind` and `connect` take the address as `const`.
  | .bind ret =>
    let r := Socket.bind a ret
    (a, .given r.1 r.2)
  | .connect ret inprogress =>
    let r := Socket.connect a ret inprogress
    (a, .given r.1 r.2)
  | .accept noblockingexec k f =>
    let r := Socket.accept a noblockingexec k f
    (r.1, .accepted r.2)

/-- What a call leaves. -/
def step (a : NetAddress) (c : SockCall) : NetAddress := (a.call c).1

/-- The address after a list of calls. -/
def run (a : NetAddress) (as : List SockCall) : NetAddress := as.foldl step a

end NetAddress

end Fasco
