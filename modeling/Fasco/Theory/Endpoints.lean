import Mathlib.Data.List.Infix
import Fasco.Core.NetAddress

/-!
# The Two Copies of an Address

A `NetAddress` says where it points in two ways: through `getIp` and
`getPort`, and through the structure that `addrPtr` selects. Both say an
`Endpoint`, an address and a port, and this file is about when it is the same.

`construct_encoded` is that the constructor writes into the structure what it
was given, in either family, so a new `NetAddress` says one thing. The port has
to fit in two bytes: `construct_agrees_iff` is for any `int`.

`construct_sockaddr` is what `bind` makes of it.

Afterwards the two go apart. No call changes what `getIp` and `getPort` return
(`step_named`), and `accept` writes the address of the peer into the structure
(`step_encoded`), so that the structure has the last peer accepted and the
getters have the constructor's arguments. `agrees_iff` is that for whole runs:
they agree at every moment exactly if no peer was at another endpoint than the
one the object was constructed with.

## Main definitions

* `latest`: What a list of writes leaves.
* `Endpoint`: An address and a port.
* `NetAddress.named`, `NetAddress.encoded`: What the getters say, and what the
  structure says.
* `NetAddress.Agrees`: They say the same.
* `SockCall.peer`: The endpoint a call writes.
* `inetPton`: An `inet_pton` for the dotted form.

## Theorems

* `latest_along_iff`: Nothing is ever there but what was there at first.
* `fill_get`, `construct_encoded`: What the constructor writes.
* `construct_agrees_iff`: A new address agrees if the port is in range.
* `construct_sockaddr`: What `bind` is given.
* `call_given`: What a call hands to its system call.
* `step_named`, `step_encoded`: What a call changes.
* `run_encoded`: The structure has the last peer accepted.
* `run_given`: And so do the calls after it.
* `run_agrees_iff`: The copies agree if that is at the endpoint of the
  constructor.
* `agrees_iff`: The two copies agree all along a run exactly if every peer is
  at the endpoint the object was constructed with.
-/

namespace Fasco

open Layout

/-! ### The last of a list of writes -/

section Latest

variable {α β : Type*} (w : α → Option β)

/-- What is there after the writes `w a`, the first of them over `e`. -/
def latest (e : β) (as : List α) : β := as.foldl (fun e a => (w a).getD e) e

theorem latest_append (e : β) (as bs : List α) :
    latest w e (as ++ bs) = latest w (latest w e as) bs := List.foldl_append

theorem latest_same {e : β} {as : List α} (h : ∀ a ∈ as, ∀ x, w a = some x → x = e) :
    latest w e as = e := by
  induction as with
  | nil => rfl
  | cons a as ih =>
      have hhead : (w a).getD e = e := by
        cases hw : w a with
        | none => rfl
        | some x => exact h a List.mem_cons_self x hw
      rw [latest, List.foldl_cons, hhead]
      exact ih (fun b hb => h b (List.mem_cons_of_mem a hb))

/-- Nothing else is ever there exactly if nothing else is written. -/
theorem latest_along_iff {e : β} {as : List α} :
    (∀ bs, bs <+: as → latest w e bs = e) ↔ ∀ a ∈ as, ∀ x, w a = some x → x = e := by
  constructor
  · intro h a ha x hx
    -- Look at what is there right after the write.
    obtain ⟨bs, cs, rfl⟩ := List.append_of_mem ha
    have hthen := h (bs ++ [a]) ⟨cs, by rw [List.append_assoc, List.singleton_append]⟩
    rw [latest_append, latest, List.foldl_cons, List.foldl_nil, hx] at hthen
    exact hthen
  · intro h bs hbs
    exact latest_same w (fun a ha => h a (hbs.subset ha))

end Latest

/-- An address, in network order, and a port. -/
structure Endpoint where
  ip : List UInt8
  port : Int
  deriving DecidableEq, Repr

/-- What a structure in memory encodes. -/
def SockLayout.endpoint (L : SockLayout) (mem : Nat → UInt8) : Endpoint :=
  { ip := get mem L.ip, port := ofBE (get mem L.port) }

/-- What a structure that is given as its bytes encodes. -/
def SockLayout.endpointOf (L : SockLayout) (bytes : List UInt8) : Endpoint :=
  { ip := part bytes L.ip, port := ofBE (part bytes L.port) }

/-- The structure for a family. -/
def layoutOf (family : UInt16) : SockLayout := if family = AF_INET then sockaddrIn else sockaddrIn6

/-- A whole structure of a family, as the kernel writes it. -/
structure IsSockaddr (family : UInt16) (bytes : List UInt8) : Prop where
  size : bytes.length = (layoutOf family).size
  family : part bytes (layoutOf family).family = toLE 2 family.toNat

instance (family : UInt16) (bytes : List UInt8) : Decidable (IsSockaddr family bytes) :=
  decidable_of_iff (bytes.length = (layoutOf family).size ∧
      part bytes (layoutOf family).family = toLE 2 family.toNat)
    ⟨fun h => ⟨h.1, h.2⟩, fun h => ⟨h.size, h.family⟩⟩

namespace NetAddress

/-- What the getters say. -/
def named (N : InetPton) (a : NetAddress) : Option Endpoint :=
  (N.pton a.family a.getIp).map (fun ip => { ip := ip, port := a.getPort })

/-- What the structure says that `addrPtr` selects. -/
def encoded (a : NetAddress) : Endpoint := a.addrPtr.layout.endpoint a.mem

/-- `getPort` is the port in the structure, and `getIp` denotes the address
    in it. -/
structure Agrees (N : InetPton) (a : NetAddress) : Prop where
  port : a.getPort = ofBE (get a.mem a.addrPtr.layout.port)
  ip : N.pton a.family a.getIp = some (get a.mem a.addrPtr.layout.ip)

theorem agrees_iff_named {N : InetPton} {a : NetAddress} :
    a.Agrees N ↔ a.named N = some a.encoded := by
  constructor
  · intro h
    rw [named, h.ip, h.port]
    rfl
  · intro h
    obtain ⟨ip, hip, he⟩ := Option.map_eq_some_iff.mp h
    have hi : ip = get a.mem a.addrPtr.layout.ip := congrArg Endpoint.ip he
    rw [hi] at hip
    exact ⟨congrArg Endpoint.port he, hip⟩

@[simp] theorem addrPtr_layout (a : NetAddress) : a.addrPtr.layout = layoutOf a.family := by
  unfold addrPtr layoutOf
  by_cases h : a.family = AF_INET
  · rw [if_pos h, if_pos h]
    rfl
  · rw [if_neg h, if_neg h, ite_self]
    rfl

@[simp] theorem addrLen_eq (a : NetAddress) : a.addrLen = (layoutOf a.family).size := by
  unfold addrLen layoutOf
  by_cases h : a.family = AF_INET
  · rw [if_pos h, if_pos h]
  · rw [if_neg h, if_neg h, ite_self]

/-! ### The constructor -/

theorem construct_eq (N : InetPton) (mem : Nat → UInt8) (family : UInt16) (port : Int)
    (ip : String) :
    construct N mem family port ip =
      { family := family, mem := fill N (layoutOf family) mem family port ip, ip := ip
        port := port } := by
  unfold construct layoutOf
  by_cases h : family = AF_INET
  · rw [if_pos h, if_pos h]
  · rw [if_neg h, if_neg h]

theorem size_layoutOf (N : InetPton) {family : UInt16}
    (hf : family = AF_INET ∨ family = AF_INET6) {text : String} {ip : List UInt8}
    (hip : N.pton family text = some ip) : ip.length = (layoutOf family).ip.size := by
  rcases hf with rfl | rfl
  · exact N.size text ip hip
  · exact N.size6 text ip hip

/-- What is in the fields of a structure that has been filled. -/
theorem fill_get (N : InetPton) (L : SockLayout) (mem : Nat → UInt8) {family : UInt16} (port : Int)
    {text : String} {ip : List UInt8} (hip : N.pton family text = some ip)
    (hsize : ip.length = L.ip.size) :
    let filled := fill N L mem family port text
    get filled L.ip = ip ∧ get filled L.port = toBE 2 (port % 65536).toNat ∧
      get filled L.family = toLE 2 family.toNat := by
  have hport : (toLE 2 (htobe16 port)).length = L.port.size := by
    rw [toLE_length, L.port_size]
  have hfam : (toLE 2 family.toNat).length = L.family.size := by
    rw [toLE_length, L.family_size]
  simp only [fill, hip]
  refine ⟨get_set_self _ _ hsize, ?_, ?_⟩
  · rw [get_set_apart _ L.port_ip hsize, get_set_self _ _ hport, htobe16, toLE_swap]
  · rw [get_set_apart _ L.family_ip hsize, get_set_apart _ L.family_port hport,
      get_set_self _ _ hfam]

/-- The structure gets the address that the text denotes, and the port modulo
    the range of two bytes. -/
theorem construct_encoded (N : InetPton) (mem : Nat → UInt8) {family : UInt16}
    (hf : family = AF_INET ∨ family = AF_INET6) (port : Int) {text : String} {ip : List UInt8}
    (hip : N.pton family text = some ip) :
    (construct N mem family port text).encoded = { ip := ip, port := port % 65536 } := by
  obtain ⟨hi, hp, _⟩ := fill_get N (layoutOf family) mem port hip (size_layoutOf N hf hip)
  rw [encoded, addrPtr_layout, construct_eq]
  simp only [SockLayout.endpoint]
  rw [hi, hp, ofBE_toBE]
  have hmod : ((port % 65536).toNat : Int) = port % 65536 := by omega
  rw [Nat.mod_eq_of_lt (by omega), hmod]

theorem construct_named (N : InetPton) (mem : Nat → UInt8) {family : UInt16} (port : Int)
    {text : String} {ip : List UInt8} (hip : N.pton family text = some ip) :
    (construct N mem family port text).named N = some { ip := ip, port := port } := by
  rw [construct_eq, named, getIp, getPort, hip]
  rfl

/-- A new address agrees with its structure exactly if its port fits. -/
theorem construct_agrees_iff (N : InetPton) (mem : Nat → UInt8) {family : UInt16}
    (hf : family = AF_INET ∨ family = AF_INET6) (port : Int) {text : String} {ip : List UInt8}
    (hip : N.pton family text = some ip) :
    (construct N mem family port text).Agrees N ↔ 0 ≤ port ∧ port ≤ 65535 := by
  rw [agrees_iff_named, construct_named N mem port hip, construct_encoded N mem hf port hip,
    Option.some.injEq, Endpoint.mk.injEq]
  constructor
  · rintro ⟨_, h⟩
    omega
  · intro h
    exact ⟨rfl, by omega⟩

/-- What a system call is given with `addrPtr` and `addrLen` is the whole
    structure. -/
theorem sockaddr_eq (a : NetAddress) :
    a.sockaddr = get a.mem ⟨0, (layoutOf a.family).size⟩ := by
  rw [sockaddr, addrLen_eq]

theorem sockaddr_endpoint (a : NetAddress) :
    (layoutOf a.family).endpointOf a.sockaddr = a.encoded := by
  rw [SockLayout.endpointOf, sockaddr_eq, part_get _ (layoutOf a.family).ip_in,
    part_get _ (layoutOf a.family).port_in, encoded, addrPtr_layout]
  rfl

/-- So `bind` binds a socket to the address and the port that the object was
    constructed with. -/
theorem construct_sockaddr (N : InetPton) (mem : Nat → UInt8) {family : UInt16}
    (hf : family = AF_INET ∨ family = AF_INET6) (port : Int) {text : String} {ip : List UInt8}
    (hip : N.pton family text = some ip) (ret : Int) :
    let bound := (Socket.bind (construct N mem family port text) ret).1
    IsSockaddr family bound ∧
      (layoutOf family).endpointOf bound = { ip := ip, port := port % 65536 } := by
  intro bound
  have hfam : (construct N mem family port text).family = family := by rw [construct_eq]
  have hbound := sockaddr_eq (construct N mem family port text)
  have hend := sockaddr_endpoint (construct N mem family port text)
  rw [hfam] at hbound hend
  rw [construct_encoded N mem hf port hip] at hend
  refine ⟨⟨?_, ?_⟩, hend⟩
  · exact (congrArg List.length hbound).trans (get_length _ _)
  · change part (construct N mem family port text).sockaddr _ = _
    rw [hbound, part_get _ (layoutOf family).family_in, construct_eq]
    exact (fill_get N (layoutOf family) mem port hip (size_layoutOf N hf hip)).2.2

end NetAddress

/-! ### Calls -/

/-- The endpoint that a call writes into the structure. -/
def SockCall.peer (family : UInt16) : SockCall → Option Endpoint
  | .accept _ (.conn _ bytes) _ => some ((layoutOf family).endpointOf bytes)
  | _ => none

/-- A peer is of the family of the socket. -/
def SockCall.OfFamily (family : UInt16) : SockCall → Prop
  | .accept _ (.conn _ bytes) _ => IsSockaddr family bytes
  | _ => True

instance (family : UInt16) : ∀ c : SockCall, Decidable (c.OfFamily family)
  | .bind _ => isTrue trivial
  | .connect _ _ => isTrue trivial
  | .accept _ .failed _ => isTrue trivial
  | .accept _ (.conn _ bytes) _ => inferInstanceAs (Decidable (IsSockaddr family bytes))

namespace NetAddress

/-- What `accept` does to the address does not depend on its flag. -/
theorem accept_conn (a : NetAddress) (b : Bool) (fd : Nat) (bytes : List UInt8)
    (f : FcntlAnswers) :
    Socket.accept a b (.conn fd bytes) f
      = ({ a with mem := copy a.mem (bytes.take a.addrLen) }, (fd : Int)) := by
  unfold Socket.accept
  simp only [ite_self]

/-- What `bind` and `connect` hand on is the structure as it is then. -/
theorem call_given {a : NetAddress} {c : SockCall} {bytes : List UInt8} {ret : Bool}
    (h : (a.call c).2 = .given bytes ret) : bytes = a.sockaddr := by
  cases c with
  | bind r =>
      injection h with h _
      exact h.symm
  | connect r p =>
      injection h with h _
      exact h.symm
  | accept b k f => cases h

/-- No call changes the family, the text or the number. -/
theorem step_named (N : InetPton) (a : NetAddress) (c : SockCall) :
    (a.step c).named N = a.named N ∧ (a.step c).family = a.family := by
  cases c with
  | bind ret => exact ⟨rfl, rfl⟩
  | connect ret inprogress => exact ⟨rfl, rfl⟩
  | accept b k f =>
      cases k with
      | failed => exact ⟨rfl, rfl⟩
      | conn fd bytes =>
          rw [step, call, accept_conn]
          exact ⟨rfl, rfl⟩

/-- `accept` puts the endpoint of the peer into the structure. -/
theorem step_encoded (a : NetAddress) {c : SockCall} (hc : c.OfFamily a.family) :
    (a.step c).encoded = (c.peer a.family).getD a.encoded := by
  cases c with
  | bind ret => rfl
  | connect ret inprogress => rfl
  | accept b k f =>
      cases k with
      | failed => rfl
      | conn fd bytes =>
          have hsize : bytes.length = (layoutOf a.family).size := hc.size
          rw [step, call, accept_conn, encoded, addrPtr_layout, addrLen_eq,
            List.take_of_length_le (Nat.le_of_eq hsize)]
          simp only [SockLayout.endpoint, SockCall.peer, Option.getD_some, SockLayout.endpointOf]
          -- The peer is written whole, so every field is a part of it.
          rw [get_copy _ (by rw [hsize]; exact (layoutOf a.family).ip_in),
            get_copy _ (by rw [hsize]; exact (layoutOf a.family).port_in)]

/-- The getters have the arguments of the constructor and the structure has
    the last peer. -/
theorem run_named (N : InetPton) (a : NetAddress) (as : List SockCall) :
    (a.run as).named N = a.named N ∧ (a.run as).family = a.family := by
  induction as generalizing a with
  | nil => exact ⟨rfl, rfl⟩
  | cons c as ih =>
      obtain ⟨hn, hf⟩ := step_named N a c
      obtain ⟨hn', hf'⟩ := ih (a.step c)
      exact ⟨hn'.trans hn, hf'.trans hf⟩

theorem run_encoded (N : InetPton) (a : NetAddress) {as : List SockCall}
    (has : ∀ c ∈ as, c.OfFamily a.family) :
    (a.run as).encoded = latest (SockCall.peer a.family) a.encoded as := by
  induction as generalizing a with
  | nil => rfl
  | cons c as ih =>
      have hf := (step_named N a c).2
      have hrest := ih (a.step c) (fun c hc => by
        rw [hf]
        exact has c (List.mem_cons_of_mem _ hc))
      rw [run, List.foldl_cons, latest, List.foldl_cons]
      rw [hf, step_encoded a (has c List.mem_cons_self)] at hrest
      exact hrest

end NetAddress

section Runs

variable (N : InetPton) (mem : Nat → UInt8) {family : UInt16}
variable (hf : family = AF_INET ∨ family = AF_INET6) {port : Int}
variable (h0 : 0 ≤ port) (h1 : port ≤ 65535) {text : String} {ip : List UInt8}
variable (hip : N.pton family text = some ip) {as : List SockCall}
variable (has : ∀ c ∈ as, c.OfFamily family)

include hf h0 h1 hip has

/-- After a run the copies agree exactly if the last peer, if there was one,
    is at the endpoint the object was constructed with. -/
theorem run_agrees_iff :
    ((NetAddress.construct N mem family port text).run as).Agrees N ↔
      latest (SockCall.peer family) { ip := ip, port := port } as
        = { ip := ip, port := port } := by
  have hfam : (NetAddress.construct N mem family port text).family = family := by
    rw [NetAddress.construct_eq]
  have hport : port % 65536 = port := by omega
  have henc := NetAddress.construct_encoded N mem hf port hip
  rw [hport] at henc
  rw [← hfam] at has
  rw [NetAddress.agrees_iff_named, (NetAddress.run_named N _ as).1,
    NetAddress.construct_named N mem port hip, NetAddress.run_encoded N _ has, hfam, henc,
    Option.some.injEq]
  exact eq_comm

/-- After a run `bind` and `connect` reach for the last peer, and for the
    endpoint the object was constructed with only if there was none. -/
theorem run_given {c : SockCall} {bytes : List UInt8} {ret : Bool}
    (hc : (((NetAddress.construct N mem family port text).run as).call c).2
      = .given bytes ret) :
    (layoutOf family).endpointOf bytes
      = latest (SockCall.peer family) { ip := ip, port := port } as := by
  have hfam : (NetAddress.construct N mem family port text).family = family := by
    rw [NetAddress.construct_eq]
  have hport : port % 65536 = port := by omega
  have henc := NetAddress.construct_encoded N mem hf port hip
  rw [hport] at henc
  rw [← hfam] at has
  have hend := NetAddress.sockaddr_endpoint
    ((NetAddress.construct N mem family port text).run as)
  rw [(NetAddress.run_named N _ as).2, NetAddress.run_encoded N _ has, hfam, henc] at hend
  rw [NetAddress.call_given hc]
  exact hend

/-- An address that was constructed for a text that `inet_pton` accepts and a
    port in range agrees with its structure at every moment of a run exactly
    if every peer that was accepted into it is at the address and the port it
    was constructed with. -/
theorem agrees_iff :
    (∀ bs, bs <+: as → ((NetAddress.construct N mem family port text).run bs).Agrees N) ↔
      ∀ c ∈ as, ∀ e, c.peer family = some e → e = { ip := ip, port := port } := by
  rw [← latest_along_iff]
  exact forall_congr' (fun bs => imp_congr_right (fun hbs =>
    run_agrees_iff N mem hf h0 h1 hip (fun c hc => has c (hbs.subset hc))))

end Runs

/-! ### An `inet_pton` -/

/-- A number of one to three digits, if it is at most 255. -/
def octet (digits : List Char) : Option UInt8 :=
  let n := digits.foldl (fun n c => n * 10 + (c.toNat - '0'.toNat)) 0
  if digits ≠ [] ∧ digits.length ≤ 3 ∧ digits.all Char.isDigit = true ∧ n ≤ 255 then
    some (UInt8.ofNat n)
  else none

/-- Four numbers with dots between them. -/
def dotted (text : String) : Option (List UInt8) :=
  match (text.toList.splitOn '.').map octet with
  | [some a, some b, some c, some d] => some [a, b, c, d]
  | _ => none

theorem dotted_length {text : String} {ip : List UInt8} (h : dotted text = some ip) :
    ip.length = 4 := by
  unfold dotted at h
  split at h
  · injection h with h
    rw [← h]
    rfl
  · cases h

/-- `inet_pton` for `AF_INET`. Texts of the other family are not read. -/
def inetPton : InetPton where
  pton family text := if family = AF_INET then dotted text else none
  size text ip h := by
    rw [if_pos rfl] at h
    exact dotted_length h
  size6 text ip h := by
    rw [if_neg (by decide)] at h
    cases h

/-- 127.0.0.1 and port 8899, as the kernel writes it. -/
def loopback8899 : List UInt8 := [2, 0, 34, 195, 127, 0, 0, 1, 0, 0, 0, 0, 0, 0, 0, 0]

/-- A default address is bound, an `accept` fails, and a peer is accepted that
    is at the address and the port of the object. -/
theorem agrees_iff_loopback :
    ((NetAddress.construct inetPton (fun _ => 0xff) AF_INET 8899 "127.0.0.1").run
      [.bind 0, .accept false .failed ⟨0, 0⟩,
        .accept true (.conn 5 loopback8899) ⟨2, 0⟩]).Agrees inetPton := by
  have hip : inetPton.pton AF_INET "127.0.0.1" = some [127, 0, 0, 1] := by decide
  exact (agrees_iff inetPton (fun _ => 0xff) (Or.inl rfl) (by decide) (by decide) hip
    (by decide)).mpr (by decide) _ (List.prefix_refl _)

/-- 192.0.2.7 and port 40000. -/
def peer40000 : List UInt8 := [2, 0, 156, 64, 192, 0, 2, 7, 0, 0, 0, 0, 0, 0, 0, 0]

/-- A default address that a peer has been accepted into still names itself,
    and not the peer. -/
theorem peer_not_named :
    let a := (NetAddress.construct inetPton (fun _ => 0xff) AF_INET 8899 "127.0.0.1").run
      [.accept false (.conn 5 peer40000) ⟨0, 0⟩]
    a.getPort = 8899 ∧ a.getIp = "127.0.0.1" ∧
      a.encoded = { ip := [192, 0, 2, 7], port := 40000 } ∧ ¬ a.Agrees inetPton := by
  intro a
  refine ⟨rfl, rfl, by decide, fun h => ?_⟩
  have hport := h.port
  revert hport
  decide

end Fasco
