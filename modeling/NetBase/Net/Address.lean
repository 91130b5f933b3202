import Mathlib.Order.Fin.Basic

/-!
# Socket addresses

`SockAddress` and its classes from `src/net/address.cpp`: the byte images of `sockaddr_in`,
`sockaddr_in6` and `sockaddr_un`, their comparison, the text `host:port` and what sets an address
from it. A C string is the list of its characters in front of the terminator; the host is little
endian. What the C library does with the text of an address is a parameter.
-/

namespace NetBase.Net

abbrev Byte := Fin 256

/-! ## Byte order -/

/-- The low byte of a number. -/
def lowByte (x : Nat) : Byte := Fin.ofNat 256 x

/-- How a `uint16_t` lies in memory. -/
def bytes16 (x : UInt16) : Vector Byte 2 := #v[lowByte x.toNat, lowByte (x.toNat / 0x100)]

/-- How a `uint32_t` lies in memory. -/
def bytes32 (x : UInt32) : Vector Byte 4 :=
  #v[lowByte x.toNat, lowByte (x.toNat / 0x100), lowByte (x.toNat / 0x10000),
    lowByte (x.toNat / 0x1000000)]

def htons (x : UInt16) : UInt16 := UInt16.ofNat (x.toNat % 0x100 * 0x100 + x.toNat / 0x100)

def ntohs (x : UInt16) : UInt16 := htons x

/-- `ntohl` of the `s_addr` whose four bytes these are: the first one is the highest. -/
def ntohl (b : Vector Byte 4) : Nat :=
  (b.get 0).val * 0x1000000 + (b.get 1).val * 0x10000 + (b.get 2).val * 0x100 + (b.get 3).val

/-- `a.b.c.d` in decimal. -/
def dottedQuad (b : Vector Byte 4) : List Char :=
  Nat.toDigits 10 (b.get 0).val ++ '.' :: (Nat.toDigits 10 (b.get 1).val ++ '.' ::
    (Nat.toDigits 10 (b.get 2).val ++ '.' :: Nat.toDigits 10 (b.get 3).val))

/-! ## The classes -/

def afUnspec : UInt16 := 0
def afInet : UInt16 := 2
def afInet6 : UInt16 := 10

/-- What `sockaddr_in` and `sockaddr_in6` share: the port and the address are in network order. -/
structure SockaddrInet (n : Nat) where
  family : UInt16
  port : UInt16
  addr : Vector Byte n
  deriving DecidableEq

structure IPV4Address extends SockaddrInet 4 where
  sinZero : Vector Byte 8
  deriving DecidableEq

structure IPV6Address extends SockaddrInet 16 where
  flowinfo : UInt32
  scopeId : UInt32
  deriving DecidableEq

structure UnixAddress where
  family : UInt16
  sunPath : Vector Byte 108
  deriving DecidableEq

/-- The default constructor: `bzero`. -/
def IPV4Address.init : IPV4Address := ⟨⟨afUnspec, 0, Vector.replicate 4 0⟩, Vector.replicate 8 0⟩

def IPV6Address.init : IPV6Address := ⟨⟨afUnspec, 0, Vector.replicate 16 0⟩, 0, 0⟩

def UnixAddress.init : UnixAddress := ⟨afUnspec, Vector.replicate 108 0⟩

inductive SockAddress where
  | ipv4 (a : IPV4Address)
  | ipv6 (a : IPV6Address)
  | unix (a : UnixAddress)
  deriving DecidableEq

namespace SockAddress

def getAddrLen : SockAddress → Nat
  | ipv4 _ => 16
  | ipv6 _ => 28
  | unix _ => 110

/-- The bytes `getAddr` points to. -/
def getAddr : SockAddress → List Byte
  | ipv4 a => (bytes16 a.family ++ bytes16 a.port ++ a.addr ++ a.sinZero).toList
  | ipv6 a => (bytes16 a.family ++ bytes16 a.port ++ bytes32 a.flowinfo ++ a.addr ++
      bytes32 a.scopeId).toList
  | unix a => (bytes16 a.family ++ a.sunPath).toList

@[simp] theorem length_getAddr (a : SockAddress) : a.getAddr.length = a.getAddrLen := by
  cases a with
  | ipv4 a => exact Vector.length_toList
  | ipv6 a => exact Vector.length_toList
  | unix a => exact Vector.length_toList

/-- `memcmp`: the difference of the first bytes that differ, zero where the first `n` agree. -/
def memcmp : List Byte → List Byte → Nat → Int
  | a :: as, b :: bs, n + 1 => if a = b then memcmp as bs n else (a.val : Int) - b.val
  | _, _, _ => 0

/-- `operator<` -/
def less (a b : SockAddress) : Bool :=
  let minlen := min a.getAddrLen b.getAddrLen
  let result := memcmp a.getAddr b.getAddr minlen
  if result < 0 then true
  else if result > 0 then false
  else if a.getAddrLen < b.getAddrLen then true
  else false

/-- `operator==` -/
def equal (a b : SockAddress) : Bool :=
  a.getAddrLen == b.getAddrLen && memcmp a.getAddr b.getAddr a.getAddrLen == 0

/-- `operator!=` -/
def notEqual (a b : SockAddress) : Bool := !a.equal b

end SockAddress

/-! ## The text of a host and a port -/

/-- `std::invalid_argument` -/
structure InvalidArgument where
  what : String
  deriving DecidableEq, Repr

/-- `strrchr`: the index of the last `c`. -/
def strrchr (s : List Char) (c : Char) : Option Nat :=
  match s with
  | [] => none
  | d :: ds =>
    match strrchr ds c with
    | some i => some (i + 1)
    | none => if d = c then some 0 else none

structure HostAndPort where
  host : List Char
  port : List Char
  deriving DecidableEq, Repr

/-- `HostAndPortParser`; the copy of the string is always allocated. -/
def hostAndPortParser (hostAndPort : List Char) : Except InvalidArgument HostAndPort :=
  match strrchr hostAndPort ':' with
  | none =>
    .error ⟨"expected a host and port string of the form \"<host>:<port>\""⟩
  | some colon =>
    let host := hostAndPort.take colon
    let port := hostAndPort.drop (colon + 1)
    if host.head? = some '[' ∧ host.getLast? = some ']' then .ok ⟨host.dropLast.tail, port⟩
    else .ok ⟨host, port⟩

/-- The loop of `getPortFromString` over the rest of the port, with the number read so far. -/
def getPortFrom (port : String) : List Char → Nat → Except InvalidArgument UInt16
  | [], portNum => .ok (UInt16.ofNat portNum)
  | c :: cs, portNum =>
    if c > '9' ∨ c < '0' then .error ⟨s!"invalid port format, port str:{port}"⟩
    else
      let portNum := portNum * 10 + c.toNat - '0'.toNat
      if portNum ≥ 0x10000 then
        .error ⟨s!"invalid port format, out of range,port str:{port}"⟩
      else getPortFrom port cs portNum

def getPortFromString (port : List Char) : Except InvalidArgument UInt16 :=
  let str := String.ofList port
  if port.length > "65535".length then .error ⟨s!"invalid port format, port str:{str}"⟩
  else getPortFrom str port 0

/-! ## Setting an address -/

/-- Whether a call threw, and the address it leaves. -/
abbrev Call (σ : Type) := Except InvalidArgument Unit × σ

/-- `inet_pton`: the bytes it writes; where it does not return 1 it writes nothing. -/
abbrev Pton (n : Nat) := List Char → Option (Vector Byte n)

namespace SockaddrInet

variable {n : Nat} (af : UInt16) (pton : Pton n) (a : SockaddrInet n)

def setByHostAndNum (host : List Char) (port : UInt16) : Call (SockaddrInet n) :=
  match pton host with
  | none =>
    let str := String.ofList host
    (.error ⟨s!"host:{str} does not contain a character string representing " ++
      "a valid network address in the specified address family"⟩, a)
  | some b =>
    let a := { a with addr := b }
    let a := { a with port := htons port }
    (.ok (), { a with family := af })

def setByHostAndStr (host port : List Char) : Call (SockaddrInet n) :=
  match getPortFromString port with
  | .error e => (.error e, a)
  | .ok portNum => setByHostAndNum af pton a host portNum

def setByHostAndPort (hostAndPort : List Char) : Call (SockaddrInet n) :=
  match hostAndPortParser hostAndPort with
  | .error e => (.error e, a)
  | .ok p => setByHostAndStr af pton a p.host p.port

def setPort (port : UInt16) : SockaddrInet n := { a with port := htons port }

def getPort : UInt16 := ntohs a.port

end SockaddrInet

/-- What the classes use of the C library. -/
structure InetLib where
  inetPton4 : Pton 4
  inetPton6 : Pton 16
  inetNtop6 : Vector Byte 16 → Option (List Char)
  ifIndexToName : UInt32 → Option (List Char)

/-- The arguments of the three overloads. -/
inductive SetArgs where
  | hostAndPort (hostAndPort : List Char)
  | hostAndStr (host port : List Char)
  | hostAndNum (host : List Char) (port : UInt16)
  deriving DecidableEq, Repr

/-- A constructor's result: no address where the setter threw. -/
def constructed {σ : Type} (r : Call σ) : Except InvalidArgument σ := r.1.map fun _ => r.2

namespace SockaddrInet

variable {n : Nat} (af : UInt16) (pton : Pton n) (a : SockaddrInet n)

def set : SetArgs → Call (SockaddrInet n)
  | .hostAndPort s => setByHostAndPort af pton a s
  | .hostAndStr host port => setByHostAndStr af pton a host port
  | .hostAndNum host port => setByHostAndNum af pton a host port

end SockaddrInet

namespace IPV4Address

variable (lib : InetLib) (a : IPV4Address)

/-- A call on the shared fields leaves the others alone. -/
def within (r : Call (SockaddrInet 4)) : Call IPV4Address :=
  (r.1, { a with toSockaddrInet := r.2 })

def setByHostAndPort (hostAndPort : List Char) : Call IPV4Address :=
  a.within (a.toSockaddrInet.setByHostAndPort afInet lib.inetPton4 hostAndPort)

def setByHostAndStr (host port : List Char) : Call IPV4Address :=
  a.within (a.toSockaddrInet.setByHostAndStr afInet lib.inetPton4 host port)

def setByHostAndNum (host : List Char) (port : UInt16) : Call IPV4Address :=
  a.within (a.toSockaddrInet.setByHostAndNum afInet lib.inetPton4 host port)

def set : SetArgs → Call IPV4Address
  | .hostAndPort s => a.setByHostAndPort lib s
  | .hostAndStr host port => a.setByHostAndStr lib host port
  | .hostAndNum host port => a.setByHostAndNum lib host port

/-- `IPV4Address(host_and_port)` -/
def ofHostAndPort (hostAndPort : List Char) : Except InvalidArgument IPV4Address :=
  constructed (init.setByHostAndPort lib hostAndPort)

def setPort (port : UInt16) : IPV4Address :=
  { a with toSockaddrInet := a.toSockaddrInet.setPort port }

def getAddressStr : List Char :=
  let addrNum := ntohl a.addr
  Nat.toDigits 10 ((addrNum >>> 24) &&& 0xff) ++ '.' ::
    (Nat.toDigits 10 ((addrNum >>> 16) &&& 0xff) ++ '.' ::
      (Nat.toDigits 10 ((addrNum >>> 8) &&& 0xff) ++ '.' :: Nat.toDigits 10 (addrNum &&& 0xff)))

def toString : List Char := a.getAddressStr ++ ':' :: Nat.toDigits 10 (ntohs a.port).toNat

end IPV4Address

namespace IPV6Address

variable (lib : InetLib) (a : IPV6Address)

def within (r : Call (SockaddrInet 16)) : Call IPV6Address :=
  (r.1, { a with toSockaddrInet := r.2 })

def setByHostAndPort (hostAndPort : List Char) : Call IPV6Address :=
  a.within (a.toSockaddrInet.setByHostAndPort afInet6 lib.inetPton6 hostAndPort)

def setByHostAndStr (host port : List Char) : Call IPV6Address :=
  a.within (a.toSockaddrInet.setByHostAndStr afInet6 lib.inetPton6 host port)

def setByHostAndNum (host : List Char) (port : UInt16) : Call IPV6Address :=
  a.within (a.toSockaddrInet.setByHostAndNum afInet6 lib.inetPton6 host port)

def set : SetArgs → Call IPV6Address
  | .hostAndPort s => a.setByHostAndPort lib s
  | .hostAndStr host port => a.setByHostAndStr lib host port
  | .hostAndNum host port => a.setByHostAndNum lib host port

/-- `IPV6Address(host_and_port)` -/
def ofHostAndPort (hostAndPort : List Char) : Except InvalidArgument IPV6Address :=
  constructed (init.setByHostAndPort lib hostAndPort)

def setPort (port : UInt16) : IPV6Address :=
  { a with toSockaddrInet := a.toSockaddrInet.setPort port }

/-- `toHex` of `base/bytes.h` -/
def toHex (src : List Byte) : List Char :=
  src.flatMap fun c => [Nat.digitChar (c.val / 16), Nat.digitChar (c.val % 16)]

def getAddressStr : List Char :=
  match lib.inetNtop6 a.addr with
  | none => "invalid ipv6 address with hex:".toList ++ toHex a.addr.toList
  | some buffer =>
    if a.scopeId ≠ 0 then
      match lib.ifIndexToName a.scopeId with
      | some name => buffer ++ '%' :: name
      -- `snprintf` into `IFNAMSIZ` characters
      | none => buffer ++ '%' :: (Nat.toDigits 10 a.scopeId.toNat).take 15
    else buffer

def toString : List Char := a.getAddressStr lib ++ ':' :: Nat.toDigits 10 (ntohs a.port).toNat

end IPV6Address

end NetBase.Net
