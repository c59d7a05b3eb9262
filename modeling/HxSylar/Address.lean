import HxSylar.ByteArray
import HxSylar.Lib.Bitwise
import HxSylar.Lib.Decimal

namespace HxSylar
open Lib

/-- `memcmp(a, b, n)`: the difference of the first two bytes that differ, as unsigned ones. -/
def memcmp : Nat → Text → Text → Int
  | n + 1, x :: a, y :: b => if x = y then memcmp n a b else (x.toNat : Int) - y.toNat
  | _, _, _ => 0

/-- What `Address` sees: the bytes from `getAddr()` on, of which `getAddrLen()` belong to it. -/
structure AddressBytes where
  getAddr : Text
  getAddrLen : Nat
  readable : getAddrLen ≤ getAddr.length
  deriving DecidableEq, Repr

namespace AddressBytes

def less (a rhs : AddressBytes) : Bool :=
  let minlen := min a.getAddrLen rhs.getAddrLen
  let result := memcmp minlen a.getAddr rhs.getAddr
  if result < 0 then true
  else if result > 0 then false
  else if a.getAddrLen < rhs.getAddrLen then true
  else false

def equal (a rhs : AddressBytes) : Bool :=
  a.getAddrLen = rhs.getAddrLen && memcmp a.getAddrLen a.getAddr rhs.getAddr = 0

def notEqual (a rhs : AddressBytes) : Bool := !a.equal rhs

end AddressBytes

/-- What C++ leaves undefined: a shift by 32 places or more, an index behind an array. -/
inductive Undefined
  | shift (count : UInt64)
  | element (index : Nat)
  deriving DecidableEq, Repr

/-- `CreateMask<T>(bits)` for a `T` of `size` bytes (address.cc:17-20). The count is a `size_t` and
wraps; the number that is shifted is an `int`, and so is the difference, which wraps too. -/
def createMask (size : Nat) (bits : UInt32) : Except Undefined Nat :=
  let count := UInt64.ofNat (size * 8) - bits.toUInt64
  if 32 ≤ count then .error (.shift count)
  else .ok (Text.toInt32 (Text.toInt32 (1 <<< count.toNat : Nat) - 1) % 2 ^ (8 * size)).toNat

/-- `byteswapOnLittleEndian` of an `n`-byte number (endian.h:63-80). -/
def byteswapOnLittleEndian (host : Endian) (n v : Nat) : Nat :=
  match host with
  | .little => byteswap n v
  | .big => v

def byteswap16 (host : Endian) (v : UInt16) : UInt16 :=
  UInt16.ofNat (byteswapOnLittleEndian host 2 v.toNat)

def byteswap32 (host : Endian) (v : UInt32) : UInt32 :=
  UInt32.ofNat (byteswapOnLittleEndian host 4 v.toNat)

def afInet : UInt16 := 2

def afInet6 : UInt16 := 10

def afUnix : UInt16 := 1

/-- `sockaddr_in`. The numbers are what the machine reads from the fields. -/
structure SockaddrIn where
  sinFamily : UInt16 := 0
  sinPort : UInt16 := 0
  sAddr : UInt32 := 0
  deriving DecidableEq, Repr

structure IPv4Address where
  mAddr : SockaddrIn
  deriving DecidableEq, Repr

namespace IPv4Address
variable (host : Endian)

def new (address : UInt32) (port : UInt16) : IPv4Address :=
  ⟨{ sinFamily := afInet, sinPort := byteswap16 host port, sAddr := byteswap32 host address }⟩

/-- The number that `insert` writes in four parts (address.cc:218). -/
def address (a : IPv4Address) : UInt32 := byteswap32 host a.mAddr.sAddr

def getPort (a : IPv4Address) : UInt32 := (byteswap16 host a.mAddr.sinPort).toUInt32

/-- `broadcastAddress` (address.cc:225-234); `none` is a null pointer. -/
def broadcastAddress (a : IPv4Address) (prefix_len : UInt32) :
    Except Undefined (Option IPv4Address) :=
  if prefix_len > 32 then .ok none
  else do
    let mask ← createMask 4 prefix_len
    let baddr := { a.mAddr with sAddr := a.mAddr.sAddr ||| byteswap32 host (UInt32.ofNat mask) }
    return some ⟨baddr⟩

def networdAddress (a : IPv4Address) (prefix_len : UInt32) :
    Except Undefined (Option IPv4Address) :=
  if prefix_len > 32 then .ok none
  else do
    let mask ← createMask 4 prefix_len
    let baddr := { a.mAddr with sAddr := a.mAddr.sAddr &&& byteswap32 host (UInt32.ofNat mask) }
    return some ⟨baddr⟩

def subnetMask (prefix_len : UInt32) : Except Undefined (Option IPv4Address) := do
  let mask ← createMask 4 prefix_len
  return some ⟨{ sinFamily := afInet, sAddr := ~~~byteswap32 host (UInt32.ofNat mask) }⟩

end IPv4Address

structure SockaddrIn6 where
  sin6Family : UInt16 := 0
  sin6Port : UInt16 := 0
  s6Addr : Vector UInt8 16 := Vector.replicate 16 0
  deriving DecidableEq, Repr

structure IPv6Address where
  mAddr : SockaddrIn6
  deriving DecidableEq, Repr

def writeByte (bytes : Vector UInt8 16) (i : Nat) (f : UInt8 → UInt8) :
    Except Undefined (Vector UInt8 16) :=
  if h : i < 16 then .ok (bytes.set i (f bytes[i])) else .error (.element i)

def fillBytes (b : UInt8) : Nat → Nat → Vector UInt8 16 → Except Undefined (Vector UInt8 16)
  | 0, _, bytes => .ok bytes
  | n + 1, i, bytes => do fillBytes b n (i + 1) (← writeByte bytes i fun _ => b)

namespace IPv6Address
variable (host : Endian)

def new (address : Vector UInt8 16) (port : UInt16) : IPv6Address :=
  ⟨{ sin6Family := afInet6, sin6Port := byteswap16 host port, s6Addr := address }⟩

def getPort (a : IPv6Address) : UInt32 := (byteswap16 host a.mAddr.sin6Port).toUInt32

def broadcastAddress (a : IPv6Address) (prefix_len : UInt32) : Except Undefined IPv6Address := do
  let i := (prefix_len / 8).toNat
  let mask ← createMask 1 (prefix_len % 8)
  let bytes ← writeByte a.mAddr.s6Addr i (· ||| UInt8.ofNat mask)
  let bytes ← fillBytes 0xff (16 - (i + 1)) (i + 1) bytes
  return ⟨{ a.mAddr with s6Addr := bytes }⟩

def networdAddress (a : IPv6Address) (prefix_len : UInt32) : Except Undefined IPv6Address := do
  let i := (prefix_len / 8).toNat
  let mask ← createMask 1 (prefix_len % 8)
  let bytes ← writeByte a.mAddr.s6Addr i (· &&& UInt8.ofNat mask)
  let bytes ← fillBytes 0x00 (16 - (i + 1)) (i + 1) bytes
  return ⟨{ a.mAddr with s6Addr := bytes }⟩

def subnetMask (prefix_len : UInt32) : Except Undefined IPv6Address := do
  let i := (prefix_len / 8).toNat
  let mask ← createMask 1 (prefix_len % 8)
  let bytes ← writeByte (Vector.replicate 16 0) i (fun _ => ~~~UInt8.ofNat mask)
  let bytes ← fillBytes 0xff i 0 bytes
  return ⟨{ sin6Family := afInet6, s6Addr := bytes }⟩

/-- `addr[i]` of `insert`, where two bytes are read as one number. -/
def addr (a : IPv6Address) (i : Nat) : UInt16 :=
  UInt16.ofNat (host.value [a.mAddr.s6Addr[2 * i]?.getD 0, a.mAddr.s6Addr[2 * i + 1]?.getD 0])

structure Inserted where
  os : Text
  usedZeros : Bool
  deriving DecidableEq, Repr

def insertGroup (a : IPv6Address) (st : Inserted) (i : Nat) : Inserted :=
  if a.addr host i = 0 ∧ !st.usedZeros then st
  else
    let st :=
      if i ≠ 0 ∧ a.addr host (i - 1) = 0 ∧ !st.usedZeros then ⟨st.os ++ text " :", true⟩ else st
    let os := if i ≠ 0 then st.os ++ text ":" else st.os
    { st with os := os ++ Text.hexInt (byteswap16 host (a.addr host i)).toNat }

/-- `insert` (address.cc:314-340): what it writes to the stream. -/
def insert (a : IPv6Address) : Text :=
  let st := (List.range 8).foldl (a.insertGroup host) ⟨text "[", false⟩
  let os := if !st.usedZeros ∧ a.addr host 7 = 0 then st.os ++ text "::" else st.os
  os ++ text "]" ++ Text.ofNat (byteswap16 host a.mAddr.sin6Port).toNat

end IPv6Address

structure SockaddrUn where
  sunFamily : UInt16 := 0
  sunPath : Vector UInt8 108 := Vector.replicate 108 0
  deriving DecidableEq, Repr

def sunPathSize : Nat := 108

def sunPathOffset : Nat := 2

structure UnixAddress where
  mAddr : SockaddrUn
  mLength : UInt32
  deriving DecidableEq, Repr

structure LogicError where
  what : Text
  deriving DecidableEq, Repr

namespace UnixAddress

/-- `UnixAddress(path)` (address.cc:357-369). What follows the `throw` is not reached. -/
def new (path : Text) : Except LogicError UnixAddress :=
  let mAddr : SockaddrUn := { sunFamily := afUnix }
  let mLength := UInt32.ofNat (path.length + 1)
  let mLength := if path[0]? = some 0 then mLength - 1 else mLength
  if mLength.toNat > sunPathSize then .error ⟨text "path too long "⟩ else .ok ⟨mAddr, mLength⟩

def getAddrLen (a : UnixAddress) : UInt32 := a.mLength

def setAddrLen (a : UnixAddress) (v : UInt32) : UnixAddress := { a with mLength := v }

/-- `getPath` (address.cc:380-390); `none` where it reads behind `sun_path`. -/
def getPath (a : UnixAddress) : Option Text :=
  let sunPath : Text := a.mAddr.sunPath.toList
  if sunPathOffset < a.mLength.toNat ∧ sunPath[0]? = some 0 then
    let n := a.mLength.toNat - sunPathOffset - 1
    if n ≤ sunPathSize - 1 then some (text "\\0" ++ sunPath.substr 1 n) else none
  else if (0 : UInt8) ∈ sunPath then some sunPath.cstr
  else none

end UnixAddress

end HxSylar
