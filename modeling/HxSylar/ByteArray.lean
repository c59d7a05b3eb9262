import HxSylar.Lib.Bytes
import HxSylar.Lib.Chunks
import HxSylar.Lib.Effect
import HxSylar.Lib.Hex
import HxSylar.Lib.Machine
import HxSylar.Lib.Text

namespace HxSylar

inductive Endian
  | little
  | big
  deriving DecidableEq, Repr

def Endian.bytes (order : Endian) (n v : Nat) : List UInt8 :=
  match order with
  | .little => Lib.leBytes n v
  | .big => (Lib.leBytes n v).reverse

def Endian.value (order : Endian) (bytes : List UInt8) : Nat :=
  match order with
  | .little => Lib.leValue bytes
  | .big => Lib.leValue bytes.reverse

/-- The bytes behind `Node::ptr`; `Node::size` is their number. -/
abbrev Node := List UInt8

/-- What new memory holds: byte `j` of the node that is put at place `i` of the chain. -/
abbrev Garbage := Nat → Nat → UInt8

def Node.new (size : Nat) (fill : Nat → UInt8) : Node := (List.range size).map fill

/-- `ByteArray` (bytearray.h:10-93): the chain from `m_root`, and the place in it of `m_cur`, `none`
for a null pointer. Memory never runs out. -/
structure ByteArray where
  baseSize : Nat
  position : Nat := 0
  capacity : Nat
  size : Nat := 0
  endian : Endian := .big
  nodes : List Node
  cur : Option Nat := some 0
  deriving DecidableEq, Repr

/-- A null node is dereferenced at the cost of the process; the two others are exceptions. -/
inductive Failure
  | outOfRange (what : String)
  | lengthError
  | nullNode
  deriving DecidableEq, Repr

abbrev Op := EStateM Failure ByteArray

structure Iovec where
  node : Nat
  offset : Nat
  len : Nat
  deriving DecidableEq, Repr

def sizeSub (a b : Nat) : Nat := if b ≤ a then a - b else 2 ^ 64 - (b - a)

namespace ByteArray

def create (baseSize : Nat) (garbage : Garbage) : ByteArray where
  baseSize := baseSize
  capacity := baseSize
  nodes := [Node.new baseSize (garbage 0)]

def getReadSize (b : ByteArray) : Nat := sizeSub b.size b.position

def getCapacity (b : ByteArray) : Nat := sizeSub b.capacity b.position

def nodeAt (b : ByteArray) (i : Nat) : Option Nat := if i < b.nodes.length then some i else none

def isLittleEndian (b : ByteArray) : Bool := b.endian = .little

/-- `setIsLittleEndian` (bytearray.cc:42-47): the last assignment is always made. -/
def setIsLittleEndian (val : Bool) : Op Unit := fun b =>
  let b := if val then { b with endian := .little } else b
  .ok () { b with endian := .big }

/-- `addCapacity` (bytearray.cc:453-484). The quotient is taken as exact. -/
def addCapacity (garbage : Garbage) (size : Nat) (b : ByteArray) : ByteArray :=
  if size = 0 then b
  else
    let oldCap := b.getCapacity
    if size ≤ oldCap then b
    else
      let size := size - oldCap
      let count := (size + b.baseSize - 1) / b.baseSize
      let first := b.nodes.length
      let fresh := (List.range count).map (fun i => Node.new b.baseSize (garbage (first + i)))
      let b := { b with nodes := b.nodes ++ fresh, capacity := b.capacity + count * b.baseSize }
      if oldCap = 0 then { b with cur := b.nodeAt first } else b

/-- The loop of `write` (bytearray.cc:303-322), with how many nodes `m_cur` moved on. -/
def copyIn (npos : Nat) (data : List UInt8) : List Node → Option (List Node × Nat)
  | [] => none
  | n :: ns =>
    let ncap := n.length - npos
    if data.length ≤ ncap then
      let n' := n.take npos ++ data ++ n.drop (npos + data.length)
      some (n' :: ns, if n.length = npos + data.length then 1 else 0)
    else
      (copyIn 0 (data.drop ncap) ns).map (fun r =>
        ((n.take npos ++ data.take ncap) :: r.1, r.2 + 1))

/-- The loop of `read` (bytearray.cc:357-375, 385-403), with how far the cursor moved on. -/
def copyOut (npos size : Nat) : List Node → Option (List UInt8 × Nat)
  | [] => none
  | n :: ns =>
    let ncap := n.length - npos
    if size = 0 then some ([], 0)
    else if size ≤ ncap then
      some ((n.drop npos).take size, if n.length = npos + size then 1 else 0)
    else (copyOut 0 (size - ncap) ns).map (fun r => (n.drop npos ++ r.1, r.2 + 1))

/-- The loop of the buffer functions (bytearray.cc:529-543, 560-574, 590-605) from node `i` on. -/
def gather (i npos len : Nat) : List Node → Option (List Iovec)
  | [] => none
  | n :: ns =>
    let ncap := n.length - npos
    if len ≤ ncap then some [⟨i, npos, len⟩]
    else (gather (i + 1) 0 (len - ncap) ns).map (⟨i, npos, ncap⟩ :: ·)

/-- The walk of `setPosition` (bytearray.cc:338-345): the nodes before `m_cur` after it. -/
def walk (val : Nat) : List Node → Option Nat
  | [] => none
  | n :: ns =>
    if n.length < val then (walk (val - n.length) ns).map (· + 1)
    else some (if val = n.length then 1 else 0)

def raiseSize (b : ByteArray) : ByteArray :=
  if b.size < b.position then { b with size := b.position } else b

def write (garbage : Garbage) (data : List UInt8) : Op Unit := fun b =>
  if data.length = 0 then .ok () b
  else
    let b := b.addCapacity garbage data.length
    match b.cur with
    | none => .error .nullNode b
    | some c =>
      match copyIn (b.position % b.baseSize) data (b.nodes.drop c) with
      | none => .error .nullNode b
      | some (ns, k) =>
        .ok () (raiseSize { b with
          nodes := b.nodes.take c ++ ns
          cur := b.nodeAt (c + k)
          position := b.position + data.length })

def setPosition (val : Nat) : Op Unit := fun b =>
  if b.capacity < val then .error (.outOfRange "set_position out of range") b
  else
    let b := raiseSize { b with position := val }
    match walk val b.nodes with
    | none => .error .nullNode b
    | some k => .ok () { b with cur := b.nodeAt k }

def read (size : Nat) : Op (List UInt8) := fun b =>
  if b.getReadSize < size then .error (.outOfRange "not enough len") b
  else
    match b.cur with
    | none => .error .nullNode b
    | some c =>
      match copyOut (b.position % b.baseSize) size (b.nodes.drop c) with
      | none => .error .nullNode b
      | some (data, k) => .ok data { b with position := b.position + size, cur := b.nodeAt (c + k) }

/-- `read(buf, size, position)` (bytearray.cc:348-376): the node is that of `m_cur`. -/
def readAt (size position : Nat) : Op (List UInt8) := fun b =>
  if sizeSub b.size position < size then .error (.outOfRange "not enough len") b
  else
    match b.cur with
    | none => .error .nullNode b
    | some c =>
      match copyOut (position % b.baseSize) size (b.nodes.drop c) with
      | none => .error .nullNode b
      | some (data, _) => .ok data b

def clear : Op Unit := fun b =>
  .ok () { b with
    position := 0
    size := 0
    capacity := b.baseSize
    nodes := b.nodes.take 1
    cur := some 0 }

def toString : Op (List UInt8) := fun b =>
  if b.getReadSize = 0 then .ok [] b else b.readAt b.getReadSize b.position

def hexLoop : Nat → List UInt8 → Lib.Text
  | _, [] => []
  | i, c :: cs =>
    (if i > 0 ∧ i % 32 = 0 then [Lib.byte '\n'] else []) ++
      (Lib.Text.hexInt (Lib.signedChar c)).setw 2 (Lib.byte '0') ++ [Lib.byte ' '] ++
      hexLoop (i + 1) cs

/-- `toHexString` (bytearray.cc:496-509); `char` is signed. -/
def toHexString : Op Lib.Text := fun b =>
  match toString b with
  | .ok str t => .ok (hexLoop 0 str) t
  | .error e t => .error e t

/-- `getReadBuffers(buffers, len)` (bytearray.cc:546-576), with what it appends. -/
def getReadBuffers (len : Nat) : Op (Nat × List Iovec) := fun b =>
  let len := if b.getReadSize < len then b.getReadSize else len
  if len = 0 then .ok (0, []) b
  else
    match b.cur with
    | none => .error .nullNode b
    | some c =>
      match gather c (b.position % b.baseSize) len (b.nodes.drop c) with
      | none => .error .nullNode b
      | some iovs => .ok (len, iovs) b

def getReadBuffersAt (len position : Nat) : Op (Nat × List Iovec) := fun b =>
  let len := if b.getReadSize < len then b.getReadSize else len
  if len = 0 then .ok (0, []) b
  else
    let count := position / b.baseSize
    match gather count (position % b.baseSize) len (b.nodes.drop count) with
    | none => .error .nullNode b
    | some iovs => .ok (len, iovs) b

def getWriteBuffers (garbage : Garbage) (len : Nat) : Op (Nat × List Iovec) := fun b =>
  if len = 0 then .ok (0, []) b
  else
    let b := b.addCapacity garbage len
    match b.cur with
    | none => .error .nullNode b
    | some c =>
      match gather c (b.position % b.baseSize) len (b.nodes.drop c) with
      | none => .error .nullNode b
      | some iovs => .ok (len, iovs) b

/-- What `recv` does with the bytes: the buffers are filled in order. -/
def fill : List Iovec → List UInt8 → List Node → List Node
  | [], _, ns => ns
  | v :: vs, data, ns =>
    fill vs (data.drop v.len) (ns.modify v.node (Lib.splice v.offset (data.take v.len)))

def collect (iovs : List Iovec) (ns : List Node) : List UInt8 :=
  iovs.flatMap (fun v => ((ns.getD v.node []).drop v.offset).take v.len)

section Fixed
variable (host : Endian) (garbage : Garbage)

/-- The write of a fixed-width value (bytearray.cc:53-93) on a machine of the order `host`. -/
def writeFixed (n v : Nat) : Op Unit := do
  let v := if (← get).endian ≠ host then Lib.byteswap n v else v
  write garbage (host.bytes n v)

/-- The macro `XX` (bytearray.cc:184-190). -/
def readFixed (n : Nat) : Op Nat := do
  let v := host.value (← read n)
  if (← get).endian = host then return v
  return Lib.byteswap n v

def writeFint8 (value : Int8) : Op Unit := write garbage [value.toUInt8]
def writeFuint8 (value : UInt8) : Op Unit := write garbage [value]
def writeFint16 (value : Int16) : Op Unit := writeFixed host garbage 2 value.toUInt16.toNat
def writeFuint16 (value : UInt16) : Op Unit := writeFixed host garbage 2 value.toNat
def writeFint32 (value : Int32) : Op Unit := writeFixed host garbage 4 value.toUInt32.toNat
def writeFuint32 (value : UInt32) : Op Unit := writeFixed host garbage 4 value.toNat
def writeFint64 (value : Int64) : Op Unit := writeFixed host garbage 8 value.toUInt64.toNat
def writeFuint64 (value : UInt64) : Op Unit := writeFixed host garbage 8 value.toNat

def readFint8 : Op Int8 := do return ((← read 1).headD 0).toInt8
def readFuint8 : Op UInt8 := do return (← read 1).headD 0
def readFint16 : Op Int16 := do return (UInt16.ofNat (← readFixed host 2)).toInt16
def readFuint16 : Op UInt16 := do return UInt16.ofNat (← readFixed host 2)
def readFint32 : Op Int32 := do return (UInt32.ofNat (← readFixed host 4)).toInt32
def readFuint32 : Op UInt32 := do return UInt32.ofNat (← readFixed host 4)
def readFint64 : Op Int64 := do return (UInt64.ofNat (← readFixed host 8)).toInt64
def readFuint64 : Op UInt64 := do return UInt64.ofNat (← readFixed host 8)

def writeFloat (value : UInt32) : Op Unit := writeFuint32 host garbage value
def readFloat : Op UInt32 := readFuint32 host

def readDouble : Op UInt64 := readFuint64 host

end Fixed

section Varint

/-- The bytes `writeUint32` and `writeUint64` collect in `tmp` (bytearray.cc:118-141). -/
def varint (value : Nat) : List UInt8 :=
  if value < 0x80 then [UInt8.ofNat value]
  else UInt8.ofNat ((value &&& 0x7F) ||| 0x80) :: varint (value >>> 7)
termination_by value
decreasing_by
  rw [Nat.shiftRight_eq_div_pow]
  omega

/-- The loop of `readUint32` and `readUint64` (bytearray.cc:206-232) for `w` bits. -/
def readVarint (w i result : Nat) : Op Nat :=
  if i < w then do
    let b ← readFuint8
    if b < 0x80 then return result ||| (b.toNat <<< i) % 2 ^ w
    readVarint w (i + 7) (result ||| ((b &&& 0x7F).toNat <<< i) % 2 ^ w)
  else return result
termination_by w - i

/-- `EncodeZigzag32` and `EncodeZigzag64` (bytearray.cc:94-106), wrapping around. -/
def encodeZigzag {w : Nat} (v : BitVec w) : BitVec w := if v.slt 0 then (-v) * 2 - 1 else v * 2

def decodeZigzag {w : Nat} (v : BitVec w) : BitVec w := (v >>> 1) ^^^ -(v &&& 1)

def encodeZigzag32 (v : Int32) : UInt32 := ⟨encodeZigzag v.toBitVec⟩
def encodeZigzag64 (v : Int64) : UInt64 := ⟨encodeZigzag v.toBitVec⟩
def decodeZigzag32 (v : UInt32) : Int32 := ⟨⟨decodeZigzag v.toBitVec⟩⟩
def decodeZigzag64 (v : UInt64) : Int64 := ⟨⟨decodeZigzag v.toBitVec⟩⟩

variable (garbage : Garbage)

def writeUint32 (value : UInt32) : Op Unit := write garbage (varint value.toNat)
def writeUint64 (value : UInt64) : Op Unit := write garbage (varint value.toNat)
def writeInt32 (value : Int32) : Op Unit := writeUint32 garbage (encodeZigzag32 value)
def writeInt64 (value : Int64) : Op Unit := writeUint64 garbage (encodeZigzag64 value)

def readUint32 : Op UInt32 := do return UInt32.ofNat (← readVarint 32 0 0)
def readUint64 : Op UInt64 := do return UInt64.ofNat (← readVarint 64 0 0)
def readInt32 : Op Int32 := do return decodeZigzag32 (← readUint32)
def readInt64 : Op Int64 := do return decodeZigzag64 (← readUint64)

end Varint

end ByteArray

def CppString : Type := { s : List UInt8 // s.length ≤ Lib.maxSize }

namespace ByteArray
section Strings
variable (host : Endian) (garbage : Garbage)

def writeStringF16 (value : CppString) : Op Unit := do
  writeFuint16 host garbage (UInt16.ofNat value.1.length)
  write garbage value.1

def writeStringF32 (value : CppString) : Op Unit := do
  writeFuint32 host garbage (UInt32.ofNat value.1.length)
  write garbage value.1

def writeStringF64 (value : CppString) : Op Unit := do
  writeFuint64 host garbage (UInt64.ofNat value.1.length)
  write garbage value.1

def writeStringVint (value : CppString) : Op Unit := do
  writeUint64 garbage (UInt64.ofNat value.1.length)
  write garbage value.1

def writeStringWithoutLength (value : CppString) : Op Unit := write garbage value.1

def readBuff (len : Nat) : Op (List UInt8) :=
  if Lib.maxSize < len then throw .lengthError else read len

def readStringF16 : Op (List UInt8) := do readBuff (← readFuint16 host).toNat
def readStringF32 : Op (List UInt8) := do readBuff (← readFuint32 host).toNat
def readStringF64 : Op (List UInt8) := do readBuff (← readFuint64 host).toNat
def readStringVint : Op (List UInt8) := do readBuff (← readUint64).toNat

end Strings

inductive Number
  | fint8
  | fuint8
  | fint16
  | fuint16
  | fint32
  | fuint32
  | fint64
  | fuint64
  | int32
  | uint32
  | int64
  | uint64
  | float
  deriving DecidableEq, Repr

namespace Number

abbrev type : Number → Type
  | fint8 => Int8
  | fuint8 => UInt8
  | fint16 => Int16
  | fuint16 => UInt16
  | fint32 | int32 => Int32
  | fuint32 | uint32 | float => UInt32
  | fint64 | int64 => Int64
  | fuint64 | uint64 => UInt64

def write (host : Endian) (garbage : Garbage) : (n : Number) → n.type → Op Unit
  | fint8 => writeFint8 garbage
  | fuint8 => writeFuint8 garbage
  | fint16 => writeFint16 host garbage
  | fuint16 => writeFuint16 host garbage
  | fint32 => writeFint32 host garbage
  | fuint32 => writeFuint32 host garbage
  | fint64 => writeFint64 host garbage
  | fuint64 => writeFuint64 host garbage
  | int32 => writeInt32 garbage
  | uint32 => writeUint32 garbage
  | int64 => writeInt64 garbage
  | uint64 => writeUint64 garbage
  | float => writeFloat host garbage

def read (host : Endian) : (n : Number) → Op n.type
  | fint8 => readFint8
  | fuint8 => readFuint8
  | fint16 => readFint16 host
  | fuint16 => readFuint16 host
  | fint32 => readFint32 host
  | fuint32 => readFuint32 host
  | fint64 => readFint64 host
  | fuint64 => readFuint64 host
  | int32 => readInt32
  | uint32 => readUint32
  | int64 => readInt64
  | uint64 => readUint64
  | float => readFloat host

end Number

inductive Format
  | f16
  | f32
  | f64
  | vint
  deriving DecidableEq, Repr

def Format.write (host : Endian) (garbage : Garbage) : Format → CppString → Op Unit
  | f16 => writeStringF16 host garbage
  | f32 => writeStringF32 host garbage
  | f64 => writeStringF64 host garbage
  | vint => writeStringVint garbage

def Format.read (host : Endian) : Format → Op (List UInt8)
  | f16 => readStringF16 host
  | f32 => readStringF32 host
  | f64 => readStringF64 host
  | vint => readStringVint

/-- A call that may allocate carries what the new memory holds. -/
inductive Call
  | write (garbage : Garbage) (data : List UInt8)
  | read (size : Nat)
  | readAt (size position : Nat)
  | writeNumber (garbage : Garbage) (n : Number) (value : n.type)
  | readNumber (n : Number)
  | readDouble
  | writeString (garbage : Garbage) (f : Format) (value : CppString)
  | writeStringWithoutLength (garbage : Garbage) (value : CppString)
  | readString (f : Format)
  | setPosition (val : Nat)
  | setIsLittleEndian (val : Bool)
  | clear
  | getReadBuffers (len : Nat)
  | getReadBuffersAt (len position : Nat)
  | getWriteBuffers (garbage : Garbage) (len : Nat)
  | toString

def Call.run (host : Endian) : Call → Op Unit
  | write garbage data => ByteArray.write garbage data
  | read size => discard (ByteArray.read size)
  | readAt size position => discard (ByteArray.readAt size position)
  | writeNumber garbage n value => n.write host garbage value
  | readNumber n => discard (n.read host)
  | readDouble => discard (ByteArray.readDouble host)
  | writeString garbage f value => f.write host garbage value
  | writeStringWithoutLength garbage value => ByteArray.writeStringWithoutLength garbage value
  | readString f => discard (f.read host)
  | setPosition val => ByteArray.setPosition val
  | setIsLittleEndian val => ByteArray.setIsLittleEndian val
  | clear => ByteArray.clear
  | getReadBuffers len => discard (ByteArray.getReadBuffers len)
  | getReadBuffersAt len position => discard (ByteArray.getReadBuffersAt len position)
  | getWriteBuffers garbage len => discard (ByteArray.getWriteBuffers garbage len)
  | toString => discard ByteArray.toString

/-- A fresh array of a given node size under arbitrary calls. The caller survives an
exception and goes on with the array as the call left it. -/
def machine (host : Endian) (baseSize : Nat) : Lib.Machine ByteArray Call where
  init b := ∃ garbage, b = create baseSize garbage
  step b c :=
    match c.run host b with
    | .ok _ t => some t
    | .error .nullNode _ => none
    | .error _ t => some t

end ByteArray
end HxSylar
