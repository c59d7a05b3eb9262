import HxSylar.ByteArray

namespace HxSylar.ByteArray

/-- One `ofs.write(cur->ptr + diff, len)` (bytearray.cc:425). Both numbers are signed. -/
structure FileWrite where
  node : Nat
  diff : Int
  len : Int
  deriving DecidableEq, Repr

/-- `int diff = pos % m_baseSize` (bytearray.cc:420): `pos` is taken as a `size_t`. -/
def nodeOffset (baseSize : Nat) (pos : Int) : Int :=
  ((if pos < 0 then pos + 2 ^ 64 else pos) % baseSize).bmod (2 ^ 32)

/-- The loop of `writeToFile` (bytearray.cc:419-429) over the chain from `cur`, which is node
`node`. A size is below 2^63, so an `int64_t` holds it. -/
def dump (baseSize node : Nat) (pos readSize : Int) : List Node → Option (List FileWrite)
  | [] => if 0 < readSize then none else some []
  | _ :: ns =>
    if 0 < readSize then
      let diff := nodeOffset baseSize pos
      let len := (if readSize > baseSize then (baseSize : Int) else readSize) - diff
      (dump baseSize (node + 1) (pos + len) (readSize - len) ns).map (⟨node, diff, len⟩ :: ·)
    else some []

/-- `writeToFile` (bytearray.cc:406-431) where the file can be opened. -/
def writeToFile : Op (List FileWrite) := fun b =>
  match dump b.baseSize (b.cur.getD 0) b.position b.getReadSize
      (b.cur.elim [] (fun c => b.nodes.drop c)) with
  | none => .error .nullNode b
  | some ws => .ok ws b

def FileWrite.bytes (w : FileWrite) (ns : List Node) : List UInt8 :=
  ((ns.getD w.node []).drop w.diff.toNat).take w.len.toNat

def fileOf (ws : List FileWrite) (ns : List Node) : List UInt8 := ws.flatMap (fun w => w.bytes ns)

/-- What the calls `ifs.read(buff.get(), m_baseSize)` deliver (bytearray.cc:446-449), with a
node size that is not zero. The last one, which sets `eof`, falls short. -/
def fileBlocks (baseSize : Nat) (file : List UInt8) : List (List UInt8) :=
  if 0 < baseSize ∧ baseSize ≤ file.length then
    file.take baseSize :: fileBlocks baseSize (file.drop baseSize)
  else [file]
termination_by file.length
decreasing_by
  rw [List.length_drop]
  omega

def writeBlocks (garbage : Garbage) : List (List UInt8) → Op Unit
  | [] => pure ()
  | block :: blocks => do
    write garbage block
    writeBlocks garbage blocks

/-- `readFromFile` (bytearray.cc:433-451) where the file can be opened. -/
def readFromFile (garbage : Garbage) (file : List UInt8) : Op Unit := do
  writeBlocks garbage (fileBlocks (← get).baseSize file)

end HxSylar.ByteArray
