import HxSylar.ByteArray

namespace HxSylar.ByteArray

/-- The loop of `writeUint32` and `writeUint64` with the store behind it (bytearray.cc:119-126,
133-140) for a `tmp` of `n` bytes, whatever it held. `none` is an index past its end. -/
def storeVarint {n : Nat} (tmp : Vector UInt8 n) (i : UInt8) (value : Nat) :
    Option (Vector UInt8 n × UInt8) :=
  if h : i.toNat < n then
    if 0x80 ≤ value then
      storeVarint (tmp.set i.toNat (UInt8.ofNat ((value &&& 0x7F) ||| 0x80))) (i + 1) (value >>> 7)
    else some (tmp.set i.toNat (UInt8.ofNat value), i + 1)
  else none
termination_by value
decreasing_by
  rw [Nat.shiftRight_eq_div_pow]
  omega

def shiftLeft (w x i : Nat) : Option Nat := if i < w then some ((x <<< i) % 2 ^ w) else none

/-- The loop of `readUint32` and `readUint64` (bytearray.cc:208-215, 223-230) for a result of `w`
bits, which gives up at a shift without a meaning. -/
def readVarintShifts (w i result : Nat) : Op (Option Nat) :=
  if i < w then do
    let b ← readFuint8
    if b < 0x80 then return (shiftLeft w b.toNat i).map (result ||| ·)
    match shiftLeft w (b &&& 0x7F).toNat i with
    | none => return none
    | some low => readVarintShifts w (i + 7) (result ||| low)
  else return some result
termination_by w - i

def readUint32Shifts : Op (Option UInt32) := do
  return (← readVarintShifts 32 0 0).map UInt32.ofNat

def readUint64Shifts : Op (Option UInt64) := do
  return (← readVarintShifts 64 0 0).map UInt64.ofNat

end HxSylar.ByteArray
