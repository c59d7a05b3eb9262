import HxSylar.Lib.Bytes
import Mathlib.Data.UInt

namespace HxSylar.Lib

/-- An operation on numbers that does to each byte by itself what `f` does. -/
structure Bytewise (op : Nat → Nat → Nat) (f : UInt8 → UInt8 → UInt8) : Prop where
  low : ∀ a b, UInt8.ofNat (op a b) = f (UInt8.ofNat a) (UInt8.ofNat b)
  high : ∀ a b, op a b / 256 = op (a / 256) (b / 256)
  bound : ∀ n a b, a < 2 ^ n → b < 2 ^ n → op a b < 2 ^ n

namespace Bytewise
variable {op : Nat → Nat → Nat} {f : UInt8 → UInt8 → UInt8}

protected theorem and : Bytewise (· &&& ·) (· &&& ·) where
  low a b := UInt8.ofNat_and a b
  high _ _ := Nat.and_div_two_pow (n := 8)
  bound _ a _ _ hb := Nat.and_lt_two_pow a hb

protected theorem or : Bytewise (· ||| ·) (· ||| ·) where
  low a b := UInt8.ofNat_or a b
  high _ _ := Nat.or_div_two_pow (n := 8)
  bound _ _ _ ha hb := Nat.or_lt_two_pow ha hb

protected theorem xor : Bytewise (· ^^^ ·) (· ^^^ ·) where
  low a b := UInt8.ofNat_xor a b
  high _ _ := Nat.xor_div_two_pow (n := 8)
  bound _ _ _ ha hb := Nat.xor_lt_two_pow ha hb

theorem leBytes (h : Bytewise op f) (n a b : Nat) :
    leBytes n (op a b) = List.zipWith f (leBytes n a) (leBytes n b) := by
  induction n generalizing a b with
  | zero => rfl
  | succ n ih => rw [Lib.leBytes, h.low, h.high, ih, Lib.leBytes, Lib.leBytes, List.zipWith_cons_cons]

theorem leValue (h : Bytewise op f) {xs ys : List UInt8} (hlen : xs.length = ys.length) :
    leValue (List.zipWith f xs ys) = op (leValue xs) (leValue ys) := by
  have hpow : 256 ^ xs.length = 2 ^ (8 * xs.length) := Nat.pow_mul 2 8 xs.length ▸ rfl
  have hbytes := h.leBytes xs.length (Lib.leValue xs) (Lib.leValue ys)
  have hys := leBytes_leValue ys
  rw [← hlen] at hys
  rw [leBytes_leValue, hys] at hbytes
  rw [← hbytes, leValue_leBytes]
  rw [hpow]
  apply h.bound
  · rw [← hpow]
    exact leValue_lt xs
  · rw [← hpow, hlen]
    exact leValue_lt ys

/-- Exchanging the bytes commutes with every such operation. -/
theorem byteswap (h : Bytewise op f) (n a b : Nat) :
    byteswap n (op a b) = op (byteswap n a) (byteswap n b) := by
  rw [Lib.byteswap, h.leBytes, List.reverse_zipWith (by simp), h.leValue (by simp), Lib.byteswap,
    Lib.byteswap]

end Bytewise

theorem byteswap_lt (n v : Nat) : byteswap n v < 256 ^ n := by
  have h := leValue_lt (leBytes n v).reverse
  rwa [List.length_reverse, leBytes_length] at h

end HxSylar.Lib
