import Mathlib.Algebra.Group.Nat.Defs

namespace HxSylar.Lib

/-- The `n` low bytes of a number, least significant first. -/
def leBytes : Nat → Nat → List UInt8
  | 0, _ => []
  | n + 1, v => UInt8.ofNat v :: leBytes n (v / 256)

def leValue : List UInt8 → Nat
  | [] => 0
  | b :: bs => b.toNat + 256 * leValue bs

@[simp] theorem leBytes_length (n v : Nat) : (leBytes n v).length = n := by
  induction n generalizing v with
  | zero => rfl
  | succ n ih => simp [leBytes, ih]

theorem leValue_leBytes {n v : Nat} (h : v < 256 ^ n) : leValue (leBytes n v) = v := by
  induction n generalizing v with
  | zero => simp_all [leBytes, leValue]
  | succ n ih =>
    have hdiv : v / 256 < 256 ^ n := by
      rw [Nat.div_lt_iff_lt_mul (by decide)]
      simpa [Nat.pow_succ] using h
    simp only [leBytes, leValue, ih hdiv, UInt8.toNat_ofNat']
    omega

theorem leBytes_leValue (bs : List UInt8) : leBytes bs.length (leValue bs) = bs := by
  induction bs with
  | nil => rfl
  | cons b bs ih =>
    have hb := b.toNat_lt
    have hdiv : (b.toNat + 256 * leValue bs) / 256 = leValue bs := by omega
    have hlow : UInt8.ofNat (b.toNat + 256 * leValue bs) = b := by
      apply UInt8.toNat_inj.mp
      rw [UInt8.toNat_ofNat']
      omega
    simp only [List.length_cons, leBytes, leValue, hdiv, ih, hlow]

theorem leValue_lt (bs : List UInt8) : leValue bs < 256 ^ bs.length := by
  induction bs with
  | nil => exact Nat.one_pos
  | cons b bs ih =>
    have hb := b.toNat_lt
    rw [leValue, List.length_cons, Nat.pow_succ]
    omega

/-- Exchanging the bytes of an `n`-byte number, first with last. -/
def byteswap (n v : Nat) : Nat := leValue (leBytes n v).reverse

theorem leBytes_byteswap (n v : Nat) : leBytes n (byteswap n v) = (leBytes n v).reverse := by
  have h := leBytes_leValue (leBytes n v).reverse
  simpa [byteswap] using h

theorem byteswap_byteswap {n v : Nat} (h : v < 256 ^ n) : byteswap n (byteswap n v) = v := by
  rw [byteswap, leBytes_byteswap, List.reverse_reverse, leValue_leBytes h]

end HxSylar.Lib
