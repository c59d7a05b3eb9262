import HxSylar.Lib.Decimal
import Mathlib.Data.List.Basic
import Mathlib.Algebra.Ring.Int.Defs

namespace HxSylar.Lib

/-- The value of a byte as a signed `char`. -/
def signedChar (b : UInt8) : Int := Int.bmod b.toNat 256

namespace Text

/-- An `int` as a stream with `std::hex` writes it: its 32 bits as an unsigned number. -/
def hexInt (i : Int) : Text := (Nat.toDigits 16 (i % 2 ^ 32).toNat).map byte

/-- A natural number in hexadecimal digits. -/
def hexNat (n : Nat) : Text := (Nat.toDigits 16 n).map byte

/-- The output of a number with `std::setw(width) << std::setfill(fill)`. -/
def setw (width : Nat) (fill : UInt8) (t : Text) : Text := List.replicate (width - t.length) fill ++ t

/-- The two digits of a byte in lower case, the higher first. -/
def twoDigits (b : UInt8) : Text := [byte (b.toNat / 16).digitChar, byte (b.toNat % 16).digitChar]

end Text

namespace Text

/-- What a byte's digits are: no blank, with the values they stand for. -/
theorem byte_hexDigit {d : Nat} (h : d < 16) :
    digitValue (byte d.digitChar) = d ∧ byte d.digitChar ≠ byte ' ' := by
  have hall : ∀ d < 16, digitValue (byte d.digitChar) = d ∧ byte d.digitChar ≠ byte ' ' := by
    decide
  exact hall d h

theorem hexInt_natCast {n : Nat} (h : n < 2 ^ 32) : hexInt n = hexNat n := by
  have hbits : ((n : Int) % 2 ^ 32).toNat = n := by omega
  rw [hexInt, hbits, hexNat]

theorem hexNat_eq (n : Nat) : hexNat n =
    if n < 16 then [byte n.digitChar] else hexNat (n / 16) ++ [byte (n % 16).digitChar] := by
  unfold hexNat
  rw [Nat.toDigits_eq_if (by decide)]
  split
  · rfl
  · simp

theorem hexNat_digits (n : Nat) : ∀ b ∈ hexNat n, ∃ d < 16, b = byte d.digitChar := by
  induction n using Nat.strongRecOn with
  | ind n ih =>
    intro b hb
    rw [hexNat_eq] at hb
    split at hb
    · rename_i hlt
      exact ⟨n, hlt, List.mem_singleton.mp hb⟩
    · rename_i hle
      rcases List.mem_append.mp hb with hb | hb
      · exact ih (n / 16) (by omega) b hb
      · exact ⟨n % 16, Nat.mod_lt n (by decide), List.mem_singleton.mp hb⟩

theorem hexNat_ne_nil (n : Nat) : hexNat n ≠ [] := by
  rw [hexNat_eq]
  split
  · exact List.cons_ne_nil _ _
  · simp

theorem hexNat_length {n k : Nat} (h : n < 16 ^ (k + 1)) : (hexNat n).length ≤ k + 1 := by
  induction k generalizing n with
  | zero =>
    have hlt : n < 16 := h
    rw [hexNat_eq, if_pos hlt]
    exact Nat.le_refl 1
  | succ k ih =>
    rw [hexNat_eq]
    split
    · exact Nat.succ_le_succ (Nat.zero_le _)
    · have hshort := ih (n := n / 16) (by rw [Nat.pow_succ] at h; omega)
      rw [List.length_append]
      exact Nat.succ_le_succ hshort

/-- The digits of a number make the number. -/
theorem number_hexNat (n : Nat) : number 16 0 (hexNat n) = n := by
  induction n using Nat.strongRecOn with
  | ind n ih =>
    rw [hexNat_eq]
    split
    · rename_i hlt
      simp only [number, (byte_hexDigit hlt).1, if_pos hlt]
      omega
    · rename_i hle
      have hlt : n % 16 < 16 := Nat.mod_lt n (by decide)
      have hdigits : ∀ b ∈ hexNat (n / 16), digitValue b < 16 := by
        intro b hb
        obtain ⟨d, hd, rfl⟩ := hexNat_digits _ b hb
        rw [(byte_hexDigit hd).1]
        exact hd
      rw [number_append 16 0 hdigits, ih (n / 16) (by omega)]
      simp only [number, (byte_hexDigit hlt).1, if_pos hlt]
      omega

/-- The two last digits of a number. -/
theorem toDigits_two {n : Nat} (h : 256 ≤ n) :
    (Nat.toDigits 16 n).map byte =
      (Nat.toDigits 16 (n / 256)).map byte ++ twoDigits (UInt8.ofNat n) := by
  have hhigh : n / 16 / 16 = n / 256 := Nat.div_div_eq_div_mul n 16 16
  have hmid : (n % 256) / 16 = n / 16 % 16 := by omega
  have hlow : (n % 256) % 16 = n % 16 := by omega
  rw [Nat.toDigits_eq_if (by decide), if_neg (by omega),
    Nat.toDigits_eq_if (by decide), if_neg (by omega), hhigh, twoDigits, UInt8.toNat_ofNat']
  simp [hmid, hlow]

theorem number_twoDigits (acc : Nat) (b : UInt8) :
    number 16 acc (twoDigits b) = acc * 256 + b.toNat := by
  have hb := b.toNat_lt
  have hhigh := (byte_hexDigit (d := b.toNat / 16) (by omega)).1
  have hlow := (byte_hexDigit (d := b.toNat % 16) (by omega)).1
  simp only [twoDigits, number, hhigh, hlow]
  rw [if_pos (by omega), if_pos (by omega)]
  omega

theorem twoDigits_blank (b : UInt8) : byte ' ' ∉ twoDigits b := by
  have hb := b.toNat_lt
  have hhigh := (byte_hexDigit (d := b.toNat / 16) (by omega)).2
  have hlow := (byte_hexDigit (d := b.toNat % 16) (by omega)).2
  simp only [twoDigits, List.mem_cons, List.not_mem_nil, or_false, not_or]
  exact ⟨hhigh.symm, hlow.symm⟩

end Text

/-- The 32 bits of a `char`. -/
theorem bmod_bits {n : Nat} (h : n < 256) :
    (Int.bmod n 256 % 2 ^ 32).toNat = if n < 128 then n else 0xffffff00 + n := by
  split
  · have hmod : Int.bmod n 256 = n := by
      apply Int.bmod_eq_of_le
      · omega
      · omega
    rw [hmod]
    omega
  · have hmod : Int.bmod n 256 = n - 256 := by
      rw [← Int.sub_bmod_right n 256]
      apply Int.bmod_eq_of_le
      · omega
      · omega
    rw [hmod]
    omega

/-- A `char` below 128 is written in its two digits, another one with six more before them. -/
theorem setw_hexInt (b : UInt8) : (Text.hexInt (signedChar b)).setw 2 (byte '0') =
    (if b.toNat < 128 then [] else text "ffffff") ++ Text.twoDigits b := by
  have hbits : (signedChar b % 2 ^ 32).toNat =
      if b.toNat < 128 then b.toNat else 0xffffff00 + b.toNat := bmod_bits b.toNat_lt
  rw [Text.hexInt, hbits]
  split
  · rename_i hlt
    rw [Nat.toDigits_eq_if (by decide)]
    split
    · rename_i hsmall
      have hdiv : b.toNat / 16 = 0 := by omega
      have hmod : b.toNat % 16 = b.toNat := by omega
      rw [Text.twoDigits, hdiv, hmod]
      rfl
    · rw [Nat.toDigits_of_lt_base (by omega)]
      rfl
  · rename_i hle
    have hb := b.toNat_lt
    have hhigh : (0xffffff00 + b.toNat) / 256 = 0xffffff := by omega
    have hlow : UInt8.ofNat (0xffffff00 + b.toNat) = b := by
      apply UInt8.toNat_inj.mp
      rw [UInt8.toNat_ofNat']
      omega
    have hdigits : (Nat.toDigits 16 0xffffff).map byte = text "ffffff" := by decide
    rw [Text.toDigits_two (by omega), hhigh, hlow, hdigits]
    rfl

/-- What a `char` is written as: its two digits below 128, else a longer text, which is never
another byte's and has no blank in it. -/
theorem hexInt_char (b : UInt8) :
    ((Text.hexInt (signedChar b)).setw 2 (byte '0') = Text.twoDigits b ↔ b < 128) ∧
      UInt8.ofNat (Text.number 16 0 ((Text.hexInt (signedChar b)).setw 2 (byte '0'))) = b ∧
      byte ' ' ∉ (Text.hexInt (signedChar b)).setw 2 (byte '0') := by
  have hb := b.toNat_lt
  rw [setw_hexInt, UInt8.lt_iff_toNat_lt]
  change (_ ↔ b.toNat < 128) ∧ _
  by_cases hlow : b.toNat < 128
  · rw [if_pos hlow, List.nil_append, Text.number_twoDigits, Nat.zero_mul, Nat.zero_add,
      UInt8.ofNat_toNat]
    exact ⟨⟨fun _ => hlow, fun _ => rfl⟩, rfl, Text.twoDigits_blank b⟩
  · rw [if_neg hlow]
    refine ⟨⟨?_, fun h => absurd h hlow⟩, ?_, ?_⟩
    · intro heq
      have hlength := congrArg List.length heq
      simp [Text.twoDigits, text] at hlength
    · have hnumber : Text.number 16 0 (text "ffffff" ++ Text.twoDigits b) =
          0xffffff * 256 + b.toNat := Text.number_twoDigits 0xffffff b
      rw [hnumber]
      apply UInt8.toNat_inj.mp
      rw [UInt8.toNat_ofNat']
      omega
    · rw [List.mem_append, not_or]
      exact ⟨by decide, Text.twoDigits_blank b⟩

end HxSylar.Lib
