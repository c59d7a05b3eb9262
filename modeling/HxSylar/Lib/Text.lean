import Mathlib.Data.UInt

namespace HxSylar.Lib

/-- A string of bytes. -/
abbrev Text := List UInt8

/-- `max_size()` of `std::string` in the library of GCC 11. -/
def maxSize : Nat := 0x3fffffffffffffff

def byte (c : Char) : UInt8 := UInt8.ofNat c.toNat

/-- The bytes of an ASCII string. -/
def text (s : String) : Text := s.toList.map byte

namespace Text

/-- The `n` bytes from position `i` on, or as many as there are. -/
def substr (t : Text) (i n : Nat) : Text := (t.drop i).take n

end Text

/-- What holds for the 256 values holds for every byte. -/
theorem forall_byte {p : UInt8 → Prop} (h : ∀ n < 256, p (UInt8.ofNat n)) (b : UInt8) : p b := by
  have hb := h b.toNat b.toNat_lt
  rwa [UInt8.ofNat_toNat] at hb

/-- A letter in the C locale. -/
def isAlpha (b : UInt8) : Bool := (65 ≤ b && b ≤ 90) || (97 ≤ b && b ≤ 122)

def isDigit (b : UInt8) : Bool := 48 ≤ b && b ≤ 57

/-- White space in the C locale. -/
def isSpace (b : UInt8) : Bool := b == 32 || (9 ≤ b && b ≤ 13)

def toLower (b : UInt8) : UInt8 := if 65 ≤ b && b ≤ 90 then b + 32 else b

/-- The value of a digit in the bases up to 36. -/
def digitValue (b : UInt8) : Nat :=
  if isDigit b then b.toNat - 48
  else if 97 ≤ b && b ≤ 122 then b.toNat - 87
  else if 65 ≤ b && b ≤ 90 then b.toNat - 55
  else 36

namespace Text

/-- What a C function sees of a string. -/
def cstr (t : Text) : Text := t.takeWhile (fun b => b != 0)

/-- The number that the leading digits make. -/
def number (base : Nat) (acc : Nat) : Text → Nat
  | [] => acc
  | b :: bs => if digitValue b < base then number base (acc * base + digitValue b) bs else acc

/-- The sign in front of a number, if there is one. -/
def sign : Text → Bool × Text
  | 45 :: t => (true, t)
  | 43 :: t => (false, t)
  | t => (false, t)

/-- `strtol` of a 64-bit `long`. -/
def strtol (base : Nat) (t : Text) : Int :=
  let (negative, t) := sign (t.dropWhile isSpace)
  let t := if base = 16 then
      match t with
      | 48 :: 120 :: t | 48 :: 88 :: t => t
      | t => t
    else t
  let n := number base 0 t
  if negative then max (-(n : Int)) (-9223372036854775808) else min (n : Int) 9223372036854775807

/-- The value of a `long` in an `int`. -/
def toInt32 (n : Int) : Int := Int.bmod n 4294967296

def atoi (t : Text) : Int := toInt32 (strtol 10 t)

/-- `strncmp(t, u, n) == 0` for texts without a null byte in the first `n`. -/
def agree (t u : Text) (n : Nat) : Bool := t.take n == u.take n

/-- A slice of a piece is a slice of the whole. -/
theorem substr_piece {pre piece post : Text} {i n : Nat} (h : i + n ≤ piece.length) :
    (pre ++ piece ++ post).substr (i + pre.length) n = piece.substr i n := by
  rw [substr, substr, List.append_assoc, Nat.add_comm, ← List.drop_drop,
    List.drop_left, List.drop_append_of_le_length (by omega),
    List.take_append_of_le_length (by rw [List.length_drop]; omega)]

theorem substr_succ {t : Text} {i pos : Nat} {b : UInt8} (hi : i ≤ pos) (hb : t[pos]? = some b) :
    t.substr i (pos + 1 - i) = t.substr i (pos - i) ++ [b] := by
  rw [substr, substr, Nat.sub_add_comm hi, List.take_add_one, List.getElem?_drop,
    Nat.add_sub_cancel' hi, hb]
  rfl

/-- A number ends at the first byte that is no digit. -/
theorem number_stop {base : Nat} {b : UInt8} (hb : ¬digitValue b < base) (acc : Nat)
    (ds rest : Text) : number base acc (ds ++ b :: rest) = number base acc ds := by
  induction ds generalizing acc with
  | nil =>
    simp only [List.nil_append, number, if_neg hb]
  | cons d ds ih =>
    simp only [List.cons_append, number]
    split
    · exact ih _
    · rfl

/-- What stands behind a number does not matter. -/
theorem atoi_digits {ds : Text} (hds : ds ≠ []) (hdigits : ds.all isDigit = true) {b : UInt8}
    (hb : ¬digitValue b < 10) (rest : Text) :
    atoi (ds ++ b :: rest) = toInt32 (min (number 10 0 ds : Int) 9223372036854775807) := by
  obtain ⟨d, ds, rfl⟩ := List.exists_cons_of_ne_nil hds
  have hd : isDigit d = true := by
    rw [List.all_cons, Bool.and_eq_true] at hdigits
    exact hdigits.1
  obtain ⟨hlow, hhigh⟩ : 48 ≤ d.toNat ∧ d.toNat ≤ 57 := by
    simpa [isDigit, UInt8.le_iff_toNat_le] using hd
  have hspace : isSpace d = false := by
    simp [isSpace, UInt8.le_iff_toNat_le, ← UInt8.toNat_inj]
    omega
  have hsign : ∀ t, sign (d :: t) = (false, d :: t) := by
    intro t
    simp only [sign]
    split
    · rename_i heq
      cases heq
      contradiction
    · rename_i heq
      cases heq
      contradiction
    · rfl
  have hstrtol : ∀ t, strtol 10 (d :: t) = min (number 10 0 (d :: t) : Int) 9223372036854775807 := by
    intro t
    simp only [strtol, List.dropWhile_cons, hspace, Bool.false_eq_true, ↓reduceIte, hsign]
    rfl
  rw [atoi, List.cons_append, hstrtol, ← List.cons_append, number_stop hb]

end Text
end HxSylar.Lib
