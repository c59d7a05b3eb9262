import HxSylar.Lib.Text
import Mathlib.Data.List.TakeWhile

namespace HxSylar.Lib

namespace Text

/-- A natural number in decimal digits. -/
def ofNat (n : Nat) : Text := (Nat.toDigits 10 n).map byte

/-- An integer as `operator<<` of a stream writes it. -/
def decimal (i : Int) : Text := if i < 0 then byte '-' :: ofNat i.natAbs else ofNat i.natAbs

/-- `boost::lexical_cast` of a signed integer before the check of its range: a sign and digits,
with nothing around them. -/
def parseDecimal (t : Text) : Option Int :=
  let (negative, digits) := t.sign
  if digits = [] ∨ !digits.all isDigit then none
  else some (if negative then -(number 10 0 digits : Int) else number 10 0 digits)

/-- A number written in digits only. -/
def natural (t : Text) : Option Nat :=
  if t = [] ∨ !t.all isDigit then none else some (number 10 0 t)

/-- The base that the beginning of a number chooses when the stream has none set. -/
def chooseBase : Text → Nat × Text
  | 48 :: 120 :: t | 48 :: 88 :: t => (16, t)
  | 48 :: t => (8, 48 :: t)
  | t => (10, t)

/-- `stream >> n` of a stream with no base set that does not skip white space, then white space
to the end; before the check of the range. -/
def readInteger (t : Text) : Option Int :=
  let (negative, t) := t.sign
  let (base, t) := chooseBase t
  let digits := t.takeWhile (fun b => digitValue b < base)
  if digits = [] ∨ !(t.drop digits.length).all isSpace then none
  else some (if negative then -(number base 0 digits : Int) else number base 0 digits)

/-- The digit at the end of a number. -/
theorem byte_digitChar {d : Nat} (h : d < 10) :
    isDigit (byte d.digitChar) = true ∧ digitValue (byte d.digitChar) = d ∧
      (byte d.digitChar = 48 → d = 0) := by
  have hall : ∀ d < 10, isDigit (byte d.digitChar) = true ∧ digitValue (byte d.digitChar) = d ∧
      (byte d.digitChar = 48 → d = 0) := by decide
  exact hall d h

theorem ofNat_eq (n : Nat) : ofNat n =
    if n < 10 then [byte n.digitChar] else ofNat (n / 10) ++ [byte (n % 10).digitChar] := by
  rw [ofNat, Nat.toDigits_eq_if (by decide)]
  split
  · rfl
  · rw [List.map_append]
    rfl

theorem ofNat_all_isDigit (n : Nat) : (ofNat n).all isDigit = true := by
  induction n using Nat.strongRecOn with
  | ind n ih =>
    rw [ofNat_eq]
    split
    · rename_i hlt
      simp only [List.all_cons, List.all_nil, Bool.and_true]
      exact (byte_digitChar hlt).1
    · rename_i hle
      rw [List.all_append, ih (n / 10) (by omega)]
      simp only [List.all_cons, List.all_nil, Bool.and_true, Bool.true_and]
      exact (byte_digitChar (Nat.mod_lt n (by decide))).1

theorem ofNat_ne_nil (n : Nat) : ofNat n ≠ [] := by
  rw [ofNat_eq]
  split
  · simp
  · simp

/-- The first digit is no zero unless it is the only one. -/
theorem ofNat_head_ne_zero {n : Nat} (h : 0 < n) : (ofNat n).head? ≠ some 48 := by
  induction n using Nat.strongRecOn with
  | ind n ih =>
    rw [ofNat_eq]
    split
    · rename_i hlt
      intro heq
      have hzero := (byte_digitChar hlt).2.2 (Option.some.inj heq)
      omega
    · rename_i hle
      rw [List.head?_append_of_ne_nil _ (ofNat_ne_nil _)]
      exact ih (n / 10) (by omega) (by omega)

theorem number_append (base acc : Nat) {ds : Text} (hds : ∀ d ∈ ds, digitValue d < base)
    (es : Text) : number base acc (ds ++ es) = number base (number base acc ds) es := by
  induction ds generalizing acc with
  | nil => rfl
  | cons d ds ih =>
    rw [List.forall_mem_cons] at hds
    simp only [List.cons_append, number, if_pos hds.1]
    exact ih _ hds.2

theorem digitValue_of_isDigit {b : UInt8} (h : isDigit b = true) : digitValue b < 10 := by
  obtain ⟨hlow, hhigh⟩ : 48 ≤ b.toNat ∧ b.toNat ≤ 57 := by
    simpa [isDigit, UInt8.le_iff_toNat_le] using h
  rw [digitValue, if_pos h]
  omega

theorem ofNat_digitValue (n : Nat) : ∀ d ∈ ofNat n, digitValue d < 10 := by
  intro d hd
  exact digitValue_of_isDigit (List.all_eq_true.mp (ofNat_all_isDigit n) d hd)

/-- The digits of a number make the number. -/
theorem number_ofNat (n : Nat) : number 10 0 (ofNat n) = n := by
  induction n using Nat.strongRecOn with
  | ind n ih =>
    rw [ofNat_eq]
    split
    · rename_i hlt
      have hvalue := (byte_digitChar hlt).2.1
      simp only [number, hvalue, if_pos hlt]
      omega
    · rename_i hle
      have hlt : n % 10 < 10 := Nat.mod_lt n (by decide)
      rw [number_append 10 0 (ofNat_digitValue _), ih (n / 10) (by omega)]
      simp only [number, (byte_digitChar hlt).2.1, if_pos hlt]
      omega

@[simp]
theorem natural_ofNat (n : Nat) : natural (ofNat n) = some n := by
  simp only [natural, ofNat_ne_nil, ofNat_all_isDigit, Bool.not_true, Bool.false_eq_true, or_self,
    if_false, number_ofNat]

/-- Digits begin with no sign. -/
theorem sign_digits {ds : Text} (h : ds.all isDigit = true) : sign ds = (false, ds) := by
  cases ds with
  | nil => rfl
  | cons d ds =>
    rw [List.all_cons, Bool.and_eq_true] at h
    simp only [sign]
    split
    · rename_i heq
      cases heq
      exact absurd h.1 (by decide)
    · rename_i heq
      cases heq
      exact absurd h.1 (by decide)
    · rfl

/-- A number of 31 bits is read back, up to the byte behind it. -/
theorem atoi_ofNat {n : Nat} (hn : n ≤ 2147483647) {b : UInt8} (hb : ¬digitValue b < 10)
    (rest : Text) : atoi (ofNat n ++ b :: rest) = n := by
  rw [atoi_digits (ofNat_ne_nil n) (ofNat_all_isDigit n) hb, number_ofNat, toInt32, Int.bmod]
  omega

theorem sign_decimal (i : Int) : sign (decimal i) = (decide (i < 0), ofNat i.natAbs) := by
  rw [decimal]
  split
  · rename_i hneg
    simp only [hneg, decide_true]
    rfl
  · rename_i hneg
    simp only [hneg, decide_false]
    exact sign_digits (ofNat_all_isDigit _)

/-- The number behind its sign is the integer. -/
theorem signed_natAbs (i : Int) :
    (if decide (i < 0) = true then -((i.natAbs : Nat) : Int) else (i.natAbs : Nat)) = i := by
  split
  · rename_i hneg
    rw [decide_eq_true_eq] at hneg
    omega
  · rename_i hneg
    rw [decide_eq_true_eq] at hneg
    omega

@[simp]
theorem parseDecimal_decimal (i : Int) : parseDecimal (decimal i) = some i := by
  simp only [parseDecimal, sign_decimal, ofNat_ne_nil, ofNat_all_isDigit, Bool.not_true,
    Bool.false_eq_true, or_self, if_false, number_ofNat, signed_natAbs]

/-- A number without a leading zero is read in base ten, and zero is zero in base eight too. -/
theorem chooseBase_ofNat (n : Nat) :
    chooseBase (ofNat n) = (10, ofNat n) ∨ n = 0 ∧ chooseBase (ofNat n) = (8, ofNat n) := by
  by_cases hn : n = 0
  · subst hn
    right
    exact ⟨rfl, rfl⟩
  · left
    have hne : ∀ t, ofNat n ≠ 48 :: t := by
      intro t heq
      have hhead := ofNat_head_ne_zero (Nat.pos_of_ne_zero hn)
      rw [heq] at hhead
      exact hhead rfl
    rw [chooseBase]
    · intro t heq
      exact hne _ heq
    · intro t heq
      exact hne _ heq
    · intro t heq
      exact hne _ heq

@[simp]
theorem readInteger_decimal (i : Int) : readInteger (decimal i) = some i := by
  rcases chooseBase_ofNat i.natAbs with hten | ⟨hzero, -⟩
  · have hall : (ofNat i.natAbs).takeWhile (fun b => digitValue b < 10) = ofNat i.natAbs := by
      rw [List.takeWhile_eq_self_iff]
      intro d hd
      exact decide_eq_true (ofNat_digitValue _ d hd)
    simp only [readInteger, sign_decimal, hten, hall, List.drop_length, List.all_nil, Bool.not_true,
      Bool.false_eq_true, or_false, ofNat_ne_nil, if_false, number_ofNat, signed_natAbs]
  · rw [Int.natAbs_eq_zero] at hzero
    subst hzero
    decide

end Text
end HxSylar.Lib
