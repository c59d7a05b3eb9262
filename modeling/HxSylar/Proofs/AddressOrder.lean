import HxSylar.Address

namespace HxSylar
open Lib

section Dictionary

local instance byteLt_irrefl : Std.Irrefl (fun x y : UInt8 => x < y) := ⟨UInt8.lt_irrefl⟩

local instance byteLt_asymm : Std.Asymm (fun x y : UInt8 => x < y) := ⟨fun _ _ => UInt8.lt_asymm⟩

local instance byteLt_trichotomous : Std.Trichotomous (fun x y : UInt8 => x < y) :=
  ⟨fun _ _ hxy hyx => UInt8.le_antisymm (UInt8.not_lt.mp hyx) (UInt8.not_lt.mp hxy)⟩

local instance byteLt_trans :
    Trans (fun x y : UInt8 => x < y) (fun x y => x < y) (fun x y => x < y) :=
  ⟨UInt8.lt_trans⟩

/-- What `memcmp` over the shorter length and the lengths say together is the order of the
dictionary. -/
theorem memcmp_lex (a b : Text) :
    (memcmp (min a.length b.length) a b < 0 ∨
      memcmp (min a.length b.length) a b = 0 ∧ a.length < b.length ↔ a < b) ∧
      (memcmp (min a.length b.length) a b = 0 ∧ a.length = b.length ↔ a = b) := by
  induction a generalizing b with
  | nil =>
    cases b with
    | nil => simp [memcmp]
    | cons y b => simp [memcmp]
  | cons x a ih =>
    cases b with
    | nil => simp [memcmp]
    | cons y b =>
      rw [List.length_cons, List.length_cons, Nat.add_min_add_right, memcmp,
        List.cons_lt_cons_iff, List.cons.injEq, Nat.add_lt_add_iff_right, Nat.add_right_cancel_iff]
      by_cases hxy : x = y
      · subst y
        obtain ⟨hlt, heq⟩ := ih b
        rw [if_pos rfl, hlt, heq]
        simp
      · have hne : (x.toNat : Int) - y.toNat ≠ 0 := by
          intro h
          apply hxy
          apply UInt8.toNat_inj.mp
          omega
        rw [if_neg hxy, UInt8.lt_iff_toNat_lt]
        simp only [hne, hxy, false_and, or_false, iff_self, and_true]
        omega

/-- Only the bytes within the length count. -/
theorem memcmp_take {n k l : Nat} (hk : n ≤ k) (hl : n ≤ l) (a b : Text) :
    memcmp n (a.take k) (b.take l) = memcmp n a b := by
  induction n generalizing k l a b with
  | zero => simp [memcmp]
  | succ n ih =>
    obtain ⟨k, rfl⟩ := Nat.exists_eq_add_of_le' (Nat.le_trans (Nat.le_add_left 1 n) hk)
    obtain ⟨l, rfl⟩ := Nat.exists_eq_add_of_le' (Nat.le_trans (Nat.le_add_left 1 n) hl)
    cases a with
    | nil => simp [memcmp]
    | cons x a =>
      cases b with
      | nil => simp [memcmp]
      | cons y b =>
        rw [List.take_succ_cons, List.take_succ_cons, memcmp, memcmp]
        rw [ih (Nat.le_of_succ_le_succ hk) (Nat.le_of_succ_le_succ hl)]

namespace AddressBytes

/-- The bytes of an address. -/
def bytes (a : AddressBytes) : Text := a.getAddr.take a.getAddrLen

theorem length_bytes (a : AddressBytes) : a.bytes.length = a.getAddrLen := by
  rw [bytes, List.length_take, Nat.min_eq_left a.readable]

theorem memcmp_bytes {n : Nat} {a b : AddressBytes} (ha : n ≤ a.getAddrLen)
    (hb : n ≤ b.getAddrLen) : memcmp n a.getAddr b.getAddr = memcmp n a.bytes b.bytes :=
  (memcmp_take ha hb a.getAddr b.getAddr).symm

/-- `operator<` is the order of the dictionary on the bytes. -/
theorem less_iff (a b : AddressBytes) : a.less b = true ↔ a.bytes < b.bytes := by
  rw [← (memcmp_lex a.bytes b.bytes).1, length_bytes, length_bytes,
    ← memcmp_bytes (Nat.min_le_left _ _) (Nat.min_le_right _ _)]
  unfold less
  dsimp only
  split
  · rename_i hlt
    simp [hlt]
  · rename_i hge
    split
    · rename_i hgt
      simp
      omega
    · rename_i hle
      have hzero : memcmp (min a.getAddrLen b.getAddrLen) a.getAddr b.getAddr = 0 := by omega
      simp [hzero]

theorem equal_iff (a b : AddressBytes) : a.equal b = true ↔ a.bytes = b.bytes := by
  rw [← (memcmp_lex a.bytes b.bytes).2, length_bytes, length_bytes]
  unfold equal
  rw [Bool.and_eq_true, decide_eq_true_eq, decide_eq_true_eq]
  constructor
  · intro h
    rw [memcmp_bytes (Nat.le_refl _) (Nat.le_of_eq h.1)] at h
    rw [← h.1, Nat.min_self]
    exact ⟨h.2, rfl⟩
  · intro h
    have hlen := h.2
    rw [← hlen, Nat.min_self] at h
    rw [memcmp_bytes (Nat.le_refl _) (Nat.le_of_eq hlen)]
    exact ⟨hlen, h.1⟩

/-- `operator<` is a strict total order, and what it leaves equal is what `operator==` finds equal. -/
theorem less_strict_total :
    (∀ a : AddressBytes, a.less a = false) ∧
      (∀ a b c : AddressBytes, a.less b = true → b.less c = true → a.less c = true) ∧
      ∀ a b : AddressBytes,
        (a.less b = true ∧ a.equal b = false ∧ b.less a = false) ∨
          (a.less b = false ∧ a.equal b = true ∧ b.less a = false) ∨
          (a.less b = false ∧ a.equal b = false ∧ b.less a = true) := by
  simp only [← Bool.not_eq_true, less_iff, equal_iff]
  refine ⟨?_, ?_, ?_⟩
  · intro a
    exact List.lt_irrefl a.bytes
  · intro a b c hab hbc
    exact List.lt_trans hab hbc
  · intro a b
    by_cases hab : a.bytes < b.bytes
    · refine Or.inl ⟨hab, ?_, List.lt_asymm hab⟩
      intro heq
      exact List.lt_irrefl _ (heq ▸ hab)
    · by_cases hba : b.bytes < a.bytes
      · refine Or.inr (Or.inr ⟨hab, ?_, hba⟩)
        intro heq
        exact List.lt_irrefl _ (heq ▸ hba)
      · have heq : a.bytes = b.bytes :=
          List.le_antisymm (List.not_lt.mp hba) (List.not_lt.mp hab)
        exact Or.inr (Or.inl ⟨hab, heq, hba⟩)

end AddressBytes

end Dictionary

end HxSylar
