import Mathlib.Data.Nat.Log
import HxSylar.Proofs.ByteArray

namespace HxSylar.ByteArray
open Lib (splice leBytes leValue byteswap)

section Zigzag

theorem encodeZigzag_toNat {w : Nat} (hw : 1 < w) (v : BitVec w) :
    (encodeZigzag v).toNat =
      if 2 ^ (w - 1) ≤ v.toNat then 2 * (2 ^ w - v.toNat) - 1 else 2 * v.toNat := by
  have hpow : 2 ^ w = 2 * 2 ^ (w - 1) := by
    rw [← Nat.pow_succ']
    congr 1
    omega
  have hlt := v.isLt
  have hbig : 2 ≤ 2 ^ (w - 1) := Nat.le_self_pow (by omega) 2
  have hone : 1 % 2 ^ w = 1 := Nat.mod_eq_of_lt (by omega)
  have htwo : 2 % 2 ^ w = 2 := Nat.mod_eq_of_lt (by omega)
  have hslt : v.slt 0 = decide (2 ^ (w - 1) ≤ v.toNat) := by
    rw [BitVec.ofNat_eq_ofNat, BitVec.slt_zero_eq_msb, BitVec.msb_eq_decide]
  simp only [encodeZigzag, hslt, decide_eq_true_eq]
  split
  · rename_i hneg
    simp only [BitVec.toNat_sub, BitVec.toNat_mul, BitVec.toNat_neg, BitVec.ofNat_eq_ofNat,
      BitVec.toNat_ofNat, hone, htwo]
    rw [Nat.mod_eq_of_lt (show 2 ^ w - v.toNat < 2 ^ w by omega)]
    rcases Nat.eq_or_lt_of_le hneg with he | hgt
    · -- the least value: its double wraps to zero and one is taken from that
      have hmin : (2 ^ w - v.toNat) * 2 = 2 ^ w := by omega
      rw [hmin, Nat.mod_self, Nat.add_zero, Nat.mod_eq_of_lt (by omega)]
      omega
    · rw [Nat.mod_eq_of_lt (show (2 ^ w - v.toNat) * 2 < 2 ^ w by omega)]
      have hsum : 2 ^ w - 1 + (2 ^ w - v.toNat) * 2 = 2 ^ w + (2 * (2 ^ w - v.toNat) - 1) := by
        omega
      rw [hsum, Nat.add_mod_left, Nat.mod_eq_of_lt (by omega)]
  · rename_i hpos
    simp only [BitVec.toNat_mul, BitVec.ofNat_eq_ofNat, BitVec.toNat_ofNat, htwo]
    rw [Nat.mod_eq_of_lt (by omega), Nat.mul_comm]

theorem decodeZigzag_toNat {w : Nat} (hw : 1 < w) (v : BitVec w) :
    (decodeZigzag v).toNat =
      if v.toNat % 2 = 1 then 2 ^ w - 1 - v.toNat / 2 else v.toNat / 2 := by
  have hand : v &&& 1 = BitVec.ofNat w (v.toNat % 2) := by
    apply BitVec.eq_of_toNat_eq
    have hone : 1 % 2 ^ w = 1 := Nat.mod_eq_of_lt (Nat.one_lt_two_pow (by omega))
    have hle : v.toNat % 2 ≤ v.toNat := Nat.mod_le _ _
    rw [BitVec.toNat_and, BitVec.ofNat_eq_ofNat, BitVec.toNat_ofNat, BitVec.toNat_ofNat, hone,
      Nat.and_one_is_mod, Nat.mod_eq_of_lt (Nat.lt_of_le_of_lt hle v.isLt)]
  rw [decodeZigzag, hand]
  split
  · rename_i h
    rw [h, BitVec.neg_one_eq_allOnes, BitVec.xor_allOnes, BitVec.toNat_not,
      BitVec.toNat_ushiftRight, Nat.shiftRight_one]
  · rename_i h
    have hz : v.toNat % 2 = 0 := by omega
    rw [hz, BitVec.neg_zero, BitVec.xor_zero, BitVec.toNat_ushiftRight, Nat.shiftRight_one]

/-- Also of the least value, whose negation is itself. -/
theorem decodeZigzag_encodeZigzag {w : Nat} (hw : 1 < w) (v : BitVec w) :
    decodeZigzag (encodeZigzag v) = v := by
  have hlt := v.isLt
  apply BitVec.eq_of_toNat_eq
  rw [decodeZigzag_toNat hw, encodeZigzag_toNat hw]
  split <;> split <;> omega

end Zigzag

section Varint

theorem varint_small {v : Nat} (h : v < 128) : varint v = [UInt8.ofNat v] := by
  rw [varint, if_pos h]

theorem varint_large {v : Nat} (h : 128 ≤ v) :
    varint v = UInt8.ofNat ((v &&& 0x7F) ||| 0x80) :: varint (v / 128) := by
  rw [varint, if_neg (by omega), Nat.shiftRight_eq_div_pow]

theorem low_bits (v : Nat) : v &&& 0x7F = v % 128 := Nat.and_two_pow_sub_one_eq_mod v 7

/-- A byte with its continuation bit. -/
theorem continued (v : Nat) : (UInt8.ofNat ((v &&& 0x7F) ||| 0x80)).toNat = v % 128 + 128 := by
  have hlt : v % 128 < 2 ^ 7 := Nat.mod_lt _ (by decide)
  have hor : v % 128 ||| 0x80 = v % 128 + 128 := by
    have h := Nat.two_pow_add_eq_or_of_lt hlt 1
    rw [Nat.or_comm, Nat.add_comm]
    exact h.symm
  rw [UInt8.toNat_ofNat', low_bits, hor]
  omega

theorem varint_length (v : Nat) : (varint v).length = Nat.log 128 v + 1 := by
  induction v using Nat.strong_induction_on with
  | _ v ih =>
    by_cases h : v < 128
    · rw [varint_small h, Nat.log_of_lt h, List.length_singleton]
    · rw [varint_large (Nat.le_of_not_lt h), List.length_cons, ih (v / 128) (by omega),
        Nat.log_of_one_lt_of_le (by decide) (Nat.le_of_not_lt h)]

/-- `tmp` has room for the encoding: 5 bytes for 32 bits, 10 for 64. -/
theorem varint_fits {v n : Nat} (hn : 1 ≤ n) (h : v < 2 ^ (7 * n)) : (varint v).length ≤ n := by
  rw [varint_length]
  apply Nat.succ_le_of_lt
  apply Nat.log_lt_of_lt_pow' (by omega)
  rwa [show (128 : Nat) = 2 ^ 7 from rfl, ← Nat.pow_mul]

/-- How many bytes a varint of at most `n` groups of seven bits takes: up to the first byte below
0x80, which may not be there. -/
def groups : Nat → List UInt8 → Nat
  | 0, _ => 0
  | _ + 1, [] => 1
  | n + 1, x :: xs => if x < 0x80 then 1 else groups n xs + 1

/-- The groups of seven bits together, the lowest first. -/
def sevens : List UInt8 → Nat
  | [] => 0
  | x :: xs => x.toNat % 128 + 128 * sevens xs

theorem groups_varint {v n : Nat} (h : (varint v).length ≤ n) :
    groups n (varint v) = (varint v).length := by
  induction v using Nat.strong_induction_on generalizing n with
  | _ v ih =>
    by_cases hv : v < 128
    · have hlt : UInt8.ofNat v < 0x80 := by
        rw [UInt8.lt_iff_toNat_lt, UInt8.toNat_ofNat', Nat.mod_eq_of_lt (by omega)]
        exact hv
      rw [varint_small hv] at h ⊢
      cases n with
      | zero => cases h
      | succ n => rw [groups, if_pos hlt, List.length_singleton]
    · have hge : ¬UInt8.ofNat ((v &&& 0x7F) ||| 0x80) < 0x80 := by
        rw [UInt8.lt_iff_toNat_lt, continued]
        simp
      rw [varint_large (Nat.le_of_not_lt hv)] at h ⊢
      cases n with
      | zero => cases h
      | succ n =>
        rw [groups, if_neg hge, ih (v / 128) (by omega) (Nat.le_of_succ_le_succ h), List.length_cons]

theorem sevens_varint (v : Nat) : sevens (varint v) = v := by
  induction v using Nat.strong_induction_on with
  | _ v ih =>
    by_cases hv : v < 128
    · rw [varint_small hv, sevens, sevens, UInt8.toNat_ofNat']
      omega
    · rw [varint_large (Nat.le_of_not_lt hv), sevens, continued, ih (v / 128) (by omega)]
      omega

/-- What the loop does with seven more bits: those past the width are lost. -/
theorem or_shifted {w i r : Nat} (hi : i < w) (hlow : r < 2 ^ i) (u : Nat) :
    r ||| (u <<< i) % 2 ^ w = (r + u * 2 ^ i) % 2 ^ w := by
  have hpow : 2 ^ w = 2 ^ (w - i) * 2 ^ i := by
    rw [← Nat.pow_add, Nat.sub_add_cancel (Nat.le_of_lt hi)]
  have hcut : (u <<< i) % 2 ^ w = u % 2 ^ (w - i) * 2 ^ i := by
    rw [Nat.shiftLeft_eq, hpow, Nat.mul_mod_mul_right]
  have hor := Nat.two_pow_add_eq_or_of_lt hlow (u % 2 ^ (w - i))
  have hlt : r + u % 2 ^ (w - i) * 2 ^ i < 2 ^ w := by
    have hmod : u % 2 ^ (w - i) + 1 ≤ 2 ^ (w - i) := Nat.mod_lt _ (Nat.two_pow_pos _)
    have hmul := Nat.mul_le_mul_right (2 ^ i) hmod
    rw [← hpow, Nat.add_mul, Nat.one_mul] at hmul
    omega
  have hsum : (r + u * 2 ^ i) % 2 ^ w = r + u % 2 ^ (w - i) * 2 ^ i := by
    rw [← Nat.add_mod_mod, ← Nat.shiftLeft_eq, hcut, Nat.mod_eq_of_lt hlt]
  rw [hsum, hcut, Nat.or_comm, Nat.mul_comm _ (2 ^ i), ← hor, Nat.add_comm]

end Varint

/-- An array whose position is at its end, with no node that is not needed. -/
structure AtEnd (base : Nat) (b : ByteArray) : Prop where
  rep : Rep base b
  position_eq : b.position = b.size
  endian_eq : b.endian = .big
  tight : b.capacity = base ∨ b.capacity < b.size + base

/-- `x` writes `bytes` where the position is. -/
def Writes (base : Nat) (x : Op Unit) (bytes : List UInt8) : Prop :=
  ∀ b, Rep base b → b.endian = .big →
    ∃ b', x b = .ok () b' ∧ Written base b bytes b' ∧ b.capacity ≤ b'.capacity

/-- `x` appends `bytes`. -/
def Appends (base : Nat) (x : Op Unit) (bytes : List UInt8) : Prop :=
  ∀ b, AtEnd base b → ∃ b', x b = .ok () b' ∧ AtEnd base b' ∧ b'.contents = b.contents ++ bytes

/-- An array of a given capacity and size with `bytes` left to read. -/
structure Remaining (base capacity size : Nat) (bytes : List UInt8) (b : ByteArray) : Prop where
  rep : Rep base b
  endian_eq : b.endian = .big
  capacity_eq : b.capacity = capacity
  size_eq : b.size = size
  unread_eq : b.unread = bytes

/-- `x` reads `bytes` as the value `a` and leaves what follows them. -/
def Consumes (base : Nat) {α : Type} (x : Op α) (bytes : List UInt8) (a : α) : Prop :=
  ∀ capacity size rest b, Remaining base capacity size (bytes ++ rest) b →
    ∃ b', x b = .ok a b' ∧ Remaining base capacity size rest b'

section Rules
variable {base : Nat}

/-- Writes in a row are one write. -/
theorem Written.append {b b₁ b₂ : ByteArray} {u v : List UInt8} (h : Rep base b) (h₁ : Written base b u b₁)
    (h₂ : Written base b₁ v b₂) : Written base b (u ++ v) b₂ := by
  have hp := h.position_le
  refine ⟨h₂.rep, ?_, ?_, ?_, h₂.endian_eq.trans h₁.endian_eq, ?_⟩
  · rw [h₂.position_eq, h₁.position_eq, List.length_append, Nat.add_assoc]
  · rw [h₂.size_eq, h₁.size_eq, h₁.position_eq, List.length_append]
    omega
  · rw [h₂.contents_eq, h₁.contents_eq, h₁.position_eq,
      Lib.splice_splice u v (by rw [h.contents_length]; exact hp)]
  · have hcap := h₁.no_more
    rw [List.length_append]
    rcases h₂.no_more with hc | hc
    · rw [hc]
      omega
    · rw [h₁.position_eq] at hc
      omega

theorem writes_write (hb : 1 ≤ base) (garbage : Garbage) (data : List UInt8) :
    Writes base (write garbage data) data := by
  intro b h _
  obtain ⟨b', hw, hwritten⟩ := write_spec hb h garbage data
  refine ⟨b', hw, hwritten, ?_⟩
  by_cases hfit : b.position + data.length ≤ b.capacity
  · obtain ⟨b'', hw', -, hcap, -⟩ := write_within hb h garbage hfit
    cases hw.symm.trans hw'
    exact Nat.le_of_eq hcap.symm
  · have hle := hwritten.rep.size_le
    rw [hwritten.size_eq] at hle
    omega

theorem Writes.seq {x y : Op Unit} {u v : List UInt8} (hx : Writes base x u)
    (hy : Writes base y v) : Writes base (x >>= fun _ => y) (u ++ v) := by
  intro b h hend
  obtain ⟨b₁, he₁, h₁, hcap₁⟩ := hx b h hend
  obtain ⟨b₂, he₂, h₂, hcap₂⟩ := hy b₁ h₁.rep (h₁.endian_eq.trans hend)
  refine ⟨b₂, ?_, h₁.append h h₂, Nat.le_trans hcap₁ hcap₂⟩
  rw [Lib.Effect.bind_ok he₁, he₂]

/-- A write at the end appends. -/
theorem Writes.appends {x : Op Unit} {bytes : List UInt8} (hx : Writes base x bytes) :
    Appends base x bytes := by
  intro b h
  obtain ⟨b', he, hw, -⟩ := hx b h.rep h.endian_eq
  have hp := h.position_eq
  have hsize : b'.size = b.size + bytes.length := by
    rw [hw.size_eq]
    omega
  refine ⟨b', he, ⟨hw.rep, ?_, hw.endian_eq.trans h.endian_eq, ?_⟩, ?_⟩
  · rw [hw.position_eq, hsize, hp]
  · rcases hw.no_more with hc | hc
    · rcases h.tight with ht | ht
      · exact .inl (hc.trans ht)
      · exact .inr (by omega)
    · exact .inr (by omega)
  · have hlen := h.rep.contents_length
    rw [hw.contents_eq, splice, hp, List.take_of_length_le (by omega),
      List.drop_eq_nil_of_le (by omega), List.append_nil]

theorem appends_write (hb : 1 ≤ base) (garbage : Garbage) (data : List UInt8) :
    Appends base (write garbage data) data :=
  (writes_write hb garbage data).appends

theorem Appends.seq {x y : Op Unit} {u v : List UInt8} (hx : Appends base x u)
    (hy : Appends base y v) : Appends base (x >>= fun _ => y) (u ++ v) := by
  intro b h
  obtain ⟨b₁, he₁, h₁, hc₁⟩ := hx b h
  obtain ⟨b₂, he₂, h₂, hc₂⟩ := hy b₁ h₁
  refine ⟨b₂, ?_, h₂, ?_⟩
  · rw [Lib.Effect.bind_ok he₁, he₂]
  · rw [hc₂, hc₁, List.append_assoc]

theorem appends_pure : Appends base (pure ()) [] :=
  fun b h => ⟨b, rfl, h, (List.append_nil _).symm⟩

theorem Remaining.position_add {capacity size : Nat} {bytes : List UInt8} {b : ByteArray}
    (h : Remaining base capacity size bytes b) : b.position + bytes.length = size := by
  have hlen := h.rep.unread_length
  have hp := h.rep.position_le
  rw [h.unread_eq, h.rep.getReadSize_eq, h.size_eq] at hlen
  rw [h.size_eq] at hp
  omega

/-- A read goes through unless it starts at the very end of the last node. -/
theorem Remaining.read (hb : 1 ≤ base) {capacity size : Nat} {data rest : List UInt8} {b : ByteArray}
    (h : Remaining base capacity size (data ++ rest) b)
    (hin : data ++ rest ≠ [] ∨ size ≠ capacity) :
    ∃ b', ByteArray.read data.length b = .ok data b' ∧ Remaining base capacity size rest b' := by
  have hadd := h.position_add
  have hsize := h.rep.size_le
  rw [h.size_eq, h.capacity_eq] at hsize
  rw [List.length_append] at hadd
  have hne : b.position ≠ b.capacity := by
    rw [h.capacity_eq]
    rcases hin with hd | hs
    · have hpos := List.length_pos_iff.mpr hd
      rw [List.length_append] at hpos
      omega
    · omega
  have hr : data.length ≤ b.getReadSize := by
    rw [← h.rep.unread_length, h.unread_eq, List.length_append]
    omega
  have hfit : b.position + data.length ≤ b.size := by
    rw [h.size_eq]
    omega
  have hread := read_eq hb h.rep hr hne
  rw [h.unread_eq, List.take_left'  rfl] at hread
  refine ⟨_, hread, h.rep.moveTo hb (Nat.le_trans hfit h.rep.size_le), h.endian_eq, h.capacity_eq,
    ?_, ?_⟩
  · rw [moveTo_of_le hfit]
    exact h.size_eq
  · rw [moveTo_of_le hfit]
    have hu := h.unread_eq
    simp only [unread, contents, flat] at hu ⊢
    rw [← List.drop_drop, hu, List.drop_left' rfl]

theorem consumes_read (hb : 1 ≤ base) {data : List UInt8} (hd : data ≠ []) :
    Consumes base (read data.length) data data := by
  intro capacity size rest b h
  apply h.read hb
  exact .inl (by simp [hd])

theorem consumes_pure {α : Type} (a : α) : Consumes base (pure a) [] a :=
  fun _ _ _ b h => ⟨b, rfl, h⟩

theorem Consumes.bind {α β : Type} {x : Op α} {f : α → Op β} {u v : List UInt8} {a : α} {c : β}
    (hx : Consumes base x u a) (hf : Consumes base (f a) v c) :
    Consumes base (x >>= f) (u ++ v) c := by
  intro capacity size rest b h
  rw [List.append_assoc] at h
  obtain ⟨b₁, he₁, h₁⟩ := hx capacity size (v ++ rest) b h
  obtain ⟨b₂, he₂, h₂⟩ := hf capacity size rest b₁ h₁
  exact ⟨b₂, by rw [Lib.Effect.bind_ok he₁, he₂], h₂⟩

theorem Consumes.return {α β : Type} {x : Op α} {u : List UInt8} {a : α}
    (hx : Consumes base x u a) (f : α → β) :
    Consumes base (x >>= fun a => pure (f a)) u (f a) := by
  have h := hx.bind (f := fun a => pure (f a)) (consumes_pure (f a))
  rwa [List.append_nil] at h

end Rules

section Numbers
variable {base : Nat}

/-- A fixed-width value is stored with its highest byte first on every host. -/
theorem writes_writeFixed (hb : 1 ≤ base) (host : Endian) (garbage : Garbage) (n v : Nat) :
    Writes base (writeFixed host garbage n v) (leBytes n v).reverse := by
  intro b h hend
  have hget : (get : Op ByteArray) b = .ok b b := rfl
  have hw := writes_write hb garbage (leBytes n v).reverse b h hend
  rw [writeFixed, Lib.Effect.bind_ok hget, hend]
  cases host with
  | little =>
    rw [if_pos (by decide), Endian.bytes, Lib.leBytes_byteswap]
    exact hw
  | big =>
    rw [if_neg (by decide), Endian.bytes]
    exact hw

theorem appends_writeFixed (hb : 1 ≤ base) (host : Endian) (garbage : Garbage) (n v : Nat) :
    Appends base (writeFixed host garbage n v) (leBytes n v).reverse :=
  (writes_writeFixed hb host garbage n v).appends

theorem consumes_readFixed (hb : 1 ≤ base) (host : Endian) {n v : Nat} (hn : n ≠ 0)
    (hv : v < 256 ^ n) : Consumes base (readFixed host n) (leBytes n v).reverse v := by
  intro capacity size rest b h
  have hne : (leBytes n v).reverse ≠ [] := by
    rw [ne_eq, List.reverse_eq_nil_iff]
    apply List.ne_nil_of_length_pos
    rw [Lib.leBytes_length]
    omega
  obtain ⟨b', he, h'⟩ := consumes_read hb hne capacity size rest b h
  rw [List.length_reverse, Lib.leBytes_length] at he
  have hget : (get : Op ByteArray) b' = .ok b' b' := rfl
  refine ⟨b', ?_, h'⟩
  rw [readFixed, Lib.Effect.bind_ok he, Lib.Effect.bind_ok hget, h'.endian_eq]
  cases host with
  | little =>
    have hswap : byteswap n (leValue (leBytes n v).reverse) = v := Lib.byteswap_byteswap hv
    rw [if_neg (by decide), Endian.value, hswap]
    rfl
  | big =>
    rw [if_pos rfl, Endian.value, List.reverse_reverse, Lib.leValue_leBytes hv]
    rfl

theorem consumes_readFuint8 (hb : 1 ≤ base) (v : UInt8) : Consumes base readFuint8 [v] v :=
  (consumes_read hb (List.cons_ne_nil v [])).return (fun data => data.headD 0)

theorem seven_bits (x : UInt8) : (x &&& 0x7F).toNat = x.toNat % 128 := by
  rw [UInt8.toNat_and]
  exact low_bits x.toNat

/-- The loop from shift `i` on, with the lower bits collected in `r`. -/
theorem consumes_groups (hb : 1 ≤ base) {w i r n : Nat} (hn : n = (w - i + 6) / 7) (hlow : r < 2 ^ i)
    (hw : r < 2 ^ w) {data : List UInt8} (hd : groups n data ≤ data.length) :
    Consumes base (readVarint w i r) (data.take (groups n data))
      ((r + sevens (data.take (groups n data)) * 2 ^ i) % 2 ^ w) := by
  induction n generalizing i r data with
  | zero =>
    rw [readVarint, if_neg (by omega), groups, List.take_zero, sevens, Nat.zero_mul, Nat.add_zero,
      Nat.mod_eq_of_lt hw]
    exact consumes_pure _
  | succ n ih =>
    have hi : i < w := by omega
    cases data with
    | nil => cases hd
    | cons x xs =>
      rw [readVarint, if_pos hi]
      by_cases hx : x < 0x80
      · -- the last byte
        have hsmall : x.toNat % 128 = x.toNat := by
          rw [UInt8.lt_iff_toNat_lt] at hx
          exact Nat.mod_eq_of_lt hx
        rw [groups, if_pos hx, List.take_succ_cons, List.take_zero, sevens, sevens, hsmall,
          Nat.mul_zero, Nat.add_zero]
        apply (consumes_readFuint8 hb x).bind (v := [])
        rw [if_pos hx, or_shifted hi hlow]
        exact consumes_pure _
      · rw [groups, if_neg hx] at hd ⊢
        have hpow : 2 ^ (i + 7) = 128 * 2 ^ i := by
          rw [Nat.pow_add, Nat.mul_comm]
        have hmul : x.toNat % 128 * 2 ^ i ≤ 127 * 2 ^ i := Nat.mul_le_mul_right _ (by omega)
        have hrest := ih (i := i + 7) (r := (r + x.toNat % 128 * 2 ^ i) % 2 ^ w) (by omega)
          (Nat.lt_of_le_of_lt (Nat.mod_le _ _) (by omega)) (Nat.mod_lt _ (Nat.two_pow_pos w))
          (Nat.le_of_succ_le_succ hd)
        have hvalue : r + sevens (x :: xs.take (groups n xs)) * 2 ^ i =
            r + x.toNat % 128 * 2 ^ i + sevens (xs.take (groups n xs)) * 2 ^ (i + 7) := by
          rw [sevens, hpow, Nat.add_mul, Nat.add_assoc, Nat.mul_comm 128, Nat.mul_assoc]
        rw [List.take_succ_cons, hvalue, ← Nat.mod_add_mod]
        apply (consumes_readFuint8 hb x).bind (u := [_])
        rw [if_neg hx, seven_bits, or_shifted hi hlow]
        exact hrest

theorem consumes_readVarint (hb : 1 ≤ base) {w v : Nat} (hw : 0 < w) (hv : v < 2 ^ w) :
    Consumes base (readVarint w 0 0) (varint v) v := by
  have hfits : (varint v).length ≤ (w - 0 + 6) / 7 := by
    apply varint_fits (by omega)
    exact Nat.lt_of_lt_of_le hv (Nat.pow_le_pow_right (by decide) (by omega))
  have hall := groups_varint hfits
  have h := consumes_groups hb (w := w) (i := 0) (r := 0) rfl (Nat.two_pow_pos 0) (Nat.two_pow_pos w)
    (Nat.le_of_eq hall)
  rw [hall, List.take_length, sevens_varint, Nat.zero_add, Nat.pow_zero, Nat.mul_one,
    Nat.mod_eq_of_lt hv] at h
  exact h

theorem consumes_readUint32 (hb : 1 ≤ base) (v : UInt32) :
    Consumes base readUint32 (varint v.toNat) v := by
  have h := (consumes_readVarint hb (w := 32) (by decide) v.toNat_lt).return UInt32.ofNat
  rw [UInt32.ofNat_toNat] at h
  exact h

theorem consumes_readUint64 (hb : 1 ≤ base) (v : UInt64) :
    Consumes base readUint64 (varint v.toNat) v := by
  have h := (consumes_readVarint hb (w := 64) (by decide) v.toNat_lt).return UInt64.ofNat
  rw [UInt64.ofNat_toNat] at h
  exact h

/-- The bytes that stand for a value. -/
def Number.encode : (n : Number) → n.type → List UInt8
  | fint8, v => [Int8.toUInt8 v]
  | fuint8, v => [v]
  | fint16, v => (leBytes 2 (Int16.toUInt16 v).toNat).reverse
  | fuint16, v => (leBytes 2 (UInt16.toNat v)).reverse
  | fint32, v => (leBytes 4 (Int32.toUInt32 v).toNat).reverse
  | fuint32, v | float, v => (leBytes 4 (UInt32.toNat v)).reverse
  | fint64, v => (leBytes 8 (Int64.toUInt64 v).toNat).reverse
  | fuint64, v => (leBytes 8 (UInt64.toNat v)).reverse
  | int32, v => varint (encodeZigzag32 v).toNat
  | uint32, v => varint (UInt32.toNat v)
  | int64, v => varint (encodeZigzag64 v).toNat
  | uint64, v => varint (UInt64.toNat v)

theorem appends_number (hb : 1 ≤ base) (host : Endian) (garbage : Garbage) (n : Number)
    (v : n.type) : Appends base (n.write host garbage v) (n.encode v) := by
  cases n with
  | fint8 => exact appends_write hb garbage [Int8.toUInt8 v]
  | fuint8 => exact appends_write hb garbage [v]
  | int32 | uint32 | int64 | uint64 => exact appends_write hb garbage _
  | _ => exact appends_writeFixed hb host garbage _ _

theorem decodeZigzag32_encodeZigzag32 (v : Int32) : decodeZigzag32 (encodeZigzag32 v) = v := by
  simp only [decodeZigzag32, encodeZigzag32, decodeZigzag_encodeZigzag (w := 32) (by decide)]
  rfl

theorem decodeZigzag64_encodeZigzag64 (v : Int64) : decodeZigzag64 (encodeZigzag64 v) = v := by
  simp only [decodeZigzag64, encodeZigzag64, decodeZigzag_encodeZigzag (w := 64) (by decide)]
  rfl

theorem consumes_number (hb : 1 ≤ base) (host : Endian) (n : Number) (v : n.type) :
    Consumes base (n.read host) (n.encode v) v := by
  have fixed : ∀ m u : Nat, m ≠ 0 → u < 256 ^ m →
      Consumes base (readFixed host m) (leBytes m u).reverse u :=
    fun _ _ hm hu => consumes_readFixed hb host hm hu
  cases n with
  | fint8 =>
    have h := (consumes_read hb (List.cons_ne_nil (Int8.toUInt8 v) [])).return
      (fun data => (data.headD 0).toInt8)
    exact h
  | fuint8 => exact consumes_readFuint8 hb v
  | fint16 =>
    have h := (fixed 2 _ (by decide) (UInt16.toNat_lt (Int16.toUInt16 v))).return
      (fun u => (UInt16.ofNat u).toInt16)
    rwa [UInt16.ofNat_toNat] at h
  | fuint16 =>
    have h := (fixed 2 _ (by decide) (UInt16.toNat_lt v)).return UInt16.ofNat
    rwa [UInt16.ofNat_toNat] at h
  | fint32 =>
    have h := (fixed 4 _ (by decide) (UInt32.toNat_lt (Int32.toUInt32 v))).return
      (fun u => (UInt32.ofNat u).toInt32)
    rwa [UInt32.ofNat_toNat] at h
  | fuint32 | float =>
    have h := (fixed 4 _ (by decide) (UInt32.toNat_lt v)).return UInt32.ofNat
    rwa [UInt32.ofNat_toNat] at h
  | fint64 =>
    have h := (fixed 8 _ (by decide) (UInt64.toNat_lt (Int64.toUInt64 v))).return
      (fun u => (UInt64.ofNat u).toInt64)
    rwa [UInt64.ofNat_toNat] at h
  | fuint64 =>
    have h := (fixed 8 _ (by decide) (UInt64.toNat_lt v)).return UInt64.ofNat
    rwa [UInt64.ofNat_toNat] at h
  | int32 =>
    have h := (consumes_readUint32 hb (encodeZigzag32 v)).return decodeZigzag32
    rwa [decodeZigzag32_encodeZigzag32] at h
  | uint32 => exact consumes_readUint32 hb v
  | int64 =>
    have h := (consumes_readUint64 hb (encodeZigzag64 v)).return decodeZigzag64
    rwa [decodeZigzag64_encodeZigzag64] at h
  | uint64 => exact consumes_readUint64 hb v

end Numbers

/-- A number with its type. -/
abbrev Value := Σ n : Number, n.type

def writeAll (host : Endian) (garbage : Garbage) : List Value → Op Unit
  | [] => pure ()
  | v :: vs => do
    v.1.write host garbage v.2
    writeAll host garbage vs

def readAll (host : Endian) : List Number → Op (List Value)
  | [] => pure []
  | n :: ns => do
    let v ← n.read host
    let vs ← readAll host ns
    return ⟨n, v⟩ :: vs

section Sequences
variable {base : Nat}

theorem atEnd_create (hb : 1 ≤ base) (fill : Garbage) : AtEnd base (create base fill) :=
  ⟨rep_create hb fill, rfl, rfl, .inl rfl⟩

/-- What was written can be read from the start. -/
theorem remaining_from_start (hb : 1 ≤ base) {b : ByteArray} (h : AtEnd base b) :
    setPosition 0 b = .ok () (b.moveTo 0) ∧
      Remaining base b.capacity b.size b.contents (b.moveTo 0) := by
  refine ⟨setPosition_eq hb h.rep (Nat.zero_le _), h.rep.moveTo hb (Nat.zero_le _), h.endian_eq, rfl,
    Nat.max_eq_left (Nat.zero_le _), ?_⟩
  rw [moveTo_of_le (Nat.zero_le _)]
  rfl

theorem appends_writeAll (hb : 1 ≤ base) (host : Endian) (garbage : Garbage) (vs : List Value) :
    Appends base (writeAll host garbage vs) (vs.flatMap (fun v => v.1.encode v.2)) := by
  induction vs with
  | nil => exact appends_pure
  | cons v vs ih =>
    rw [List.flatMap_cons]
    exact (appends_number hb host garbage v.1 v.2).seq ih

theorem consumes_readAll (hb : 1 ≤ base) (host : Endian) (vs : List Value) :
    Consumes base (readAll host (vs.map Sigma.fst)) (vs.flatMap (fun v => v.1.encode v.2)) vs := by
  induction vs with
  | nil => exact consumes_pure _
  | cons v vs ih =>
    rw [List.flatMap_cons]
    exact (consumes_number hb host v.1 v.2).bind (ih.return (⟨v.1, v.2⟩ :: ·))

/-- Every sequence of numbers comes back as it was written, with nothing left to
read, for every node size, byte order of the host and content of fresh memory. -/
theorem number_round_trip (hb : 1 ≤ base) (host : Endian) (fill garbage : Garbage)
    (vs : List Value) :
    ∃ b, (do writeAll host garbage vs
             setPosition 0
             readAll host (vs.map Sigma.fst)) (create base fill) = .ok vs b ∧
      b.getReadSize = 0 := by
  obtain ⟨b₁, he₁, h₁, hc⟩ := appends_writeAll hb host garbage vs _ (atEnd_create hb fill)
  obtain ⟨he₂, h₂⟩ := remaining_from_start hb h₁
  have hnil : (create base fill).contents = [] := rfl
  rw [hc, hnil, List.nil_append, ← List.append_nil (vs.flatMap _)] at h₂
  obtain ⟨b₃, he₃, h₃⟩ := consumes_readAll hb host vs _ _ [] _ h₂
  refine ⟨b₃, ?_, ?_⟩
  · rw [Lib.Effect.bind_ok he₁, Lib.Effect.bind_ok he₂, he₃]
  · rw [← h₃.rep.unread_length, h₃.unread_eq, List.length_nil]

/-- The least signed values across nodes of three bytes. -/
theorem number_round_trip_least :
    ∃ b, (do writeAll .little (fun _ _ => 7) [⟨.int32, Int32.minValue⟩, ⟨.fint64, Int64.minValue⟩]
             setPosition 0
             readAll .little [.int32, .fint64]) (create 3 (fun _ _ => 9)) =
        .ok [⟨.int32, Int32.minValue⟩, ⟨.fint64, Int64.minValue⟩] b ∧ b.getReadSize = 0 :=
  number_round_trip (by decide) .little _ _ [⟨.int32, Int32.minValue⟩, ⟨.fint64, Int64.minValue⟩]

end Sequences

/-- The formats whose length prefix holds every length. -/
def Format.Wide : Format → Prop
  | f64 | vint => True
  | f16 | f32 => False

instance : (f : Format) → Decidable f.Wide
  | .f64 | .vint => .isTrue trivial
  | .f16 | .f32 => .isFalse id

/-- How many bytes a string takes in the stream: eight for its length, or one for each
seven bits of it, and then its own. -/
def Format.space (f : Format) (value : CppString) : Nat :=
  match f with
  | f16 => 2 + value.1.length
  | f32 => 4 + value.1.length
  | f64 => 8 + value.1.length
  | vint => Nat.log 128 value.1.length + 1 + value.1.length

/-- A string with the format it is written and read in. -/
abbrev Text := Format × CppString

def writeTexts (host : Endian) (garbage : Garbage) : List Text → Op Unit
  | [] => pure ()
  | p :: ps => do
    p.1.write host garbage p.2
    writeTexts host garbage ps

def readTexts (host : Endian) : List Format → Op (List (List UInt8))
  | [] => pure []
  | f :: fs => do
    let s ← f.read host
    let ss ← readTexts host fs
    return s :: ss

/-- Written to a fresh array and read from its start, the strings come back and
nothing is left. -/
def TextsReturn (host : Endian) (base : Nat) (fill garbage : Garbage) (ps : List Text) : Prop :=
  ∃ b, (do writeTexts host garbage ps
           setPosition 0
           readTexts host (ps.map Prod.fst)) (create base fill) = .ok (ps.map (·.2.1)) b ∧
    b.getReadSize = 0

section Strings
variable {base : Nat}

/-- The length prefix; a string follows it. -/
def Format.lengthBytes (f : Format) (value : CppString) : List UInt8 :=
  match f with
  | f16 => (leBytes 2 value.1.length).reverse
  | f32 => (leBytes 4 value.1.length).reverse
  | f64 => (leBytes 8 value.1.length).reverse
  | vint => varint value.1.length

def encodeText (p : Text) : List UInt8 := p.1.lengthBytes p.2 ++ p.2.1

theorem encodeText_length (p : Text) : (encodeText p).length = p.1.space p.2 := by
  obtain ⟨f, value⟩ := p
  cases f <;> simp [encodeText, Format.lengthBytes, Format.space, varint_length]

theorem encodeText_ne_nil (p : Text) : encodeText p ≠ [] := by
  apply List.ne_nil_of_length_pos
  rw [encodeText_length]
  cases p.1 <;> simp only [Format.space] <;> omega

theorem texts_length (ps : List Text) :
    (ps.flatMap encodeText).length = (ps.map (fun p => p.1.space p.2)).sum := by
  rw [List.length_flatMap]
  congr 1
  apply List.map_congr_left
  intro p _
  exact encodeText_length p

theorem size_fits (value : CppString) : value.1.length < 2 ^ 64 := by
  have h : value.1.length ≤ 0x3fffffffffffffff := value.2
  omega

theorem appends_text (hb : 1 ≤ base) (host : Endian) (garbage : Garbage) {p : Text}
    (hw : p.1.Wide) : Appends base (p.1.write host garbage p.2) (encodeText p) := by
  obtain ⟨f, value⟩ := p
  have hlen := UInt64.toNat_ofNat_of_lt' (size_fits value)
  cases f with
  | f16 | f32 => cases hw
  | f64 =>
    rw [encodeText, Format.lengthBytes, ← hlen]
    exact (appends_writeFixed hb host garbage 8 _).seq (appends_write hb garbage value.1)
  | vint =>
    rw [encodeText, Format.lengthBytes, ← hlen]
    exact (appends_write hb garbage _).seq (appends_write hb garbage value.1)

theorem appends_writeTexts (hb : 1 ≤ base) (host : Endian) (garbage : Garbage) {ps : List Text}
    (hw : ∀ p ∈ ps, p.1.Wide) :
    Appends base (writeTexts host garbage ps) (ps.flatMap encodeText) := by
  induction ps with
  | nil => exact appends_pure
  | cons p ps ih =>
    rw [List.flatMap_cons]
    exact (appends_text hb host garbage (hw p List.mem_cons_self)).seq
      (ih (fun q hq => hw q (List.mem_cons_of_mem _ hq)))

/-- Reading a string is reading its length and then its bytes. -/
theorem read_text_length (hb : 1 ≤ base) (host : Endian) {p : Text} (hw : p.1.Wide)
    {capacity size : Nat} {rest : List UInt8} {b : ByteArray}
    (h : Remaining base capacity size (encodeText p ++ rest) b) :
    ∃ b', p.1.read host b = readBuff p.2.1.length b' ∧
      Remaining base capacity size (p.2.1 ++ rest) b' := by
  obtain ⟨f, value⟩ := p
  have hlen := UInt64.toNat_ofNat_of_lt' (size_fits value)
  rw [encodeText, List.append_assoc] at h
  cases f with
  | f16 | f32 => cases hw
  | f64 =>
    have hc := (consumes_readFixed hb host (n := 8) (by decide) (size_fits value)).return UInt64.ofNat
    obtain ⟨b', he, h'⟩ := hc _ _ _ _ h
    exact ⟨b', by rw [Format.read, readStringF64, readFuint64, Lib.Effect.bind_ok he, hlen], h'⟩
  | vint =>
    have hc := consumes_readUint64 hb (UInt64.ofNat value.1.length)
    rw [hlen] at hc
    obtain ⟨b', he, h'⟩ := hc _ _ _ _ h
    exact ⟨b', by rw [Format.read, readStringVint, Lib.Effect.bind_ok he, hlen], h'⟩

theorem readBuff_eq (value : CppString) : readBuff value.1.length = read value.1.length :=
  if_neg (Nat.not_lt.mpr value.2)

theorem read_text (hb : 1 ≤ base) (host : Endian) {p : Text} (hw : p.1.Wide)
    {capacity size : Nat} {rest : List UInt8} {b : ByteArray}
    (h : Remaining base capacity size (encodeText p ++ rest) b)
    (hin : p.2.1 ++ rest ≠ [] ∨ size ≠ capacity) :
    ∃ b', p.1.read host b = .ok p.2.1 b' ∧ Remaining base capacity size rest b' := by
  obtain ⟨b₁, he₁, h₁⟩ := read_text_length hb host hw h
  obtain ⟨b₂, he₂, h₂⟩ := h₁.read hb hin
  exact ⟨b₂, by rw [he₁, readBuff_eq, he₂], h₂⟩

/-- The empty string at the end of the last node: its length is read and then a
null node is dereferenced. -/
theorem read_text_null (hb : 1 ≤ base) (host : Endian) {p : Text} (hw : p.1.Wide)
    {capacity : Nat} {b : ByteArray} (h : Remaining base capacity capacity (encodeText p) b)
    (hz : p.2.1 = []) : ∃ b', p.1.read host b = .error .nullNode b' := by
  rw [← List.append_nil (encodeText p)] at h
  obtain ⟨b₁, he₁, h₁⟩ := read_text_length hb host hw h
  have hadd := h₁.position_add
  rw [hz, List.append_nil, List.length_nil, Nat.add_zero] at hadd
  refine ⟨b₁, ?_⟩
  rw [he₁, readBuff_eq, hz]
  exact read_null h₁.rep (Nat.zero_le _) (hadd.trans h₁.capacity_eq.symm)

/-- Whether the last string is there and empty. -/
def EndsEmpty (ps : List Text) : Prop := ∃ p, ps.getLast? = some p ∧ p.2.1 = []

theorem endsEmpty_cons_cons {p q : Text} {ps : List Text} :
    EndsEmpty (p :: q :: ps) ↔ EndsEmpty (q :: ps) := by
  simp only [EndsEmpty, List.getLast?_cons_cons]

theorem read_texts (hb : 1 ≤ base) (host : Endian) {ps : List Text} (hw : ∀ p ∈ ps, p.1.Wide)
    {capacity size : Nat} {b : ByteArray}
    (h : Remaining base capacity size (ps.flatMap encodeText) b)
    (hin : ¬(EndsEmpty ps ∧ size = capacity)) :
    ∃ b', readTexts host (ps.map Prod.fst) b = .ok (ps.map (·.2.1)) b' ∧
      Remaining base capacity size [] b' := by
  induction ps generalizing b with
  | nil => exact ⟨b, rfl, h⟩
  | cons p ps ih =>
    have hw' : ∀ q ∈ ps, q.1.Wide := fun q hq => hw q (List.mem_cons_of_mem _ hq)
    rw [List.flatMap_cons] at h
    have hin₁ : p.2.1 ++ ps.flatMap encodeText ≠ [] ∨ size ≠ capacity := by
      by_cases hs : size = capacity
      · left
        cases ps with
        | nil =>
          intro he
          rw [List.flatMap_nil, List.append_nil] at he
          exact hin ⟨⟨p, rfl, he⟩, hs⟩
        | cons q qs =>
          rw [List.flatMap_cons]
          simp [encodeText_ne_nil]
      · exact .inr hs
    obtain ⟨b₁, he₁, h₁⟩ := read_text hb host (hw p List.mem_cons_self) h hin₁
    have hin₂ : ¬(EndsEmpty ps ∧ size = capacity) := by
      intro hbad
      cases ps with
      | nil =>
        obtain ⟨q, hq, _⟩ := hbad.1
        cases hq
      | cons q qs => exact hin ⟨endsEmpty_cons_cons.mpr hbad.1, hbad.2⟩
    obtain ⟨b₂, he₂, h₂⟩ := ih hw' h₁ hin₂
    refine ⟨b₂, ?_, h₂⟩
    simp only [List.map_cons, readTexts]
    rw [Lib.Effect.bind_ok he₁, Lib.Effect.bind_ok he₂]
    rfl

theorem read_texts_null (hb : 1 ≤ base) (host : Endian) {ps : List Text}
    (hw : ∀ p ∈ ps, p.1.Wide) {capacity : Nat} {b : ByteArray}
    (h : Remaining base capacity capacity (ps.flatMap encodeText) b) (hz : EndsEmpty ps) :
    ∃ b', readTexts host (ps.map Prod.fst) b = .error .nullNode b' := by
  induction ps generalizing b with
  | nil =>
    obtain ⟨q, hq, _⟩ := hz
    cases hq
  | cons p ps ih =>
    have hwp := hw p List.mem_cons_self
    have hw' : ∀ q ∈ ps, q.1.Wide := fun q hq => hw q (List.mem_cons_of_mem _ hq)
    rw [List.flatMap_cons] at h
    simp only [List.map_cons, readTexts]
    cases ps with
    | nil =>
      obtain ⟨q, hq, he⟩ := hz
      cases hq
      rw [List.flatMap_nil, List.append_nil] at h
      obtain ⟨b', hn⟩ := read_text_null hb host hwp h he
      exact ⟨b', by rw [Lib.Effect.bind_error hn]⟩
    | cons q qs =>
      have hin : p.2.1 ++ (q :: qs).flatMap encodeText ≠ [] := by
        rw [List.flatMap_cons]
        simp [encodeText_ne_nil]
      obtain ⟨b₁, he₁, h₁⟩ := read_text hb host hwp h (.inl hin)
      obtain ⟨b', hn⟩ := ih hw' h₁ (endsEmpty_cons_cons.mp hz)
      exact ⟨b', by rw [Lib.Effect.bind_ok he₁, Lib.Effect.bind_error hn]⟩

/-- When the last node is full. -/
theorem AtEnd.full_iff {b : ByteArray} (h : AtEnd base b) (hs : 0 < b.size) :
    b.size = b.capacity ↔ base ∣ b.size := by
  have hle := h.rep.size_le
  have hcap : base ∣ b.capacity := ⟨_, h.rep.capacity_eq⟩
  constructor
  · intro he
    rw [he]
    exact hcap
  · intro hd
    rcases h.tight with ht | ht
    · have hge := Nat.le_of_dvd hs hd
      omega
    · have hz := Nat.eq_zero_of_dvd_of_lt (Nat.dvd_sub hcap hd) (by omega)
      omega

/-- Strings come back unless the last one is empty and the encoding fills the last
node: the empty payload is then read at a null cursor. -/
theorem text_round_trip_iff (hb : 1 ≤ base) (host : Endian) (fill garbage : Garbage)
    {ps : List Text} (hw : ∀ p ∈ ps, p.1.Wide) :
    TextsReturn host base fill garbage ps ↔
      ¬(EndsEmpty ps ∧ base ∣ (ps.map (fun p => p.1.space p.2)).sum) := by
  obtain ⟨b₁, he₁, h₁, hc⟩ := appends_writeTexts hb host garbage hw _ (atEnd_create hb fill)
  obtain ⟨he₂, h₂⟩ := remaining_from_start hb h₁
  have hnil : (create base fill).contents = [] := rfl
  rw [hnil, List.nil_append] at hc
  have hsize : b₁.size = (ps.map (fun p => p.1.space p.2)).sum := by
    rw [← h₁.rep.contents_length, hc, texts_length]
  rw [hc] at h₂
  rw [TextsReturn, Lib.Effect.bind_ok he₁, Lib.Effect.bind_ok he₂, ← hsize]
  have hfull : EndsEmpty ps → (b₁.size = b₁.capacity ↔ base ∣ b₁.size) := by
    intro hz
    apply h₁.full_iff
    rw [← h₁.rep.contents_length, hc]
    apply List.length_pos_iff.mpr
    obtain ⟨p, hp, _⟩ := hz
    cases ps with
    | nil => cases hp
    | cons q qs =>
      rw [List.flatMap_cons]
      simp [encodeText_ne_nil]
  constructor
  · intro hret hbad
    obtain ⟨b, hok, _⟩ := hret
    rw [(hfull hbad.1).mpr hbad.2] at h₂
    obtain ⟨b', hn⟩ := read_texts_null hb host hw h₂ hbad.1
    rw [hn] at hok
    cases hok
  · intro hgood
    have hin : ¬(EndsEmpty ps ∧ b₁.size = b₁.capacity) :=
      fun hbad => hgood ⟨hbad.1, (hfull hbad.1).mp hbad.2⟩
    obtain ⟨b₃, he₃, h₃⟩ := read_texts hb host hw h₂ hin
    exact ⟨b₃, he₃, by rw [← h₃.rep.unread_length, h₃.unread_eq, List.length_nil]⟩

/-- Three bytes in nodes of eight. -/
theorem text_round_trip_three :
    TextsReturn .little 8 (fun _ _ => 0) (fun _ _ => 0)
      [(.vint, ⟨[], by decide⟩), (.f64, ⟨[97, 98, 99], by decide⟩)] := by
  apply (text_round_trip_iff (by decide) .little _ _ (by decide)).mpr
  intro hbad
  obtain ⟨p, hp, hz⟩ := hbad.1
  cases hp
  cases hz

/-- One empty string in nodes of eight bytes: its length fills the node. -/
theorem empty_text_lost :
    ¬TextsReturn .little 8 (fun _ _ => 0) (fun _ _ => 0) [(.f64, ⟨[], by decide⟩)] := by
  intro h
  obtain ⟨b, he, _⟩ := h
  have hdead : (match (do writeTexts .little (fun _ _ => 0) [(.f64, ⟨[], by decide⟩)]
                          setPosition 0
                          readTexts .little [.f64] : Op (List (List UInt8)))
      (create 8 (fun _ _ => 0)) with
    | .ok _ _ => false
    | .error e _ => e = .nullNode) = true := by decide
  simp only [List.map_cons, List.map_nil] at he
  rw [he] at hdead
  cases hdead

end Strings

end HxSylar.ByteArray
