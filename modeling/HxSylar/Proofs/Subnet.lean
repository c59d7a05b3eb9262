import HxSylar.Address
import Mathlib.Algebra.Ring.Nat
import Mathlib.Algebra.Ring.Int.Defs

namespace HxSylar
open Lib

section Mask

/-- A prefix within the type leaves the rest of its bits. -/
theorem count_toNat {size : Nat} {bits : UInt32} (hsize : size ≤ 4) (hbits : bits.toNat ≤ 8 * size) :
    (UInt64.ofNat (size * 8) - bits.toUInt64).toNat = 8 * size - bits.toNat := by
  rw [UInt64.toNat_sub, UInt64.toNat_ofNat', UInt32.toNat_toUInt64]
  omega

/-- Where the shift is defined, the mask has the low bits that the prefix leaves. -/
theorem createMask_eq {size : Nat} {bits : UInt32} (hsize : size ≤ 4) (hbits : bits.toNat ≤ 8 * size)
    (hshift : 8 * size < 32 + bits.toNat) :
    createMask size bits = .ok (2 ^ (8 * size - bits.toNat) - 1) := by
  have hvalue : ∀ size ≤ 4, ∀ k < 32, k ≤ 8 * size →
      (Text.toInt32 (Text.toInt32 (1 <<< k : Nat) - 1) % 2 ^ (8 * size)).toNat = 2 ^ k - 1 := by
    decide
  have hcount : (UInt64.ofNat (size * 8) - bits.toUInt64).toNat = 8 * size - bits.toNat :=
    count_toNat hsize hbits
  have hlt : ¬32 ≤ UInt64.ofNat (size * 8) - bits.toUInt64 := by
    rw [UInt64.le_iff_toNat_le, hcount]
    change ¬32 ≤ _
    omega
  unfold createMask
  dsimp only
  rw [if_neg hlt, hcount, hvalue size hsize _ (by omega) (by omega)]

/-- Everywhere else it is not: the whole `int` is shifted out, or the count has wrapped. -/
theorem createMask_shift {size : Nat} {bits : UInt32} (hsize : size ≤ 4)
    (h : 8 * size < bits.toNat ∨ bits.toNat + 32 ≤ 8 * size) :
    ∃ e, createMask size bits = .error e := by
  have hbits := bits.toNat_lt
  have hge : 32 ≤ UInt64.ofNat (size * 8) - bits.toUInt64 := by
    rw [UInt64.le_iff_toNat_le]
    change 32 ≤ _
    by_cases hle : bits.toNat ≤ 8 * size
    · rw [count_toNat hsize hle]
      omega
    · rw [UInt64.toNat_sub, UInt64.toNat_ofNat', UInt32.toNat_toUInt64]
      omega
  unfold createMask
  dsimp only
  rw [if_pos hge]
  exact ⟨_, rfl⟩

end Mask

section Words
variable (host : Endian)

theorem byteswapOnLittleEndian_lt {n v : Nat} (hv : v < 256 ^ n) :
    byteswapOnLittleEndian host n v < 256 ^ n := by
  cases host with
  | little => exact byteswap_lt n v
  | big => exact hv

theorem byteswap32_toNat (v : UInt32) :
    (byteswap32 host v).toNat = byteswapOnLittleEndian host 4 v.toNat := by
  rw [byteswap32, UInt32.toNat_ofNat']
  exact Nat.mod_eq_of_lt (byteswapOnLittleEndian_lt host v.toNat_lt)

theorem byteswap16_toNat (v : UInt16) :
    (byteswap16 host v).toNat = byteswapOnLittleEndian host 2 v.toNat := by
  rw [byteswap16, UInt16.toNat_ofNat']
  exact Nat.mod_eq_of_lt (byteswapOnLittleEndian_lt host v.toNat_lt)

theorem byteswapOnLittleEndian_twice {n v : Nat} (hv : v < 256 ^ n) :
    byteswapOnLittleEndian host n (byteswapOnLittleEndian host n v) = v := by
  cases host with
  | little => exact byteswap_byteswap hv
  | big => rfl

@[simp] theorem byteswap32_twice (v : UInt32) : byteswap32 host (byteswap32 host v) = v := by
  apply UInt32.toNat_inj.mp
  rw [byteswap32_toNat, byteswap32_toNat, byteswapOnLittleEndian_twice host v.toNat_lt]

@[simp] theorem byteswap16_twice (v : UInt16) : byteswap16 host (byteswap16 host v) = v := by
  apply UInt16.toNat_inj.mp
  rw [byteswap16_toNat, byteswap16_toNat, byteswapOnLittleEndian_twice host v.toNat_lt]

theorem byteswapOnLittleEndian_op {op : Nat → Nat → Nat} {f : UInt8 → UInt8 → UInt8}
    (h : Bytewise op f) (n a b : Nat) :
    byteswapOnLittleEndian host n (op a b) =
      op (byteswapOnLittleEndian host n a) (byteswapOnLittleEndian host n b) := by
  cases host with
  | little => exact h.byteswap n a b
  | big => rfl

@[simp] theorem byteswap32_and (a b : UInt32) :
    byteswap32 host (a &&& b) = byteswap32 host a &&& byteswap32 host b := by
  apply UInt32.toNat_inj.mp
  rw [UInt32.toNat_and, byteswap32_toNat, byteswap32_toNat, byteswap32_toNat, UInt32.toNat_and]
  exact byteswapOnLittleEndian_op host Bytewise.and 4 a.toNat b.toNat

@[simp] theorem byteswap32_or (a b : UInt32) :
    byteswap32 host (a ||| b) = byteswap32 host a ||| byteswap32 host b := by
  apply UInt32.toNat_inj.mp
  rw [UInt32.toNat_or, byteswap32_toNat, byteswap32_toNat, byteswap32_toNat, UInt32.toNat_or]
  exact byteswapOnLittleEndian_op host Bytewise.or 4 a.toNat b.toNat

@[simp] theorem byteswap32_not (a : UInt32) : byteswap32 host (~~~a) = ~~~byteswap32 host a := by
  have hones : byteswap32 host 0xffffffff = 0xffffffff := by
    cases host with
    | little => rfl
    | big => rfl
  have hnot : ∀ v : UInt32, ~~~v = v ^^^ 0xffffffff := by
    intro v
    apply UInt32.toBitVec_inj.mp
    exact BitVec.xor_allOnes.symm
  have hxor : byteswap32 host (a ^^^ 0xffffffff) =
      byteswap32 host a ^^^ byteswap32 host 0xffffffff := by
    apply UInt32.toNat_inj.mp
    rw [UInt32.toNat_xor, byteswap32_toNat, byteswap32_toNat, byteswap32_toNat, UInt32.toNat_xor]
    exact byteswapOnLittleEndian_op host Bytewise.xor 4 a.toNat _
  rw [hnot, hxor, hones, ← hnot]

/-- A number and the complement of a mask have the same part of a number only if there is nothing
in it. -/
theorem and_eq_and_not_iff {w : Nat} (a m : BitVec w) : a &&& m = a &&& ~~~m ↔ a = 0#w := by
  constructor
  · intro h
    apply BitVec.eq_of_getLsbD_eq
    intro i hi
    have hbit := congrArg (·.getLsbD i) h
    simp only [BitVec.getLsbD_and, BitVec.getLsbD_not, hi, decide_true, Bool.true_and] at hbit
    rw [BitVec.getLsbD_zero]
    revert hbit
    cases a.getLsbD i
    · simp
    · cases m.getLsbD i
      · simp
      · simp
  · intro h
    rw [h, BitVec.zero_and, BitVec.zero_and]

end Words

namespace IPv4Address
variable (host : Endian) (a : UInt32) (port : UInt16) (p : UInt32)

/-- What is expected of the three functions at one address and one prefix: the mask and the two ends
of the subnet for a prefix of up to 32 bits, and null pointers for a longer one. -/
def SubnetLaws : Prop :=
  (p ≤ 32 → ∃ mask net broadcast,
    subnetMask host p = .ok (some mask) ∧
    (new host a port).networdAddress host p = .ok (some net) ∧
    (new host a port).broadcastAddress host p = .ok (some broadcast) ∧
    (∀ i < 32, (mask.address host).toNat.testBit (31 - i) = decide (i < p.toNat)) ∧
    net.address host = a &&& mask.address host ∧
    broadcast.address host = a ||| ~~~mask.address host ∧
    net.address host ≤ a ∧ a ≤ broadcast.address host ∧
    net.networdAddress host p = .ok (some net) ∧
    net.getPort host = port.toUInt32 ∧ broadcast.getPort host = port.toUInt32) ∧
  (32 < p →
    subnetMask host p = .ok none ∧
    (new host a port).networdAddress host p = .ok none ∧
    (new host a port).broadcastAddress host p = .ok none)

/-- The mask of the host part, as a number. -/
def hostMask : UInt32 := UInt32.ofNat (2 ^ (32 - p.toNat) - 1)

variable {p}

theorem createMask_prefix (hlow : 1 ≤ p) (hhigh : p ≤ 32) :
    createMask 4 p = .ok (2 ^ (32 - p.toNat) - 1) := by
  have hle : p.toNat ≤ 32 := UInt32.le_iff_toNat_le.mp hhigh
  have hge : 1 ≤ p.toNat := UInt32.le_iff_toNat_le.mp hlow
  exact createMask_eq (Nat.le_refl 4) hle (by omega)

theorem subnetMask_eq (hlow : 1 ≤ p) (hhigh : p ≤ 32) :
    ∃ mask, subnetMask host p = .ok (some mask) ∧ mask.address host = ~~~hostMask p := by
  rw [subnetMask, createMask_prefix hlow hhigh]
  refine ⟨_, rfl, ?_⟩
  rw [address, byteswap32_not, byteswap32_twice, hostMask]

/-- `networdAddress` keeps what it should clear. -/
theorem networdAddress_eq (addr : IPv4Address) (hlow : 1 ≤ p) (hhigh : p ≤ 32) :
    addr.networdAddress host p =
      .ok (some ⟨{ addr.mAddr with sAddr := addr.mAddr.sAddr &&& byteswap32 host (hostMask p) }⟩) := by
  rw [networdAddress, if_neg (UInt32.not_lt.mpr hhigh), createMask_prefix hlow hhigh]
  rfl

theorem broadcastAddress_eq (addr : IPv4Address) (hlow : 1 ≤ p) (hhigh : p ≤ 32) :
    addr.broadcastAddress host p =
      .ok (some ⟨{ addr.mAddr with sAddr := addr.mAddr.sAddr ||| byteswap32 host (hostMask p) }⟩) := by
  rw [broadcastAddress, if_neg (UInt32.not_lt.mpr hhigh), createMask_prefix hlow hhigh]
  rfl

/-- Where the shift is not defined there is no mask. -/
theorem subnetMask_error (h : p = 0 ∨ 32 < p) : ∃ e, subnetMask host p = .error e := by
  have hshift : 8 * 4 < p.toNat ∨ p.toNat + 32 ≤ 8 * 4 := by
    obtain rfl | hlt := h
    · exact Or.inr (Nat.le_refl 32)
    · exact Or.inl (UInt32.lt_iff_toNat_lt.mp hlt)
  obtain ⟨e, he⟩ := createMask_shift (Nat.le_refl 4) hshift
  exact ⟨e, by rw [subnetMask, he]; rfl⟩

theorem hostMask_not_testBit (hhigh : p ≤ 32) {i : Nat} (hi : i < 32) :
    (~~~hostMask p).toNat.testBit (31 - i) = decide (i < p.toNat) := by
  have hle : p.toNat ≤ 32 := UInt32.le_iff_toNat_le.mp hhigh
  have hpow : 2 ^ (32 - p.toNat) ≤ 2 ^ 32 := Nat.pow_le_pow_right (by decide) (by omega)
  have hpos : 0 < 2 ^ (32 - p.toNat) := Nat.two_pow_pos _
  have hmask : (hostMask p).toNat = 2 ^ (32 - p.toNat) - 1 := by
    rw [hostMask, UInt32.toNat_ofNat']
    exact Nat.mod_eq_of_lt (by omega)
  have hnot : (~~~hostMask p).toNat = 2 ^ 32 - ((hostMask p).toNat + 1) := by
    have h := BitVec.toNat_not (x := (hostMask p).toBitVec)
    change (~~~hostMask p).toNat = 2 ^ 32 - 1 - (hostMask p).toNat at h
    omega
  rw [hnot, hmask, Nat.testBit_two_pow_sub_succ (by omega), Nat.testBit_two_pow_sub_one]
  by_cases h : i < p.toNat
  · have hlow : ¬31 - i < 32 - p.toNat := by omega
    simp [h, hlow]
    omega
  · have hlow : 31 - i < 32 - p.toNat := by omega
    simp [h, hlow]

/-- The laws hold for the address 0 only, with a prefix of 1 to 32 bits: the network address keeps
the host part of any other one, a prefix of no bits shifts by 32 places, and so does the mask of one
that is too long. -/
theorem subnetLaws_iff_zero (p : UInt32) :
    SubnetLaws host a port p ↔ 1 ≤ p ∧ p ≤ 32 ∧ a = 0 := by
  constructor
  · intro h
    have hhigh : p ≤ 32 := by
      apply UInt32.not_lt.mp
      intro hlt
      obtain ⟨e, he⟩ := subnetMask_error host (Or.inr hlt)
      rw [(h.2 hlt).1] at he
      cases he
    obtain ⟨mask, net, broadcast, hmask, hnet, _, _, hand, _⟩ := h.1 hhigh
    have hlow : 1 ≤ p := by
      by_cases hzero : p = 0
      · obtain ⟨e, he⟩ := subnetMask_error host (Or.inl hzero)
        rw [hmask] at he
        cases he
      · rw [UInt32.le_iff_toNat_le]
        have hne : p.toNat ≠ 0 := fun heq => hzero (UInt32.toNat_inj.mp heq)
        change 1 ≤ p.toNat
        omega
    refine ⟨hlow, hhigh, ?_⟩
    obtain ⟨mask', hmask', haddress⟩ := subnetMask_eq host hlow hhigh
    rw [hmask] at hmask'
    obtain rfl : mask = mask' := by
      injection hmask' with heq
      injection heq
    rw [networdAddress_eq host _ hlow hhigh] at hnet
    injection hnet with hnet
    injection hnet with hnet
    rw [← hnet, haddress] at hand
    simp only [address, new, byteswap32_and, byteswap32_twice] at hand
    apply UInt32.toBitVec_inj.mp
    exact (and_eq_and_not_iff a.toBitVec (hostMask p).toBitVec).mp (congrArg UInt32.toBitVec hand)
  · intro h
    obtain ⟨hlow, hhigh, rfl⟩ := h
    obtain ⟨mask, hmask, haddress⟩ := subnetMask_eq host hlow hhigh
    constructor
    · intro _
      refine ⟨mask, _, _, hmask, networdAddress_eq host _ hlow hhigh,
        broadcastAddress_eq host _ hlow hhigh, ?_, ?_, ?_, ?_, ?_, ?_, ?_, ?_⟩
      · intro i hi
        rw [haddress]
        exact hostMask_not_testBit hhigh hi
      · simp [address, new]
      · rw [haddress]
        simp [address, new]
      · simp [address, new]
      · exact UInt32.zero_le
      · rw [networdAddress_eq host _ hlow hhigh, UInt32.and_assoc, UInt32.and_self]
      · simp [getPort, new]
      · simp [getPort, new]
    · intro hlt
      exact absurd hhigh (UInt32.not_le.mpr hlt)

/-- 192.168.1.10/24: the network address comes out as 0.0.0.10. -/
theorem networdAddress_host_part : ¬SubnetLaws .little 0xc0a8010a 80 24 := by
  have hmask : subnetMask .little 24 =
      .ok (some ⟨{ sinFamily := afInet, sAddr := 0x00ffffff }⟩) := rfl
  have hnet : (new .little 0xc0a8010a 80).networdAddress .little 24 =
      .ok (some ⟨{ sinFamily := afInet, sinPort := 0x5000, sAddr := 0x0a000000 }⟩) := rfl
  intro h
  obtain ⟨mask, net, broadcast, hmask', hnet', _, _, hand, _⟩ := h.1 (by decide)
  rw [hmask] at hmask'
  rw [hnet] at hnet'
  injection hmask' with hmask'
  injection hmask' with hmask'
  injection hnet' with hnet'
  injection hnet' with hnet'
  rw [← hmask', ← hnet'] at hand
  exact absurd hand (by decide)

end IPv4Address

section Bytes

theorem ok_bind {ε α β : Type} (x : α) (f : α → Except ε β) : (Except.ok x >>= f) = f x := rfl

theorem writeByte_eq {bytes : Vector UInt8 16} {i : Nat} (hi : i < 16) (f : UInt8 → UInt8) :
    writeByte bytes i f = .ok (bytes.set i (f bytes[i])) := by
  rw [writeByte, dif_pos hi]

/-- A loop that stays within the array overwrites its stretch and nothing else. -/
theorem fillBytes_eq (b : UInt8) {n i : Nat} (h : i + n ≤ 16) (bytes : Vector UInt8 16) :
    ∃ filled, fillBytes b n i bytes = .ok filled ∧
      ∀ (j : Nat) (hj : j < 16), filled[j] = if i ≤ j ∧ j < i + n then b else bytes[j] := by
  induction n generalizing i bytes with
  | zero =>
    refine ⟨bytes, rfl, ?_⟩
    intro j hj
    rw [if_neg (by omega)]
  | succ n ih =>
    obtain ⟨filled, hfill, hget⟩ := ih (i := i + 1) (by omega) (bytes.set i b)
    refine ⟨filled, ?_, ?_⟩
    · rw [fillBytes, writeByte_eq (by omega)]
      exact hfill
    · intro j hj
      rw [hget j hj, Vector.getElem_set]
      by_cases hji : i = j
      · rw [if_neg (by omega), if_pos hji, if_pos (by omega)]
      · rw [if_neg hji]
        by_cases hin : i ≤ j ∧ j < i + (n + 1)
        · rw [if_pos (by omega), if_pos hin]
        · rw [if_neg (by omega), if_neg hin]

end Bytes

namespace IPv6Address
variable (host : Endian) (a : Vector UInt8 16) (port : UInt16) (p : UInt32)

/-- A bit of an address, the first one being the highest of the first byte. -/
def bit (bytes : Vector UInt8 16) (k : Fin 128) : Bool :=
  (bytes.get ⟨k / 8, by omega⟩).toNat.testBit (7 - k % 8)

/-- What is expected of the three functions at one address and one prefix; that they have a result at
all says that they stay inside the array. -/
def SubnetLaws : Prop :=
  ∃ mask net broadcast,
    subnetMask p = .ok mask ∧
    (new host a port).networdAddress p = .ok net ∧
    (new host a port).broadcastAddress p = .ok broadcast ∧
    (∀ k : Fin 128, bit mask.mAddr.s6Addr k = decide (k < p.toNat)) ∧
    net.mAddr.s6Addr = Vector.zipWith (· &&& ·) a mask.mAddr.s6Addr ∧
    broadcast.mAddr.s6Addr = Vector.zipWith (· ||| ~~~ ·) a mask.mAddr.s6Addr

/-- The low bits of the byte in which the prefix ends. -/
def lowMask : UInt8 := UInt8.ofNat (2 ^ (8 - p.toNat % 8) - 1)

variable {p}

theorem createMask_lowBits : createMask 1 (p % 8) = .ok (2 ^ (8 - p.toNat % 8) - 1) := by
  have hmod : (p % 8).toNat = p.toNat % 8 := UInt32.toNat_mod p 8
  rw [createMask_eq (by decide) (by omega) (by omega), hmod]

theorem div_toNat : (p / 8).toNat = p.toNat / 8 := UInt32.toNat_div p 8

theorem index_lt (hp : p < 128) : p.toNat / 8 < 16 := by
  have h : p.toNat < 128 := UInt32.lt_iff_toNat_lt.mp hp
  omega

theorem subnetMask_bytes (hp : p < 128) :
    ∃ mask, subnetMask p = .ok mask ∧ ∀ (j : Nat) (hj : j < 16), mask.mAddr.s6Addr[j] =
      if j < p.toNat / 8 then 0xff else if j = p.toNat / 8 then ~~~lowMask p else 0 := by
  have hi := index_lt hp
  obtain ⟨filled, hfill, hget⟩ := fillBytes_eq 0xff (n := p.toNat / 8) (i := 0) (by omega)
    ((Vector.replicate 16 0).set (p.toNat / 8) (~~~lowMask p))
  refine ⟨⟨{ sin6Family := afInet6, s6Addr := filled }⟩, ?_, ?_⟩
  · unfold subnetMask
    simp only [createMask_lowBits, div_toNat, writeByte_eq hi, ok_bind]
    exact congrArg (· >>= _) hfill
  · intro j hj
    rw [hget j hj, Vector.getElem_set, Vector.getElem_replicate]
    by_cases hlt : j < p.toNat / 8
    · rw [if_pos (by omega), if_pos hlt]
    · rw [if_neg (by omega), if_neg hlt]
      by_cases heq : j = p.toNat / 8
      · rw [if_pos heq.symm, if_pos heq]
      · rw [if_neg (Ne.symm heq), if_neg heq]

/-- The bytes of the two ends of the subnet: those before the prefix ends as they are, then one with
the low bits masked, then the same byte to the end. -/
theorem ends_bytes (f : UInt8 → UInt8) (b : UInt8) (hp : p < 128) :
    ∃ filled, (do
      let bytes ← writeByte a (p.toNat / 8) f
      fillBytes b (16 - (p.toNat / 8 + 1)) (p.toNat / 8 + 1) bytes) = .ok filled ∧
      ∀ (j : Nat) (hj : j < 16), filled[j] =
        if j < p.toNat / 8 then a[j] else if j = p.toNat / 8 then f a[j] else b := by
  have hi := index_lt hp
  obtain ⟨filled, hfill, hget⟩ := fillBytes_eq b (n := 16 - (p.toNat / 8 + 1))
    (i := p.toNat / 8 + 1) (by omega) (a.set (p.toNat / 8) (f a[p.toNat / 8]))
  refine ⟨filled, ?_, ?_⟩
  · rw [writeByte_eq hi, ok_bind, hfill]
  · intro j hj
    rw [hget j hj, Vector.getElem_set]
    by_cases hlt : j < p.toNat / 8
    · rw [if_neg (by omega), if_neg (by omega), if_pos hlt]
    · rw [if_neg hlt]
      by_cases heq : j = p.toNat / 8
      · subst heq
        rw [if_neg (by omega), if_pos rfl, if_pos rfl]
      · rw [if_pos (by omega), if_neg heq]

theorem networdAddress_bytes (hp : p < 128) :
    ∃ net, (new host a port).networdAddress p = .ok net ∧ ∀ (j : Nat) (hj : j < 16),
      net.mAddr.s6Addr[j] =
        if j < p.toNat / 8 then a[j] else if j = p.toNat / 8 then a[j] &&& lowMask p else 0 := by
  obtain ⟨filled, hfill, hget⟩ := ends_bytes a (· &&& lowMask p) 0 hp
  refine ⟨⟨{ (new host a port).mAddr with s6Addr := filled }⟩, ?_, hget⟩
  unfold networdAddress
  simp only [createMask_lowBits, div_toNat, ok_bind]
  rw [← bind_assoc]
  exact congrArg (· >>= _) hfill

theorem broadcastAddress_bytes (hp : p < 128) :
    ∃ broadcast, (new host a port).broadcastAddress p = .ok broadcast ∧
      ∀ (j : Nat) (hj : j < 16), broadcast.mAddr.s6Addr[j] =
        if j < p.toNat / 8 then a[j] else if j = p.toNat / 8 then a[j] ||| lowMask p else 0xff := by
  obtain ⟨filled, hfill, hget⟩ := ends_bytes a (· ||| lowMask p) 0xff hp
  refine ⟨⟨{ (new host a port).mAddr with s6Addr := filled }⟩, ?_, hget⟩
  unfold broadcastAddress
  simp only [createMask_lowBits, div_toNat, ok_bind]
  rw [← bind_assoc]
  exact congrArg (· >>= _) hfill

/-- A prefix that ends behind the last byte has no byte to mask. -/
theorem subnetMask_element (hp : ¬p < 128) : subnetMask p = .error (.element (p.toNat / 8)) := by
  have h : ¬p.toNat < 128 := fun hlt => hp (UInt32.lt_iff_toNat_lt.mpr hlt)
  have hi : ¬p.toNat / 8 < 16 := by omega
  unfold subnetMask
  simp only [createMask_lowBits, div_toNat, ok_bind]
  rw [writeByte, dif_neg hi]
  rfl

theorem lowMask_not_testBit (c : Nat) (hc : c < 8) :
    (~~~lowMask p).toNat.testBit (7 - c) = decide (c < p.toNat % 8) := by
  have hall : ∀ r < 8, ∀ c < 8,
      (~~~UInt8.ofNat (2 ^ (8 - r) - 1)).toNat.testBit (7 - c) = decide (c < r) := by
    decide
  exact hall (p.toNat % 8) (Nat.mod_lt _ (by decide)) c hc

theorem ones_testBit {i : Nat} (hi : i < 8) : (0xff : UInt8).toNat.testBit i = true := by
  have hall : ∀ i < 8, (0xff : UInt8).toNat.testBit i = true := by decide
  exact hall i hi

/-- Below 128 the subnet mask has the bits of the prefix, whatever the address. -/
theorem subnetMask_bits (hp : p < 128) {mask : IPv6Address} (hmask : subnetMask p = .ok mask)
    (k : Fin 128) : bit mask.mAddr.s6Addr k = decide (k < p.toNat) := by
  obtain ⟨mask', hmask', hget⟩ := subnetMask_bytes hp
  rw [hmask] at hmask'
  injection hmask' with hmask'
  subst mask'
  have hk : k.val / 8 < 16 := by omega
  change (mask.mAddr.s6Addr[k.val / 8]).toNat.testBit (7 - k.val % 8) = _
  rw [hget _ hk]
  by_cases hlt : k.val / 8 < p.toNat / 8
  · have hprefix : k.val < p.toNat := by omega
    rw [if_pos hlt, decide_eq_true hprefix]
    exact ones_testBit (by omega)
  · rw [if_neg hlt]
    by_cases heq : k.val / 8 = p.toNat / 8
    · rw [if_pos heq, lowMask_not_testBit _ (Nat.mod_lt _ (by decide))]
      apply decide_eq_decide.mpr
      omega
    · have hprefix : ¬k.val < p.toNat := by omega
      rw [if_neg heq, decide_eq_false hprefix]
      exact Nat.zero_testBit _

/-- Below 128 the broadcast address is right too. -/
theorem broadcastAddress_or (hp : p < 128) {mask : IPv6Address} (hmask : subnetMask p = .ok mask) :
    ∃ broadcast, (new host a port).broadcastAddress p = .ok broadcast ∧
      broadcast.mAddr.s6Addr = Vector.zipWith (· ||| ~~~ ·) a mask.mAddr.s6Addr := by
  obtain ⟨mask', hmask', hmaskget⟩ := subnetMask_bytes hp
  obtain ⟨broadcast, hbroadcast, hget⟩ := broadcastAddress_bytes host a port hp
  rw [hmask] at hmask'
  injection hmask' with hmask'
  subst mask'
  refine ⟨broadcast, hbroadcast, ?_⟩
  apply Vector.ext
  intro j hj
  rw [Vector.getElem_zipWith, hget j hj, hmaskget j hj]
  split
  · exact UInt8.or_zero.symm
  · split
    · rw [UInt8.not_not]
    · exact UInt8.or_neg_one.symm

/-- The laws hold where the byte in which the prefix ends exists and is zero: the network address
keeps the bits of it that it should clear and clears the others. -/
theorem subnetLaws_iff_zero_byte (p : UInt32) :
    SubnetLaws host a port p ↔ p < 128 ∧ a[p.toNat / 8]? = some 0 := by
  constructor
  · intro h
    obtain ⟨mask, net, broadcast, hmask, hnet, _, _, hand, _⟩ := h
    have hp : p < 128 := by
      by_cases hp : p < 128
      · exact hp
      · rw [subnetMask_element hp] at hmask
        cases hmask
    refine ⟨hp, ?_⟩
    have hi := index_lt hp
    obtain ⟨mask', hmask', hmaskget⟩ := subnetMask_bytes hp
    obtain ⟨net', hnet', hnetget⟩ := networdAddress_bytes host a port hp
    rw [hmask] at hmask'
    rw [hnet] at hnet'
    injection hmask' with hmask'
    injection hnet' with hnet'
    have hbyte : net.mAddr.s6Addr[p.toNat / 8] =
        a[p.toNat / 8] &&& mask.mAddr.s6Addr[p.toNat / 8] := by
      simp only [hand, Vector.getElem_zipWith]
    rw [hnet', hmask', hnetget _ hi, hmaskget _ hi, if_neg (Nat.lt_irrefl _),
      if_neg (Nat.lt_irrefl _), if_pos rfl, if_pos rfl] at hbyte
    rw [Vector.getElem?_eq_getElem hi]
    apply congrArg some
    apply UInt8.toBitVec_inj.mp
    exact (and_eq_and_not_iff _ (lowMask p).toBitVec).mp (congrArg UInt8.toBitVec hbyte)
  · intro h
    obtain ⟨hp, hzero⟩ := h
    have hi := index_lt hp
    rw [Vector.getElem?_eq_getElem hi, Option.some.injEq] at hzero
    obtain ⟨mask, hmask, hmaskget⟩ := subnetMask_bytes hp
    obtain ⟨net, hnet, hnetget⟩ := networdAddress_bytes host a port hp
    obtain ⟨broadcast, hbroadcast, hor⟩ := broadcastAddress_or host a port hp hmask
    refine ⟨mask, net, broadcast, hmask, hnet, hbroadcast, subnetMask_bits hp hmask, ?_, hor⟩
    apply Vector.ext
    intro j hj
    rw [Vector.getElem_zipWith, hnetget j hj, hmaskget j hj]
    split
    · exact (UInt8.and_neg_one).symm
    · split
      · rename_i heq
        subst heq
        rw [hzero]
        simp
      · simp

/-- 2001:db8::1/20: the network address comes out as 2001:d00::. -/
theorem networdAddress_low_bits :
    ¬SubnetLaws .little #v[0x20, 0x01, 0x0d, 0xb8, 0, 0, 0, 0, 0, 0, 0, 0, 0, 0, 0, 1] 80 20 := by
  have hmask : subnetMask 20 = .ok
      ⟨⟨afInet6, 0, #v[0xff, 0xff, 0xf0, 0, 0, 0, 0, 0, 0, 0, 0, 0, 0, 0, 0, 0]⟩⟩ := rfl
  have hnet : (new .little #v[0x20, 0x01, 0x0d, 0xb8, 0, 0, 0, 0, 0, 0, 0, 0, 0, 0, 0, 1]
      80).networdAddress 20 = .ok
      ⟨⟨afInet6, 0x5000, #v[0x20, 0x01, 0x0d, 0, 0, 0, 0, 0, 0, 0, 0, 0, 0, 0, 0, 0]⟩⟩ := rfl
  intro h
  obtain ⟨mask, net, broadcast, hmask', hnet', _, _, hand, _⟩ := h
  rw [hmask] at hmask'
  rw [hnet] at hnet'
  injection hmask' with hmask'
  injection hnet' with hnet'
  rw [← hmask', ← hnet'] at hand
  have hbyte := congrArg (fun bytes => bytes[2]) hand
  rw [Vector.getElem_zipWith] at hbyte
  exact absurd hbyte (by decide)

end IPv6Address

end HxSylar
