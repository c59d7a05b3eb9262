import HxSylar.Varint
import HxSylar.Proofs.FailedReads

namespace HxSylar.ByteArray

/-- The first `k` bytes of `data` are those that a reader of `n` bytes at most takes: up to the
first one below 0x80, if there is one. -/
structure StopsAt (n : Nat) (data : List UInt8) (k : Nat) : Prop where
  at_most : k ≤ n
  inside : k ≤ data.length
  continued : ∀ x ∈ (data.take k).dropLast, ¬x < 0x80
  stopped : k = n ∨ k = data.length ∨ ∃ x, (data.take k).getLast? = some x ∧ x < 0x80

/-- How a typed write and a typed read of varints with `len` bytes at most behave. -/
structure VarintShape (host : Endian) (base len : Nat) {α : Type} (value : α → Nat)
    (write : Garbage → α → Op Unit) (read : Op α) (readShifts : Op (Option α)) : Prop where
  stored : ∀ garbage (tmp : Vector UInt8 len) v, ∃ out i,
    storeVarint tmp 0 (value v) = some (out, i) ∧ i.toNat ≤ len ∧
      out.toList.take i.toNat = varint (value v) ∧
      write garbage v = ByteArray.write garbage (out.toList.take i.toNat)
  prefix_free : ∀ v w, v ≠ w → ¬varint (value v) <+: varint (value w)
  no_longer : ∀ v w, value v ≤ value w → (varint (value v)).length ≤ (varint (value w)).length
  stops : ∀ b v rest, (machine host base).Reachable b → b.unread = varint (value v) ++ rest →
    ∃ t, read b = .ok v t ∧ t.position = b.position + (varint (value v)).length ∧ t.unread = rest
  bounded : ∀ b, (machine host base).Reachable b → ∃ k, StopsAt len b.unread k ∧
    Lib.Effect.Leaves (fun t => t.position = b.position + k ∧ t.unread = b.unread.drop k)
      (fun _ => False) (read b)
  shifts : readShifts = some <$> read

section Store

theorem take_set_append {n i : Nat} (tmp : Vector UInt8 n) (hi : i < n) (x : UInt8) :
    (tmp.set i x).toList.take (i + 1) = tmp.toList.take i ++ [x] := by
  have hlen : tmp.toList.length = n := Vector.length_toList
  rw [Vector.toList_set, List.take_add_one, List.take_set_of_le (Nat.le_refl i),
    List.getElem?_set_self (by omega)]
  rfl

/-- The loop stores the encoding behind the bytes that are there. -/
theorem storeVarint_eq {n : Nat} (hn : n < 256) (tmp : Vector UInt8 n) (i : UInt8) (v : Nat)
    (hroom : i.toNat + (varint v).length ≤ n) :
    ∃ out j, storeVarint tmp i v = some (out, j) ∧ j.toNat = i.toNat + (varint v).length ∧
      out.toList.take j.toNat = tmp.toList.take i.toNat ++ varint v := by
  induction v using Nat.strong_induction_on generalizing tmp i with
  | _ v ih =>
    by_cases hv : v < 128
    · rw [varint_small hv, List.length_singleton] at hroom ⊢
      have hi : i.toNat < n := by omega
      have hnext : (i + 1).toNat = i.toNat + 1 := by
        rw [UInt8.toNat_add]
        exact Nat.mod_eq_of_lt (by simp; omega)
      refine ⟨tmp.set i.toNat (UInt8.ofNat v), i + 1, ?_, hnext, ?_⟩
      · rw [storeVarint, dif_pos hi, if_neg (by omega)]
      · rw [hnext, take_set_append]
    · have hlarge := Nat.le_of_not_lt hv
      rw [varint_large hlarge, List.length_cons] at hroom ⊢
      have hi : i.toNat < n := by omega
      have hnext : (i + 1).toNat = i.toNat + 1 := by
        rw [UInt8.toNat_add]
        exact Nat.mod_eq_of_lt (by simp; omega)
      obtain ⟨out, j, hstore, hj, hout⟩ := ih (v / 128) (by omega)
        (tmp.set i.toNat (UInt8.ofNat ((v &&& 0x7F) ||| 0x80))) (i + 1) (by omega)
      refine ⟨out, j, ?_, by omega, ?_⟩
      · rw [storeVarint, dif_pos hi, if_pos hlarge, Nat.shiftRight_eq_div_pow]
        exact hstore
      · rw [hout, hnext, take_set_append, List.append_assoc]
        rfl

end Store

section Groups

/-- Bytes behind the end of a varint are not looked at. -/
theorem groups_append {n : Nat} {data : List UInt8} (h : groups n data ≤ data.length)
    (rest : List UInt8) : groups n (data ++ rest) = groups n data := by
  induction n generalizing data with
  | zero => rfl
  | succ n ih =>
    cases data with
    | nil => cases h
    | cons x xs =>
      rw [List.cons_append, groups, groups]
      by_cases hx : x < 0x80
      · rw [if_pos hx, if_pos hx]
      · rw [groups, if_neg hx] at h
        rw [if_neg hx, if_neg hx, ih (Nat.le_of_succ_le_succ h)]

/-- An encoding that starts another one is the whole of it. -/
theorem eq_of_prefix_varint {v w : Nat} (h : varint v <+: varint w) : v = w := by
  obtain ⟨rest, hrest⟩ := h
  have hle : (varint v).length ≤ (varint w).length := by
    rw [← hrest, List.length_append]
    exact Nat.le_add_right _ _
  have hv := groups_varint hle
  have hw := groups_varint (Nat.le_refl (varint w).length)
  rw [← hrest, groups_append (by rw [hrest]; exact Nat.le_of_eq hv), hrest, hv, ← hrest,
    List.length_append] at hw
  have hnil : rest = [] := List.eq_nil_of_length_eq_zero (by omega)
  rw [hnil, List.append_nil] at hrest
  rw [← sevens_varint v, hrest, sevens_varint]

theorem varint_length_mono {v w : Nat} (h : v ≤ w) : (varint v).length ≤ (varint w).length := by
  rw [varint_length, varint_length]
  exact Nat.succ_le_succ (Nat.log_mono_right h)

theorem stopsAt_groups (n : Nat) (data : List UInt8) :
    StopsAt n data (min (groups n data) data.length) := by
  induction n generalizing data with
  | zero => exact ⟨Nat.min_le_left _ _, Nat.min_le_right _ _, by simp [groups], by simp [groups]⟩
  | succ n ih =>
    cases data with
    | nil => exact ⟨by simp, by simp, by simp, by simp⟩
    | cons x xs =>
      by_cases hx : x < 0x80
      · have hone : min (groups (n + 1) (x :: xs)) (x :: xs).length = 1 := by
          simp [groups, hx]
        rw [hone]
        exact ⟨by omega, by simp, by simp, .inr (.inr ⟨x, by simp, hx⟩)⟩
      · obtain ⟨hmost, hinside, hcont, hstop⟩ := ih xs
        generalize hk : min (groups n xs) xs.length = k at hmost hinside hcont hstop
        have hnext : min (groups (n + 1) (x :: xs)) (x :: xs).length = k + 1 := by
          rw [groups, if_neg hx, List.length_cons, ← hk, Nat.add_min_add_right]
        rw [hnext]
        refine ⟨Nat.succ_le_succ hmost, Nat.succ_le_succ hinside, ?_, ?_⟩
        · rw [List.take_succ_cons]
          intro y hy
          cases htake : xs.take k with
          | nil =>
            rw [htake] at hy
            cases hy
          | cons z zs =>
            rw [htake, List.dropLast_cons_of_ne_nil (List.cons_ne_nil z zs)] at hy
            rcases List.mem_cons.mp hy with rfl | hy
            · exact hx
            · exact hcont y (htake ▸ hy)
        · rcases hstop with hn | hlen | ⟨y, hlast, hy⟩
          · exact .inl (congrArg (· + 1) hn)
          · exact .inr (.inl (congrArg (· + 1) hlen))
          · refine .inr (.inr ⟨y, ?_, hy⟩)
            rw [List.take_succ_cons, List.getLast?_cons, hlast]
            rfl

end Groups

section Loop
variable {base : Nat}

/-- The guard of the loop is the bound of its shifts. -/
theorem readVarintShifts_eq (w i r : Nat) : readVarintShifts w i r = some <$> readVarint w i r := by
  induction hn : w - i using Nat.strong_induction_on generalizing i r with
  | _ n ih =>
    rw [readVarintShifts, readVarint]
    by_cases hi : i < w
    · have hshift : ∀ x, shiftLeft w x i = some ((x <<< i) % 2 ^ w) := fun x => if_pos hi
      rw [if_pos hi, if_pos hi, map_bind]
      congr 1
      funext b
      by_cases hb : b < 0x80
      · rw [if_pos hb, if_pos hb, hshift, map_pure]
        rfl
      · rw [if_neg hb, if_neg hb, hshift]
        exact ih (w - (i + 7)) (by omega) (i + 7) _ rfl
    · rw [if_neg hi, if_neg hi, map_pure]

/-- Whatever the bytes are, the loop takes those of a varint, also when it throws. -/
theorem leaves_readVarint (hb : 1 ≤ base) {w capacity size : Nat} {data : List UInt8} {b : ByteArray}
    (hrem : Remaining base capacity size data b) :
    ∃ k, StopsAt ((w + 6) / 7) data k ∧
      Lib.Effect.Leaves (fun t => t.position = b.position + k ∧ t.unread = data.drop k)
        (fun _ => False) (readVarint w 0 0 b) := by
  refine ⟨_, stopsAt_groups ((w + 6) / 7) data, ?_⟩
  have hbefore := hrem.position_add
  by_cases hle : groups ((w + 6) / 7) data ≤ data.length
  · have hc := consumes_groups hb (w := w) (i := 0) (r := 0) rfl (Nat.two_pow_pos 0)
      (Nat.two_pow_pos w) hle
    have hrem' := hrem
    rw [← List.take_append_drop (groups ((w + 6) / 7) data) data] at hrem'
    obtain ⟨t, he, ht⟩ := hc capacity size _ b hrem'
    have hafter := ht.position_add
    rw [List.length_drop] at hafter
    rw [he, Nat.min_eq_left hle]
    exact ⟨by omega, ht.unread_eq⟩
  · have hlt := Nat.lt_of_not_le hle
    obtain ⟨what, t, he, ht, -⟩ := varint_exhausted hb (i := 0) (r := 0) rfl hlt hrem
    have hafter := ht.position_add
    rw [List.length_nil] at hafter
    rw [he, Nat.min_eq_right (Nat.le_of_lt hlt)]
    refine .inr ⟨by omega, ?_⟩
    rw [ht.unread_eq, List.drop_length]

end Loop

section Shape
variable {base : Nat}

theorem remaining_reachable (hb : 1 ≤ base) {host : Endian} {b : ByteArray}
    (hr : (machine host base).Reachable b) : Remaining base b.capacity b.size b.unread b :=
  ⟨rep_reachable hb hr, big_reachable hr, rfl, rfl, rfl⟩

/-- What is read is the value that was written, and the position is behind it. -/
theorem stops_of_consumes (hb : 1 ≤ base) {host : Endian} {α : Type} {read : Op α}
    {bytes rest : List UInt8} {v : α} (hread : Consumes base read bytes v) {b : ByteArray}
    (hr : (machine host base).Reachable b) (hu : b.unread = bytes ++ rest) :
    ∃ t, read b = .ok v t ∧ t.position = b.position + bytes.length ∧ t.unread = rest := by
  have hrem := remaining_reachable hb hr
  rw [hu] at hrem
  have hbefore := hrem.position_add
  rw [List.length_append] at hbefore
  obtain ⟨t, he, ht⟩ := hread _ _ _ _ hrem
  have hafter := ht.position_add
  exact ⟨t, he, by omega, ht.unread_eq⟩

/-- The loop that stores starts at the front of `tmp`. -/
theorem stored_whole {n : Nat} (hn : n < 256) (tmp : Vector UInt8 n) {v : Nat}
    (hfits : (varint v).length ≤ n) :
    ∃ out i, storeVarint tmp 0 v = some (out, i) ∧ i.toNat ≤ n ∧
      out.toList.take i.toNat = varint v := by
  have hzero : (0 : UInt8).toNat = 0 := rfl
  obtain ⟨out, i, hstore, hi, hout⟩ := storeVarint_eq hn tmp 0 v (by omega)
  rw [hzero, List.take_zero, List.nil_append] at hout
  exact ⟨out, i, hstore, by omega, hout⟩

/-- What the two widths have in common. -/
theorem varintShape_of (hb : 1 ≤ base) {host : Endian} {w len : Nat} (hlen : len = (w + 6) / 7)
    (hpos : 1 ≤ len) (hsmall : len < 256) {α : Type} {value : α → Nat} {ofNat : Nat → α}
    (hinj : Function.Injective value) (hlt : ∀ v, value v < 2 ^ w) {write : Garbage → α → Op Unit}
    (hwrite : ∀ garbage v, write garbage v = ByteArray.write garbage (varint (value v)))
    {read : Op α} (hread : read = do return ofNat (← readVarint w 0 0))
    (hconsumes : ∀ v, Consumes base read (varint (value v)) v) {readShifts : Op (Option α)}
    (hshifts : readShifts = do return (← readVarintShifts w 0 0).map ofNat) :
    VarintShape host base len value write read readShifts where
  stored := by
    intro garbage tmp v
    have hbits : value v < 2 ^ (7 * len) :=
      Nat.lt_of_lt_of_le (hlt v) (Nat.pow_le_pow_right (by decide) (by omega))
    obtain ⟨out, i, hstore, hi, hout⟩ := stored_whole hsmall tmp (varint_fits hpos hbits)
    exact ⟨out, i, hstore, hi, hout, by rw [hout, hwrite]⟩
  prefix_free := by
    intro v w hne hpre
    exact hne (hinj (eq_of_prefix_varint hpre))
  no_longer := by
    intro v w hle
    exact varint_length_mono hle
  stops := by
    intro b v rest hr hu
    exact stops_of_consumes hb (hconsumes v) hr hu
  bounded := by
    intro b hr
    obtain ⟨k, hk, hleaves⟩ := leaves_readVarint hb (w := w) (remaining_reachable hb hr)
    rw [hread, hlen]
    exact ⟨k, hk, hleaves.return ofNat⟩
  shifts := by
    rw [hshifts, hread, readVarintShifts_eq]
    simp

/-- The varints of 32 bits and of 64 bits. -/
theorem varint_shape (hb : 1 ≤ base) (host : Endian) :
    VarintShape host base 5 UInt32.toNat writeUint32 readUint32 readUint32Shifts ∧
      VarintShape host base 10 UInt64.toNat writeUint64 readUint64 readUint64Shifts := by
  constructor
  · exact varintShape_of hb (w := 32) rfl (by omega) (by omega) (fun _ _ => UInt32.toNat_inj.mp)
      UInt32.toNat_lt (fun _ _ => rfl) rfl (consumes_readUint32 hb) rfl
  · exact varintShape_of hb (w := 64) rfl (by omega) (by omega) (fun _ _ => UInt64.toNat_inj.mp)
      UInt64.toNat_lt (fun _ _ => rfl) rfl (consumes_readUint64 hb) rfl

theorem varint_shape_page :
    VarintShape .little 4096 5 UInt32.toNat writeUint32 readUint32 readUint32Shifts ∧
      VarintShape .little 4096 10 UInt64.toNat writeUint64 readUint64 readUint64Shifts :=
  varint_shape (by omega) .little

end Shape

end HxSylar.ByteArray
