import HxSylar.Proofs.Codec

namespace HxSylar.ByteArray
open Lib (leBytes leValue)

/-- The layout of a number, or of the length before a string. -/
inductive Head
  | fixed (n : Nat)
  | varint (w : Nat)

namespace Head

/-- How many bytes it takes, given what there is. -/
def span : Head → List UInt8 → Nat
  | fixed n, _ => n
  | varint w, data => groups ((w + 6) / 7) data

def value : Head → List UInt8 → Nat
  | fixed n, data => leValue (data.take n).reverse
  | varint w, data => sevens (data.take (groups ((w + 6) / 7) data)) % 2 ^ w

/-- The bytes end inside it, and those that are there are read one by one. -/
def Cut : Head → List UInt8 → Prop
  | fixed _, _ => False
  | varint w, data => data ≠ [] ∧ data.length < (w + 6) / 7 ∧ ∀ x ∈ data, ¬x < 0x80

/-- It is there, and it announces more bytes than follow it, though not more than a string can
hold. -/
def Overrun (h : Head) (data : List UInt8) : Prop :=
  h.span data ≤ data.length ∧ data.length - h.span data < h.value data ∧ h.value data ≤ Lib.maxSize

end Head

def Number.head : Number → Head
  | fint8 | fuint8 => .fixed 1
  | fint16 | fuint16 => .fixed 2
  | fint32 | fuint32 | float => .fixed 4
  | fint64 | fuint64 => .fixed 8
  | int32 | uint32 => .varint 32
  | int64 | uint64 => .varint 64

def Format.head : Format → Head
  | f16 => .fixed 2
  | f32 => .fixed 4
  | f64 => .fixed 8
  | vint => .varint 64

/-- The typed reads. -/
inductive TypedRead
  | number (n : Number)
  | double
  | text (f : Format)

namespace TypedRead

def call : TypedRead → Call
  | number n => .readNumber n
  | double => .readDouble
  | text f => .readString f

/-- An `out_of_range` from the call leaves all fields as they were. -/
def LeavesInPlace (host : Endian) (r : TypedRead) (b : ByteArray) : Prop :=
  ∀ what t, r.call.run host b = .error (.outOfRange what) t → t = b

/-- What the readable bytes have to be for that. -/
def Retryable : TypedRead → List UInt8 → Prop
  | number n, data => ¬n.head.Cut data
  | double, _ => True
  | text f, data => ¬f.head.Cut data ∧ ¬f.head.Overrun data

end TypedRead

/-- The bytes end inside a varint when they are few and none is below 0x80. -/
theorem groups_short_iff (n : Nat) (data : List UInt8) :
    data.length < groups n data ↔ data.length < n ∧ ∀ x ∈ data, ¬x < 0x80 := by
  induction n generalizing data with
  | zero => simp [groups]
  | succ n ih =>
    cases data with
    | nil => simp [groups]
    | cons x xs =>
      rw [groups, List.length_cons, List.forall_mem_cons]
      by_cases hx : x < 0x80
      · rw [if_pos hx]
        exact iff_of_false (by omega) (fun h => h.2.1 hx)
      · rw [if_neg hx, Nat.add_lt_add_iff_right, Nat.add_lt_add_iff_right, ih]
        exact ⟨fun h => ⟨h.1, hx, h.2⟩, fun h => ⟨h.1, h.2.2⟩⟩

theorem Head.Cut.short {h : Head} {data : List UInt8} (hc : h.Cut data) :
    data.length < h.span data := by
  cases h with
  | fixed n => cases hc
  | varint w => exact (groups_short_iff _ data).mpr hc.2

theorem Format.span_pos (f : Format) (data : List UInt8) : 0 < f.head.span data := by
  cases f with
  | f16 | f32 | f64 => exact Nat.succ_pos _
  | vint =>
    change 0 < groups 10 data
    cases data with
    | nil => exact Nat.one_pos
    | cons x xs =>
      rw [groups]
      split
      · exact Nat.one_pos
      · exact Nat.succ_pos _

/-- `x` reads what lies under `h` as `g` of the readable bytes. If they do not suffice it throws,
and has moved if they end inside a varint. -/
def Decodes (base : Nat) {α : Type} (x : Op α) (h : Head) (g : List UInt8 → α) : Prop :=
  ∀ capacity size data b, Remaining base capacity size data b →
    (h.span data ≤ data.length →
      ∃ t, x b = .ok (g data) t ∧ Remaining base capacity size (data.drop (h.span data)) t) ∧
    (data.length < h.span data →
      ∃ what t, x b = .error (.outOfRange what) t ∧ (t = b ↔ ¬h.Cut data))

section Decodes
variable {base : Nat} {α β : Type} {h : Head}

theorem Decodes.return {x : Op α} {g : List UInt8 → α} (hx : Decodes base x h g) (f : α → β) :
    Decodes base (x >>= fun a => pure (f a)) h (fun data => f (g data)) := by
  intro capacity size data b hrem
  obtain ⟨hok, herr⟩ := hx capacity size data b hrem
  constructor
  · intro hle
    obtain ⟨t, he, ht⟩ := hok hle
    exact ⟨t, by rw [Lib.Effect.bind_ok he]; rfl, ht⟩
  · intro hlt
    obtain ⟨what, t, he, ht⟩ := herr hlt
    exact ⟨what, t, by rw [Lib.Effect.bind_error he], ht⟩

/-- A plain read does all or nothing. -/
theorem decodes_read (hb : 1 ≤ base) {n : Nat} (hn : n ≠ 0) :
    Decodes base (read n) (.fixed n) (fun data => data.take n) := by
  intro capacity size data b hrem
  have hsize : b.getReadSize = data.length := by
    rw [← hrem.rep.unread_length, hrem.unread_eq]
  constructor
  · intro hle
    have hlen : (data.take n).length = n := by
      rw [List.length_take]
      exact Nat.min_eq_left hle
    have hne : data ≠ [] := by
      apply List.ne_nil_of_length_pos
      exact Nat.lt_of_lt_of_le (Nat.pos_of_ne_zero hn) hle
    rw [← List.take_append_drop n data] at hrem hne
    obtain ⟨t, he, ht⟩ := hrem.read hb (.inl hne)
    rw [hlen] at he
    exact ⟨t, he, ht⟩
  · intro hlt
    refine ⟨_, b, read_out_of_range (hsize ▸ hlt), ?_⟩
    exact iff_of_true rfl id

theorem decodes_readFixed (hb : 1 ≤ base) (host : Endian) {n : Nat} (hn : n ≠ 0) :
    Decodes base (readFixed host n) (.fixed n) (Head.fixed n).value := by
  intro capacity size data b hrem
  constructor
  · intro hle
    have hlen : (data.take n).length = n := by
      rw [List.length_take]
      exact Nat.min_eq_left hle
    have hbytes : (leBytes n (leValue (data.take n).reverse)).reverse = data.take n := by
      have h := Lib.leBytes_leValue (data.take n).reverse
      rw [List.length_reverse, hlen] at h
      rw [h, List.reverse_reverse]
    have hv : leValue (data.take n).reverse < 256 ^ n := by
      have h := Lib.leValue_lt (data.take n).reverse
      rwa [List.length_reverse, hlen] at h
    have hc := consumes_readFixed hb host hn hv
    rw [hbytes] at hc
    rw [← List.take_append_drop n data] at hrem
    exact hc capacity size _ b hrem
  · intro hlt
    obtain ⟨what, t, he, ht⟩ := (decodes_read hb hn capacity size data b hrem).2 hlt
    exact ⟨what, t, by rw [readFixed, Lib.Effect.bind_error he], ht⟩

/-- The loop takes the bytes one by one and throws when it has taken the last. -/
theorem varint_exhausted (hb : 1 ≤ base) {w i r n : Nat} (hn : n = (w - i + 6) / 7)
    {capacity size : Nat} {data : List UInt8} {b : ByteArray} (hd : data.length < groups n data)
    (hrem : Remaining base capacity size data b) :
    ∃ what t, readVarint w i r b = .error (.outOfRange what) t ∧
      Remaining base capacity size [] t ∧ (data = [] → t = b) := by
  induction n generalizing i r data b with
  | zero => cases hd
  | succ n ih =>
    have hi : i < w := by omega
    rw [readVarint, if_pos hi]
    cases data with
    | nil =>
      obtain ⟨what, t, he, ht⟩ := (decodes_read hb Nat.one_ne_zero capacity size [] b hrem).2 Nat.one_pos
      obtain rfl := ht.mpr id
      refine ⟨what, t, ?_, hrem, fun _ => rfl⟩
      rw [readFuint8, bind_assoc, Lib.Effect.bind_error he]
    | cons x xs =>
      obtain ⟨t, he, ht⟩ := consumes_readFuint8 hb x capacity size xs b hrem
      have hx : ¬x < 0x80 := ((groups_short_iff _ _).mp hd).2 x List.mem_cons_self
      rw [groups, if_neg hx, List.length_cons, Nat.add_lt_add_iff_right] at hd
      obtain ⟨what, t', he', ht', -⟩ := ih (i := i + 7)
        (r := r ||| ((x &&& 0x7F).toNat <<< i) % 2 ^ w) (by omega) hd ht
      refine ⟨what, t', ?_, ht', fun h => ?_⟩
      · rw [Lib.Effect.bind_ok he, if_neg hx, he']
      · cases h

theorem decodes_readVarint (hb : 1 ≤ base) (w : Nat) :
    Decodes base (readVarint w 0 0) (.varint w) (Head.varint w).value := by
  intro capacity size data b hrem
  constructor
  · intro hle
    have hc := consumes_groups hb (w := w) (i := 0) (r := 0) rfl (Nat.two_pow_pos 0)
      (Nat.two_pow_pos w) hle
    rw [Nat.zero_add, Nat.pow_zero, Nat.mul_one] at hc
    rw [← List.take_append_drop (groups ((w + 6) / 7) data) data] at hrem
    exact hc capacity size _ b hrem
  · intro hlt
    obtain ⟨what, t, he, ht, hnil⟩ := varint_exhausted hb (i := 0) (r := 0) rfl hlt hrem
    refine ⟨what, t, he, ?_⟩
    by_cases hd : data = []
    · exact iff_of_true (hnil hd) (fun hc => hc.1 hd)
    · refine iff_of_false ?_ (fun hc => hc ⟨hd, (groups_short_iff _ _).mp hlt⟩)
      intro heq
      rw [heq] at ht
      exact hd (hrem.unread_eq.symm.trans ht.unread_eq)

end Decodes

section Failed
variable {base capacity size : Nat} {α : Type} {h : Head} {x : Op α} {g : List UInt8 → α}
  {data : List UInt8} {b : ByteArray}

theorem thrown_iff {what : String} {t : ByteArray} :
    (∀ what' t', (.error (.outOfRange what) t : EStateM.Result Failure ByteArray α) =
      .error (.outOfRange what') t' → t' = b) ↔ t = b := by
  constructor
  · intro hall
    exact hall what t rfl
  · intro heq what' t' he
    cases he
    exact heq

theorem Decodes.failed_iff (hx : Decodes base x h g) (hrem : Remaining base capacity size data b) :
    (∀ what t, x b = .error (.outOfRange what) t → t = b) ↔ ¬h.Cut data := by
  obtain ⟨hok, herr⟩ := hx capacity size data b hrem
  by_cases hle : h.span data ≤ data.length
  · obtain ⟨t, he, -⟩ := hok hle
    refine iff_of_true ?_ (fun hc => Nat.not_lt.mpr hle hc.short)
    intro what t' he'
    rw [he] at he'
    cases he'
  · obtain ⟨what, t, he, ht⟩ := herr (Nat.lt_of_not_le hle)
    rw [he, thrown_iff, ht]

/-- Enough bytes are no guarantee that `read` returns, but it does not throw. -/
theorem read_not_thrown (hb : 1 ≤ base) (hr : Rep base b) {n : Nat} (hn : n ≤ b.getReadSize)
    (what : String) (t : ByteArray) : read n b ≠ .error (.outOfRange what) t := by
  intro he
  by_cases hc : b.position = b.capacity
  · rw [read_null hr hn hc] at he
    cases he
  · rw [read_eq hb hr hn hc] at he
    cases he

/-- A string is read in two steps, and the second one does not take back the first. -/
theorem Decodes.text_failed_iff (hb : 1 ≤ base) (hx : Decodes base x h g)
    (hpos : 0 < h.span data) {len : α → Nat} (hlen : len (g data) = h.value data)
    (hrem : Remaining base capacity size data b) :
    (∀ what t, (x >>= fun a => readBuff (len a)) b = .error (.outOfRange what) t → t = b) ↔
      ¬h.Cut data ∧ ¬h.Overrun data := by
  by_cases hle : h.span data ≤ data.length
  · obtain ⟨t, he, ht⟩ := (hx capacity size data b hrem).1 hle
    have hcut : ¬h.Cut data := fun hc => Nat.not_lt.mpr hle hc.short
    have hsize : t.getReadSize = data.length - h.span data := by
      rw [← ht.rep.unread_length, ht.unread_eq, List.length_drop]
    have hmoved : t ≠ b := by
      intro heq
      rw [heq] at ht
      have hsame := congrArg List.length (hrem.unread_eq.symm.trans ht.unread_eq)
      rw [List.length_drop] at hsame
      omega
    rw [Lib.Effect.bind_ok he, hlen, readBuff]
    by_cases hmax : Lib.maxSize < h.value data
    · rw [if_pos hmax]
      refine iff_of_true ?_ ⟨hcut, fun ho => Nat.not_lt.mpr ho.2.2 hmax⟩
      intro what t' he'
      cases he'
    · rw [if_neg hmax]
      by_cases hfew : data.length - h.span data < h.value data
      · refine iff_of_false ?_ (fun hno => hno.2 ⟨hle, hfew, Nat.le_of_not_lt hmax⟩)
        intro hall
        exact hmoved (hall _ t (read_out_of_range (hsize ▸ hfew)))
      · refine iff_of_true ?_ ⟨hcut, fun ho => hfew ho.2.1⟩
        intro what t' he'
        exact absurd he' (read_not_thrown hb ht.rep (hsize ▸ Nat.le_of_not_lt hfew) what t')
  · obtain ⟨what, t, he, ht⟩ := (hx capacity size data b hrem).2 (Nat.lt_of_not_le hle)
    rw [Lib.Effect.bind_error he, thrown_iff, ht]
    exact (and_iff_left (fun ho => hle ho.1)).symm

theorem Number.decodes (hb : 1 ≤ base) (host : Endian) (n : Number) :
    ∃ g, Decodes base (n.read host) n.head g := by
  cases n with
  | fint8 | fuint8 => exact ⟨_, (decodes_read hb (by decide)).return _⟩
  | uint32 | uint64 => exact ⟨_, (decodes_readVarint hb _).return _⟩
  | int32 | int64 => exact ⟨_, ((decodes_readVarint hb _).return _).return _⟩
  | _ => exact ⟨_, (decodes_readFixed hb host (by decide)).return _⟩

theorem fixed_value_lt (n : Nat) (data : List UInt8) : (Head.fixed n).value data < 256 ^ n := by
  have hlt := Lib.leValue_lt (data.take n).reverse
  apply Nat.lt_of_lt_of_le hlt
  apply Nat.pow_le_pow_right (by decide)
  rw [List.length_reverse, List.length_take]
  exact Nat.min_le_left _ _

theorem Format.failed_iff (hb : 1 ≤ base) (host : Endian) (f : Format)
    (hrem : Remaining base capacity size data b) :
    (∀ what t, f.read host b = .error (.outOfRange what) t → t = b) ↔
      ¬f.head.Cut data ∧ ¬f.head.Overrun data := by
  have hpos := f.span_pos data
  cases f with
  | f16 =>
    apply ((decodes_readFixed hb host (by decide)).return UInt16.ofNat).text_failed_iff hb hpos ?_ hrem
    exact UInt16.toNat_ofNat_of_lt' (fixed_value_lt 2 data)
  | f32 =>
    apply ((decodes_readFixed hb host (by decide)).return UInt32.ofNat).text_failed_iff hb hpos ?_ hrem
    exact UInt32.toNat_ofNat_of_lt' (fixed_value_lt 4 data)
  | f64 =>
    apply ((decodes_readFixed hb host (by decide)).return UInt64.ofNat).text_failed_iff hb hpos ?_ hrem
    exact UInt64.toNat_ofNat_of_lt' (fixed_value_lt 8 data)
  | vint =>
    apply ((decodes_readVarint hb 64).return UInt64.ofNat).text_failed_iff hb hpos ?_ hrem
    exact UInt64.toNat_ofNat_of_lt' (Nat.mod_lt _ (Nat.two_pow_pos 64))

theorem remaining_unread (hb : 1 ≤ base) {host : Endian} (hr : (machine host base).Reachable b) :
    Remaining base b.capacity b.size b.unread b :=
  ⟨rep_reachable hb hr, big_reachable hr, rfl, rfl, rfl⟩

theorem number_failed_iff (hb : 1 ≤ base) {host : Endian} (hr : (machine host base).Reachable b)
    (n : Number) : (TypedRead.number n).LeavesInPlace host b ↔ ¬n.head.Cut b.unread := by
  obtain ⟨g, hd⟩ := n.decodes hb host
  simp only [TypedRead.LeavesInPlace, TypedRead.call, Call.run, Lib.Effect.discard_error_iff]
  exact hd.failed_iff (remaining_unread hb hr)

/-- A typed read that throws has left the array alone exactly when no varint was cut off and no
length announced more than there is. -/
theorem failed_read_iff (hb : 1 ≤ base) {host : Endian} (hr : (machine host base).Reachable b)
    (r : TypedRead) : r.LeavesInPlace host b ↔ r.Retryable b.unread := by
  have hrem := remaining_unread hb hr
  cases r with
  | number n => exact number_failed_iff hb hr n
  | double =>
    have hd := (decodes_readFixed hb host (n := 8) (by decide)).return UInt64.ofNat
    simp only [TypedRead.LeavesInPlace, TypedRead.call, Call.run, Lib.Effect.discard_error_iff]
    exact (hd.failed_iff hrem).trans (iff_of_true id trivial)
  | text f =>
    simp only [TypedRead.LeavesInPlace, TypedRead.call, Call.run, Lib.Effect.discard_error_iff]
    exact f.failed_iff hb host hrem

/-- Three bytes are left where four are asked for. -/
theorem failed_read_fixed :
    ∃ b t, (machine .little 2).Reachable b ∧ b.position = 1 ∧
      (TypedRead.call (.number .fint32)).run .little b = .error (.outOfRange "not enough len") t ∧
      t = b := by
  have hr : (machine .little 2).Reachable
      { baseSize := 2, position := 1, capacity := 4, size := 4, nodes := [[1, 2], [3, 4]],
        cur := some 0 } :=
    Lib.Machine.reachable_of_exec (s := create 2 (fun _ _ => 0))
      [.write (fun _ _ => 0) [1, 2, 3, 4], .setPosition 1] ⟨_, rfl⟩ (by decide)
  have herr : (TypedRead.call (.number .fint32)).run .little
      { baseSize := 2, position := 1, capacity := 4, size := 4, nodes := [[1, 2], [3, 4]],
        cur := some 0 } = .error (.outOfRange "not enough len") _ := rfl
  refine ⟨_, _, hr, rfl, herr, ?_⟩
  exact (failed_read_iff (by decide) hr (.number .fint32)).mpr id _ _ herr

/-- A string announces five bytes and one is there: its length has been taken when the read of
them throws. The first byte of a varint has been taken when the second one is missing. -/
theorem failed_read_moved :
    ∃ b t u, (machine .little 4).Reachable b ∧ b.position = 0 ∧
      (TypedRead.call (.text .f16)).run .little b = .error (.outOfRange "not enough len") t ∧
      t.position = 2 ∧ ¬(TypedRead.text .f16).LeavesInPlace .little b ∧
      (machine .little 4).Reachable u ∧ u.unread = [0x80] ∧
      ¬(TypedRead.number .uint32).LeavesInPlace .little u := by
  have hr : (machine .little 4).Reachable
      { baseSize := 4, position := 0, capacity := 4, size := 3, nodes := [[0, 5, 97, 0]],
        cur := some 0 } :=
    Lib.Machine.reachable_of_exec (s := create 4 (fun _ _ => 0))
      [.write (fun _ _ => 0) [0, 5, 97], .setPosition 0] ⟨_, rfl⟩ (by decide)
  have hu : (machine .little 4).Reachable
      { baseSize := 4, position := 0, capacity := 4, size := 1, nodes := [[0x80, 0, 0, 0]],
        cur := some 0 } :=
    Lib.Machine.reachable_of_exec (s := create 4 (fun _ _ => 0))
      [.write (fun _ _ => 0) [0x80], .setPosition 0] ⟨_, rfl⟩ (by decide)
  refine ⟨_, _, _, hr, rfl, rfl, rfl, ?_, hu, rfl, ?_⟩
  · intro hleaves
    have hsame := congrArg ByteArray.position (hleaves _ _ rfl)
    exact absurd hsame (by decide)
  · have hcut : (Number.head .uint32).Cut [0x80] := by
      refine ⟨List.cons_ne_nil _ _, by decide, ?_⟩
      intro x hx
      rw [List.mem_singleton] at hx
      subst hx
      decide
    intro hleaves
    exact (number_failed_iff (by decide) hu .uint32).mp hleaves hcut

end Failed

end HxSylar.ByteArray
