import HxSylar.UrlCodec

namespace HxSylar.StringUtil
open Lib

/-- What `UrlEncode` makes of a byte. -/
def encodeByte (f : Bool) (c : UInt8) : Text :=
  if charIsUnreserved c then [c] else if c = byte ' ' ∧ f then [byte '+'] else percentEscape c

/-- What `UrlDecode` makes of a text, without the buffer. -/
def decoded (f : Bool) : Text → Text
  | [] => []
  | c :: x :: y :: rest =>
    if c = byte '+' ∧ f then byte ' ' :: decoded f (x :: y :: rest)
    else if c = byte '%' ∧ isxdigit x ∧ isxdigit y then xdigitByte x y :: decoded f rest
    else c :: decoded f (x :: y :: rest)
  | c :: rest => (if c = byte '+' ∧ f then byte ' ' else c) :: decoded f rest

section Buffer

/-- What is written so far, where nothing is buffered as long as nothing has changed. -/
theorem written_same (ss : Option Text) (pre t : Text) :
    (ss.map (· ++ t)).getD (pre ++ t) = ss.getD pre ++ t := by
  cases ss with
  | none => rfl
  | some buffer => rfl

theorem written_encode (f : Bool) (pre : Text) (ss : Option Text) (str : Text) :
    (urlEncodeLoop f pre ss str).getD (pre ++ str) = ss.getD pre ++ str.flatMap (encodeByte f) := by
  induction str generalizing pre ss with
  | nil => simp [urlEncodeLoop]
  | cons c rest ih =>
    have hpre : pre ++ c :: rest = (pre ++ [c]) ++ rest := by simp
    rw [List.flatMap_cons, hpre, ← List.append_assoc, encodeByte]
    unfold urlEncodeLoop
    by_cases hc : charIsUnreserved c
    · rw [hc, Bool.not_true, if_neg Bool.false_ne_true, if_pos rfl, ih, written_same]
    · rw [Bool.eq_false_iff.mpr hc, Bool.not_false, if_pos rfl, if_neg Bool.false_ne_true]
      dsimp only
      split
      · rw [ih, Option.getD_some]
      · rw [ih, Option.getD_some]

theorem written_decode (f : Bool) (pre : Text) (ss : Option Text) (str : Text) :
    (urlDecodeLoop f pre ss str).getD (pre ++ str) = ss.getD pre ++ decoded f str := by
  fun_induction decoded f str generalizing pre ss with
  | case1 => simp [urlDecodeLoop]
  | case2 c x y rest hplus ih =>
    have hpre : pre ++ c :: x :: y :: rest = (pre ++ [c]) ++ x :: y :: rest := by simp
    rw [urlDecodeLoop, if_pos hplus, hpre, ih]
    simp
  | case3 c x y rest hplus hescape ih =>
    have hpre : pre ++ c :: x :: y :: rest = (pre ++ [c, x, y]) ++ rest := by simp
    rw [urlDecodeLoop, if_neg hplus, if_pos hescape, hpre, ih]
    simp
  | case4 c x y rest hplus hescape ih =>
    have hpre : pre ++ c :: x :: y :: rest = (pre ++ [c]) ++ x :: y :: rest := by simp
    rw [urlDecodeLoop, if_neg hplus, if_neg hescape, hpre, ih, written_same]
    simp
  | case5 c rest hrest ih =>
    have hpre : pre ++ c :: rest = (pre ++ [c]) ++ rest := by simp
    rw [urlDecodeLoop, hpre]
    · split
      · rw [ih, Option.getD_some, List.append_assoc]
        rfl
      · rw [ih, written_same, List.append_assoc]
        rfl
    · exact hrest

/-- `UrlEncode` writes byte by byte. -/
theorem urlEncode_eq (s : Text) (f : Bool) : urlEncode s f = s.flatMap (encodeByte f) :=
  written_encode f [] none s

theorem urlDecode_eq (s : Text) (f : Bool) : urlDecode s f = decoded f s :=
  written_decode f [] none s

end Buffer

section Tables

/-- The digit that `UrlEncode` writes for `d` is a hexadecimal one, which `XDIGIT_CHARS` reads back,
and a byte that stands for itself. -/
theorem hexdigit_spec {d : Nat} (h : d < 16) :
    hexdigits.getD d 0 ∈ hexdigits ∧ isxdigit (hexdigits.getD d 0) = true ∧
      (xdigitChars.getD (hexdigits.getD d 0).toNat 0).toNat = d ∧
      charIsUnreserved (hexdigits.getD d 0) = true := by
  have hall : ∀ d < 16, hexdigits.getD d 0 ∈ hexdigits ∧ isxdigit (hexdigits.getD d 0) = true ∧
      (xdigitChars.getD (hexdigits.getD d 0).toNat 0).toNat = d ∧
      charIsUnreserved (hexdigits.getD d 0) = true := by
    decide
  exact hall d h

theorem high_digit (c : UInt8) : (c >>> 4).toNat = c.toNat / 16 := by
  rw [UInt8.toNat_shiftRight]
  exact Nat.shiftRight_eq_div_pow c.toNat 4

theorem low_digit (c : UInt8) : (c &&& 0xf).toNat = c.toNat % 16 := by
  rw [UInt8.toNat_and]
  exact Nat.and_two_pow_sub_one_eq_mod c.toNat 4

/-- Two digits of the table make the number that they stand for. -/
theorem xdigitByte_toNat {x y : UInt8} {h l : Nat} (hh : h < 16) (hl : l < 16)
    (hx : (xdigitChars.getD x.toNat 0).toNat = h) (hy : (xdigitChars.getD y.toNat 0).toNat = l) :
    (xdigitByte x y).toNat = 16 * h + l := by
  have hmod : h * 16 % 256 = 16 * h := by omega
  have hor : 16 * h ||| l = 16 * h + l := (Nat.two_pow_add_eq_or_of_lt (i := 4) hl h).symm
  unfold xdigitByte
  rw [UInt8.toNat_or, UInt8.toNat_shiftLeft, hx, hy, ← hor]
  change h <<< 4 % 256 ||| l = _
  rw [Nat.shiftLeft_eq]
  exact congrArg (· ||| l) hmod

theorem percentEscape_spec (c : UInt8) :
    ∃ x y, percentEscape c = [byte '%', x, y] ∧ x ∈ hexdigits ∧ y ∈ hexdigits ∧
      isxdigit x = true ∧ isxdigit y = true ∧ xdigitByte x y = c ∧
      charIsUnreserved x = true ∧ charIsUnreserved y = true := by
  have hc := c.toNat_lt
  obtain ⟨hx, hxd, hxv, hxu⟩ := hexdigit_spec (d := c.toNat / 16) (by omega)
  obtain ⟨hy, hyd, hyv, hyu⟩ := hexdigit_spec (d := c.toNat % 16) (by omega)
  refine ⟨_, _, ?_, hx, hy, hxd, hyd, ?_, hxu, hyu⟩
  · rw [percentEscape, high_digit, low_digit]
  · apply UInt8.toNat_inj.mp
    rw [xdigitByte_toNat (by omega) (by omega) hxv hyv]
    omega

/-- `XDIGIT_CHARS` has the digits' values. -/
theorem xdigitChars_eq {x : UInt8} (h : isxdigit x = true) :
    (xdigitChars.getD x.toNat 0).toNat = digitValue x ∧ digitValue x < 16 := by
  have hall : ∀ b : UInt8, isxdigit b = true →
      (xdigitChars.getD b.toNat 0).toNat = digitValue b ∧ digitValue b < 16 :=
    forall_byte (by decide +kernel)
  exact hall x h

/-- The bytes with a meaning of their own are not marked. -/
theorem special_reserved :
    charIsUnreserved (byte '%') = false ∧ charIsUnreserved (byte '+') = false ∧
      charIsUnreserved (byte ' ') = false := by
  decide

end Tables

section RoundTrip
variable (f : Bool)

/-- A byte that is neither of the two is copied, whatever follows. -/
theorem decoded_plain {c : UInt8} (hplus : ¬(c = byte '+' ∧ f = true)) (hescape : c ≠ byte '%')
    (t : Text) : decoded f (c :: t) = c :: decoded f t := by
  cases t with
  | nil => simp [decoded, hplus]
  | cons x t =>
    cases t with
    | nil => simp [decoded, hplus]
    | cons y t => simp [decoded, hplus, hescape]

theorem decoded_plus (t : Text) : decoded true (byte '+' :: t) = byte ' ' :: decoded true t := by
  cases t with
  | nil => simp [decoded]
  | cons x t =>
    cases t with
    | nil => simp [decoded]
    | cons y t => simp [decoded]

theorem decoded_encodeByte (c : UInt8) (t : Text) :
    decoded f (encodeByte f c ++ t) = c :: decoded f t := by
  unfold encodeByte
  split
  · rename_i hc
    apply decoded_plain
    · intro h
      rw [h.1, special_reserved.2.1] at hc
      cases hc
    · intro h
      rw [h, special_reserved.1] at hc
      cases hc
  · split
    · rename_i hspace
      obtain ⟨rfl, rfl⟩ := hspace
      exact decoded_plus t
    · obtain ⟨x, y, hescape, _, _, hx, hy, hbyte, _⟩ := percentEscape_spec c
      have hne : byte '%' ≠ byte '+' := by decide
      rw [hescape, List.cons_append, List.cons_append, List.cons_append, List.nil_append, decoded,
        if_neg (fun h => hne h.1), if_pos ⟨rfl, hx, hy⟩, hbyte]

theorem decoded_encode (s : Text) : decoded f (s.flatMap (encodeByte f)) = s := by
  induction s with
  | nil => rfl
  | cons c s ih => rw [List.flatMap_cons, decoded_encodeByte, ih]

end RoundTrip

/-- The decoder of the parameters is this one with its default. -/
theorem urlDecode_params (s : Text) : HxSylar.urlDecode s = urlDecode s true := by
  rw [urlDecode_eq]
  fun_induction decoded true s with
  | case1 => rfl
  | case2 c x y rest hplus ih => rw [HxSylar.urlDecode, if_pos hplus.1, ih]
  | case3 c x y rest hplus hescape ih =>
    obtain ⟨hx, hxlt⟩ := xdigitChars_eq hescape.2.1
    obtain ⟨hy, hylt⟩ := xdigitChars_eq hescape.2.2
    have hbyte : UInt8.ofNat (16 * digitValue x + digitValue y) = xdigitByte x y := by
      rw [← xdigitByte_toNat hxlt hylt hx hy, UInt8.ofNat_toNat]
    rw [HxSylar.urlDecode, if_neg (fun h => hplus ⟨h, rfl⟩), if_pos hescape, hbyte, ih]
  | case4 c x y rest hplus hescape ih =>
    rw [HxSylar.urlDecode, if_neg (fun h => hplus ⟨h, rfl⟩), if_neg hescape, ih]
  | case5 c rest hrest ih =>
    rw [HxSylar.urlDecode, ih]
    · simp
    · exact hrest

section Alphabet
variable {f : Bool}

/-- What may follow: after a `%` two digits of `hexdigits`. -/
def Escaped (t : Text) : Prop :=
  ∀ i, t[i]? = some (byte '%') →
    ∃ x ∈ hexdigits, ∃ y ∈ hexdigits, t[i + 1]? = some x ∧ t[i + 2]? = some y

theorem Escaped.cons {c : UInt8} {t : Text} (hc : c ≠ byte '%') (h : Escaped t) : Escaped (c :: t) := by
  intro i hi
  cases i with
  | zero =>
    rw [List.getElem?_cons_zero] at hi
    exact absurd (Option.some.inj hi) hc
  | succ i => simpa using h i (by simpa using hi)

theorem encodeByte_mem {c b : UInt8} (h : b ∈ encodeByte f c) :
    charIsUnreserved b = true ∨ b = byte '%' ∨ f = true ∧ b = byte '+' := by
  unfold encodeByte at h
  split at h
  · rename_i hc
    rw [List.mem_singleton] at h
    exact Or.inl (h ▸ hc)
  · split at h
    · rename_i hspace
      rw [List.mem_singleton] at h
      exact Or.inr (Or.inr ⟨hspace.2, h⟩)
    · obtain ⟨x, y, hescape, _, _, _, _, _, hx, hy⟩ := percentEscape_spec c
      rw [hescape] at h
      simp only [List.mem_cons, List.not_mem_nil, or_false] at h
      obtain rfl | rfl | rfl := h
      · exact Or.inr (Or.inl rfl)
      · exact Or.inl hx
      · exact Or.inl hy

theorem escaped_encode (s : Text) : Escaped (s.flatMap (encodeByte f)) := by
  induction s with
  | nil =>
    intro i hi
    simp at hi
  | cons c s ih =>
    have hmarked : ∀ b, charIsUnreserved b = true → b ≠ byte '%' := by
      intro b hb heq
      rw [heq, special_reserved.1] at hb
      cases hb
    rw [List.flatMap_cons, encodeByte]
    split
    · rename_i hc
      exact ih.cons (hmarked c hc)
    · split
      · exact ih.cons (by decide)
      · obtain ⟨x, y, hescape, hx, hy, _, _, _, hxu, hyu⟩ := percentEscape_spec c
        rw [hescape]
        intro i hi
        cases i with
        | zero => exact ⟨x, hx, y, hy, rfl, rfl⟩
        | succ i =>
          have htail := (ih.cons (hmarked y hyu)).cons (hmarked x hxu)
          exact htail i hi

theorem length_encodeByte (c : UInt8) : 1 ≤ (encodeByte f c).length := by
  unfold encodeByte
  split
  · exact Nat.le_refl 1
  · split
    · exact Nat.le_refl 1
    · exact Nat.le_add_left 1 2

theorem length_encode (s : Text) : s.length ≤ (s.flatMap (encodeByte f)).length := by
  induction s with
  | nil => exact Nat.zero_le _
  | cons c s ih =>
    have hc := length_encodeByte (f := f) c
    rw [List.flatMap_cons, List.length_append, List.length_cons]
    omega

/-- Only marked bytes stay as they are: a `+` for a blank is another byte, and an escape that
starts with its own byte makes the text longer. -/
theorem encode_same_iff (s : Text) :
    s.flatMap (encodeByte f) = s ↔ ∀ c ∈ s, charIsUnreserved c = true := by
  induction s with
  | nil => simp
  | cons c s ih =>
    rw [List.flatMap_cons, List.forall_mem_cons, ← ih]
    unfold encodeByte
    split
    · rename_i hc
      simp [hc]
    · rename_i hc
      constructor
      · intro heq
        exfalso
        split at heq
        · rename_i hspace
          have hhead : byte '+' = c := (List.cons.inj heq).1
          rw [hspace.1] at hhead
          exact absurd hhead (by decide)
        · obtain ⟨x, y, hescape, _⟩ := percentEscape_spec c
          have hlength := congrArg List.length heq
          have hle := length_encode (f := f) s
          unfold encodeByte at hle
          rw [hescape, List.length_append, List.length_cons] at hlength
          simp only [List.length_cons] at hlength
          omega
      · intro h
        exact absurd h.1 hc

end Alphabet

/-- What is encoded is decoded again, uses only the bytes of the alphabet and whole escapes, and is
the text itself where every byte of it is marked. -/
theorem urlDecode_urlEncode (s : Text) (f : Bool) :
    urlDecode (urlEncode s f) f = s ∧
      (∀ b ∈ urlEncode s f,
        charIsUnreserved b = true ∨ b = byte '%' ∨ f = true ∧ b = byte '+') ∧
      (∀ i, (urlEncode s f)[i]? = some (byte '%') →
        ∃ x ∈ hexdigits, ∃ y ∈ hexdigits,
          (urlEncode s f)[i + 1]? = some x ∧ (urlEncode s f)[i + 2]? = some y) ∧
      (urlEncode s f = s ↔ ∀ c ∈ s, charIsUnreserved c = true) := by
  rw [urlDecode_eq, urlEncode_eq]
  refine ⟨decoded_encode f s, ?_, escaped_encode s, encode_same_iff s⟩
  intro b hb
  obtain ⟨c, _, hc⟩ := List.mem_flatMap.mp hb
  exact encodeByte_mem hc

end HxSylar.StringUtil
