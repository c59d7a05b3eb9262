import HxSylar.Proofs.FailedReads

namespace HxSylar.ByteArray
open Lib

/-- The string formats whose length prefix is narrower than `size_t`. -/
inductive Narrow
  | f16 | f32
  deriving DecidableEq, Repr

namespace Narrow

def format : Narrow → Format
  | f16 => .f16
  | f32 => .f32

/-- The bytes of the prefix. -/
def width : Narrow → Nat
  | f16 => 2
  | f32 => 4

/-- The read of the prefix alone. -/
def readLength (host : Endian) : Narrow → Op Nat
  | f16 => do return (← readFuint16 host).toNat
  | f32 => do return (← readFuint32 host).toNat

theorem width_ne_zero (f : Narrow) : f.width ≠ 0 := by
  cases f <;> simp [width]

end Narrow

/-- A string written at the position, then `more`: read from its start, the prefix is the number of
bytes that follow it, the string comes back, and the reader stands where `more` begins. -/
def Framed (host : Endian) (garbage : Garbage) (f : Narrow) (value : CppString) (more : List UInt8)
    (b : ByteArray) : Prop :=
  ∃ b₁ b₂ b₃ b₄ b₅, f.format.write host garbage value b = .ok () b₁ ∧
    write garbage more b₁ = .ok () b₂ ∧ setPosition b.position b₂ = .ok () b₃ ∧
    f.readLength host b₃ = .ok value.1.length b₄ ∧
    f.format.read host b₃ = .ok value.1 b₅ ∧ b₅.position = b₁.position ∧ more <+: b₅.unread

section Writes
variable {base : Nat} {b b₁ : ByteArray}

/-- The length that the prefix has room for. -/
def Narrow.shown (f : Narrow) (value : CppString) : Nat := value.1.length % 256 ^ f.width

def Narrow.lengthBytes (f : Narrow) (value : CppString) : List UInt8 :=
  (leBytes f.width (f.shown value)).reverse

theorem Narrow.lengthBytes_length (f : Narrow) (value : CppString) :
    (f.lengthBytes value).length = f.width := by
  rw [lengthBytes, List.length_reverse, leBytes_length]

theorem writes_narrow (hb : 1 ≤ base) (host : Endian) (garbage : Garbage) (f : Narrow)
    (value : CppString) :
    Writes base (f.format.write host garbage value) (f.lengthBytes value ++ value.1) := by
  cases f with
  | f16 => exact (writes_writeFixed hb host garbage 2 _).seq (writes_write hb garbage value.1)
  | f32 => exact (writes_writeFixed hb host garbage 4 _).seq (writes_write hb garbage value.1)

/-- Back at the start of what was written, it is the first to be read. -/
theorem Written.remaining (hb : 1 ≤ base) (h : Rep base b) (hend : b.endian = .big)
    {data : List UInt8} (hw : Written base b data b₁) :
    ∃ b', setPosition b.position b₁ = .ok () b' ∧ b'.position = b.position ∧
      Remaining base b₁.capacity b₁.size (data ++ b.contents.drop (b.position + data.length)) b' := by
  have hp := h.position_le
  have hsize := hw.size_eq
  have hin : b.position ≤ b₁.size := by omega
  have hcap := Nat.le_trans hin hw.rep.size_le
  refine ⟨b₁.moveTo b.position, setPosition_eq hb hw.rep hcap, rfl, hw.rep.moveTo hb hcap,
    hw.endian_eq.trans hend, rfl, ?_, ?_⟩
  · rw [moveTo_of_le hin]
  · rw [moveTo_of_le hin]
    have hc := hw.contents_eq
    simp only [unread, contents, flat] at hc ⊢
    rw [hc, splice, List.append_assoc, List.drop_left']
    rw [List.length_take, ← flat, ← contents, h.contents_length]
    omega

end Writes

section Framing
variable {base : Nat} {host : Endian} {b : ByteArray} {f : Narrow} {value : CppString}

theorem Narrow.shown_lt (f : Narrow) (value : CppString) : f.shown value < 256 ^ f.width :=
  Nat.mod_lt _ (Nat.pow_pos (by decide))

theorem Narrow.shown_eq_iff : f.shown value = value.1.length ↔ value.1.length < 256 ^ f.width := by
  constructor
  · intro h
    rw [← h]
    exact f.shown_lt value
  · exact Nat.mod_eq_of_lt

/-- The prefix is read as what it has room for, and then so many bytes. -/
theorem read_narrow_length (host : Endian) (hb : 1 ≤ base) {capacity size : Nat} {rest : List UInt8}
    (h : Remaining base capacity size (f.lengthBytes value ++ rest) b) :
    ∃ b', f.readLength host b = .ok (f.shown value) b' ∧
      f.format.read host b = readBuff (f.shown value) b' ∧
      Remaining base capacity size rest b' := by
  have hlt := f.shown_lt value
  have hfixed := consumes_readFixed hb host f.width_ne_zero hlt
  cases f with
  | f16 =>
    obtain ⟨b', he, h'⟩ := (hfixed.return UInt16.ofNat) capacity size rest b h
    have he : readFuint16 host b = .ok (UInt16.ofNat (Narrow.f16.shown value)) b' := he
    have hlen := UInt16.toNat_ofNat_of_lt' hlt
    refine ⟨b', ?_, ?_, h'⟩
    · rw [Narrow.readLength, Lib.Effect.bind_ok he, hlen]
      rfl
    · rw [Narrow.format, Format.read, readStringF16, Lib.Effect.bind_ok he, hlen]
  | f32 =>
    obtain ⟨b', he, h'⟩ := (hfixed.return UInt32.ofNat) capacity size rest b h
    have he : readFuint32 host b = .ok (UInt32.ofNat (Narrow.f32.shown value)) b' := he
    have hlen := UInt32.toNat_ofNat_of_lt' hlt
    refine ⟨b', ?_, ?_, h'⟩
    · rw [Narrow.readLength, Lib.Effect.bind_ok he, hlen]
      rfl
    · rw [Narrow.format, Format.read, readStringF32, Lib.Effect.bind_ok he, hlen]

/-- How the calls of `Framed` go: everything up to the read of the payload returns. -/
theorem framed_run (host : Endian) (hb : 1 ≤ base) (h : Rep base b) (hend : b.endian = .big) (garbage : Garbage)
    (f : Narrow) (value : CppString) (more : List UInt8) :
    ∃ b₁ b₂ b₃ b₄, f.format.write host garbage value b = .ok () b₁ ∧
      write garbage more b₁ = .ok () b₂ ∧ setPosition b.position b₂ = .ok () b₃ ∧
      f.readLength host b₃ = .ok (f.shown value) b₄ ∧
      f.format.read host b₃ = readBuff (f.shown value) b₄ ∧
      b₁.position = b.position + f.width + value.1.length ∧
      b₄.position = b.position + f.width ∧
      Written base b (f.lengthBytes value ++ value.1 ++ more) b₂ ∧ b.capacity ≤ b₂.capacity ∧
      Remaining base b₂.capacity b₂.size (value.1 ++ (more ++
        b.contents.drop (b.position + (f.lengthBytes value ++ value.1 ++ more).length))) b₄ := by
  obtain ⟨b₁, he₁, h₁, hcap₁⟩ := writes_narrow hb host garbage f value b h hend
  obtain ⟨b₂, he₂, h₂, hcap₂⟩ := writes_write hb garbage more b₁ h₁.rep (h₁.endian_eq.trans hend)
  have hall := h₁.append h h₂
  obtain ⟨b₃, he₃, hpos₃, hrem₃⟩ := hall.remaining hb h hend
  have hadd₃ := hrem₃.position_add
  refine ⟨b₁, b₂, b₃, ?_⟩
  generalize b.contents.drop (b.position + (f.lengthBytes value ++ value.1 ++ more).length) = tail
    at hrem₃ hadd₃ ⊢
  simp only [List.append_assoc] at hrem₃
  obtain ⟨b₄, hlength, hread, hrem₄⟩ := read_narrow_length host hb hrem₃
  have hadd₄ := hrem₄.position_add
  have hwidth := f.lengthBytes_length value
  have hpos₁ := h₁.position_eq
  rw [List.length_append, hwidth] at hpos₁
  simp only [List.length_append] at hadd₃ hadd₄
  exact ⟨b₄, he₁, he₂, he₃, hlength, hread, by omega, by omega, hall, Nat.le_trans hcap₁ hcap₂, hrem₄⟩

/-- Where the empty string is written with its prefix up to the end of the last node. -/
def EmptyAtBorder (base : Nat) (f : Narrow) (value : CppString) (b : ByteArray) : Prop :=
  value.1 = [] ∧ base ∣ b.position + f.width ∧ b.capacity ≤ b.position + f.width

theorem Framed.fits (hb : 1 ≤ base) (h : Rep base b) (hend : b.endian = .big) {garbage : Garbage}
    {more : List UInt8} (hf : Framed host garbage f value more b) :
    value.1.length < 256 ^ f.width := by
  obtain ⟨b₁, b₂, b₃, b₄, he₁, he₂, he₃, hlength, -⟩ :=
    framed_run host hb h hend garbage f value more
  obtain ⟨c₁, c₂, c₃, c₄, c₅, hc₁, hc₂, hc₃, hdecoded, -⟩ := hf
  cases he₁.symm.trans hc₁
  cases he₂.symm.trans hc₂
  cases he₃.symm.trans hc₃
  injection hlength.symm.trans hdecoded with hshown
  exact Narrow.shown_eq_iff.mp hshown

/-- An empty string whose prefix ends at the end of the last node is not read back: a null node is
dereferenced. -/
theorem Framed.not_at_border (hb : 1 ≤ base) (h : Rep base b) (hend : b.endian = .big)
    {garbage : Garbage} (hf : Framed host garbage f value [] b) : ¬EmptyAtBorder base f value b := by
  rintro ⟨hempty, hborder, hcap⟩
  obtain ⟨b₁, b₂, b₃, b₄, he₁, he₂, he₃, -, hread, -, hpos, hall, hmono, hrem⟩ :=
    framed_run host hb h hend garbage f value []
  obtain ⟨c₁, c₂, c₃, c₄, c₅, hc₁, hc₂, hc₃, -, hback, -⟩ := hf
  cases he₁.symm.trans hc₁
  cases he₂.symm.trans hc₂
  cases he₃.symm.trans hc₃
  have hshown : f.shown value = 0 := by
    rw [Narrow.shown, hempty]
    exact Nat.zero_mod _
  have hend₂ : b₂.position = b.position + f.width := by
    rw [hall.position_eq, hempty]
    simp [f.lengthBytes_length]
  -- both are multiples of the node size, less than a node apart
  have hfull : b₂.capacity = b.position + f.width := by
    have hle := Nat.le_trans hall.rep.position_le hall.rep.size_le
    have hwhole : base ∣ b₂.capacity := ⟨_, hall.rep.capacity_eq⟩
    have hnear : b₂.capacity < b.position + f.width + base := by
      have hlen := hall.position_eq
      rcases hall.no_more with hc | hc
      · omega
      · omega
    have hz := Nat.eq_zero_of_dvd_of_lt (Nat.dvd_sub hwhole hborder) (by omega)
    omega
  rw [hread, hshown, readBuff, if_neg (Nat.not_lt_zero _),
    read_null hrem.rep (Nat.zero_le _) (by rw [hrem.capacity_eq, hfull, hpos])] at hback
  cases hback

/-- A string that the prefix has room for comes back, and what was written after it is next. -/
theorem framed_of_fits (hb : 1 ≤ base) (h : Rep base b) (hend : b.endian = .big) (garbage : Garbage)
    (more : List UInt8) (hfits : value.1.length < 256 ^ f.width)
    (hborder : ¬EmptyAtBorder base f value b) : Framed host garbage f value more b := by
  obtain ⟨b₁, b₂, b₃, b₄, he₁, he₂, he₃, hlength, hread, hpos₁, hpos₄, hall, hmono, hrem⟩ :=
    framed_run host hb h hend garbage f value more
  rw [Narrow.shown_eq_iff.mpr hfits] at hlength hread
  have hadd := hrem.position_add
  have hin : value.1 ++ (more ++ b.contents.drop
      (b.position + (f.lengthBytes value ++ value.1 ++ more).length)) ≠ [] ∨
      b₂.size ≠ b₂.capacity := by
    by_contra hnot
    obtain ⟨hnil, hfull⟩ := not_or.mp hnot
    rw [not_not] at hnil hfull
    rw [hnil, List.length_nil] at hadd
    have hempty : value.1 = [] := (List.append_eq_nil_iff.mp hnil).1
    refine hborder ⟨hempty, ?_, ?_⟩
    · rw [← hpos₄, ← Nat.add_zero b₄.position, hadd, hfull]
      exact ⟨_, hall.rep.capacity_eq⟩
    · omega
  obtain ⟨b₅, he₅, hrem₅⟩ := hrem.read hb hin
  have hadd₅ := hrem₅.position_add
  refine ⟨b₁, b₂, b₃, b₄, b₅, he₁, he₂, he₃, hlength, ?_, ?_, ?_⟩
  · rw [hread, readBuff_eq, he₅]
  · rw [List.length_append] at hadd
    omega
  · rw [hrem₅.unread_eq]
    exact List.prefix_append _ _

/-- The prefix is right exactly for the strings it has room for. The empty string needs a node
behind its prefix to be read back at all. -/
theorem framed_iff (hb : 1 ≤ base) (hr : (machine host base).Reachable b) (garbage : Garbage)
    (f : Narrow) (value : CppString) :
    (∀ more, Framed host garbage f value more b) ↔
      value.1.length < 256 ^ f.width ∧ ¬EmptyAtBorder base f value b := by
  have h := rep_reachable hb hr
  have hend := big_reachable hr
  constructor
  · intro hall
    exact ⟨(hall []).fits hb h hend, (hall []).not_at_border hb h hend⟩
  · intro hcond more
    exact framed_of_fits hb h hend garbage more hcond.1 hcond.2

/-- Three bytes in a fresh array. -/
theorem framed_three :
    ∃ b, (machine .little 4).Reachable b ∧
      ∀ more, Framed .little (fun _ _ => 0) .f16 ⟨[1, 2, 3], by decide⟩ more b := by
  have hr : (machine .little 4).Reachable (create 4 (fun _ _ => 0)) := .start ⟨_, rfl⟩
  refine ⟨_, hr, (framed_iff (by decide) hr _ _ _).mpr ⟨by decide, ?_⟩⟩
  intro hborder
  exact absurd hborder.1 (List.cons_ne_nil _ _)

/-- A string of 65536 bytes announces none. -/
theorem long_string_not_framed :
    ∃ value : CppString, value.1.length = 65536 ∧
      ¬Framed .little (fun _ _ => 0) .f16 value [] (create 4096 (fun _ _ => 0)) := by
  have hmax : (List.replicate 65536 (0 : UInt8)).length ≤ maxSize := by
    rw [List.length_replicate]
    decide
  refine ⟨⟨_, hmax⟩, List.length_replicate, ?_⟩
  intro hf
  have hfits := hf.fits (by decide) (rep_create (by decide) _) rfl
  rw [List.length_replicate] at hfits
  exact absurd hfits (by decide)

end Framing
end HxSylar.ByteArray
