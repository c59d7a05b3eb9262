import HxSylar.Lib.Relational
import HxSylar.Proofs.ByteArrayFile
import HxSylar.Proofs.ByteArrayHex
import HxSylar.Proofs.Scatter

namespace HxSylar.ByteArray
open Lib (splice)
open Lib.Effect (Agree Alike agree_pure agree_throw agree_get)

/-- Two arrays that hold the same, in nodes of any two sizes. -/
structure Same (base base' : Nat) (b b' : ByteArray) : Prop where
  rep : Rep base b
  rep' : Rep base' b'
  contents : b.contents = b'.contents
  position : b.position = b'.position
  big : b.endian = .big
  big' : b'.endian = .big

/-- On arrays that hold the same, `x` and `y` answer alike, unless one of them dereferences a null
pointer. -/
abbrev Agrees (base base' : Nat) {α : Type} (x y : Op α) : Prop :=
  Agree (Same base base') (· = .nullNode) x y

section Same
variable {base base' : Nat} {b b' : ByteArray}

theorem Same.size (h : Same base base' b b') : b.size = b'.size := by
  rw [← h.rep.contents_length, h.contents, h.rep'.contents_length]

theorem Same.unread (h : Same base base' b b') : b.unread = b'.unread := by
  rw [ByteArray.unread, ByteArray.unread, h.contents, h.position]

theorem Same.getReadSize (h : Same base base' b b') : b.getReadSize = b'.getReadSize := by
  rw [h.rep.getReadSize_eq, h.rep'.getReadSize_eq, h.size, h.position]

/-- The same bytes written at the same position leave the same. -/
theorem Same.written (h : Same base base' b b') {data : List UInt8} {c c' : ByteArray}
    (hc : Written base b data c) (hc' : Written base' b' data c') : Same base base' c c' where
  rep := hc.rep
  rep' := hc'.rep
  contents := by rw [hc.contents_eq, hc'.contents_eq, h.contents, h.position]
  position := by rw [hc.position_eq, hc'.position_eq, h.position]
  big := hc.endian_eq.trans h.big
  big' := hc'.endian_eq.trans h.big'

/-- Going to the same place below the size leaves the same. -/
theorem Same.moveTo (hb : 1 ≤ base) (hb' : 1 ≤ base') (h : Same base base' b b') {pos : Nat}
    (hpos : pos ≤ b.size) : Same base base' (b.moveTo pos) (b'.moveTo pos) where
  rep := h.rep.moveTo hb (Nat.le_trans hpos h.rep.size_le)
  rep' := h.rep'.moveTo hb' (Nat.le_trans (h.size ▸ hpos) h.rep'.size_le)
  contents := by
    rw [moveTo_of_le hpos, moveTo_of_le (h.size ▸ hpos)]
    exact h.contents
  position := rfl
  big := h.big
  big' := h.big'

theorem agrees_writes {x y : Op Unit} {data : List UInt8} (hx : Writes base x data)
    (hy : Writes base' y data) : Agrees base base' x y := by
  intro b b' h
  obtain ⟨c, hc, hwritten, -⟩ := hx b h.rep h.big
  obtain ⟨c', hc', hwritten', -⟩ := hy b' h.rep' h.big'
  rw [hc, hc']
  exact ⟨rfl, h.written hwritten hwritten'⟩

theorem agrees_write (hb : 1 ≤ base) (hb' : 1 ≤ base') (garbage garbage' : Garbage)
    (data : List UInt8) : Agrees base base' (write garbage data) (write garbage' data) :=
  agrees_writes (writes_write hb garbage data) (writes_write hb' garbage' data)

theorem agrees_read (hb : 1 ≤ base) (hb' : 1 ≤ base') (size : Nat) :
    Agrees base base' (read size) (read size) := by
  intro b b' h
  have hread := h.getReadSize
  by_cases hs : b.getReadSize < size
  · rw [read_out_of_range hs, read_out_of_range (hread ▸ hs)]
    exact .inr (.inr ⟨rfl, h⟩)
  have hs' : size ≤ b'.getReadSize := hread ▸ Nat.le_of_not_lt hs
  by_cases hc : b.position = b.capacity
  · rw [read_null h.rep (Nat.le_of_not_lt hs) hc]
    cases read size b' with
    | ok _ _ => rfl
    | error _ _ => exact .inl rfl
  by_cases hc' : b'.position = b'.capacity
  · rw [read_null h.rep' hs' hc']
    cases read size b with
    | ok _ _ => rfl
    | error _ _ => exact .inr (.inl rfl)
  have hpos : b.position + size ≤ b.size := by
    have hsize := h.rep.getReadSize_eq
    have hle := h.rep.position_le
    omega
  rw [read_eq hb h.rep (Nat.le_of_not_lt hs) hc, read_eq hb' h.rep' hs' hc']
  refine ⟨by rw [h.unread], ?_⟩
  rw [← h.position]
  exact h.moveTo hb hb' hpos

theorem agrees_clear (hb : 1 ≤ base) (hb' : 1 ≤ base') : Agrees base base' clear clear := by
  intro b b' h
  exact ⟨rfl, sound_clear hb b h.rep, sound_clear hb' b' h.rep', rfl, rfl, h.big, h.big'⟩

theorem agrees_setIsLittleEndian (val : Bool) :
    Agrees base base' (setIsLittleEndian val) (setIsLittleEndian val) := by
  intro b b' h
  have hrep := sound_setIsLittleEndian val b h.rep
  have hrep' := sound_setIsLittleEndian val b' h.rep'
  cases val <;> exact ⟨rfl, hrep, hrep', h.contents, h.position, rfl, rfl⟩

theorem agrees_toString (hb : 1 ≤ base) (hb' : 1 ≤ base') :
    Agrees base base' toString toString := by
  intro b b' h
  rw [toString_eq hb h.rep, toString_eq hb' h.rep']
  exact ⟨h.unread, h⟩

theorem agrees_toHexString (hb : 1 ≤ base) (hb' : 1 ≤ base') :
    Agrees base base' toHexString toHexString := by
  intro b b' h
  rw [toHexString_eq hb h.rep, toHexString_eq hb' h.rep', h.unread]
  exact ⟨rfl, h⟩

theorem agrees_readFixed (hb : 1 ≤ base) (hb' : 1 ≤ base') (host : Endian) (n : Nat) :
    Agrees base base' (readFixed host n) (readFixed host n) := by
  apply Agree.bind (agrees_read hb hb' n)
  intro data
  apply agree_get
  intro b b' h
  rw [h.big, h.big']
  exact Agree.ite (agree_pure _) (agree_pure _)

theorem agrees_readVarint (hb : 1 ≤ base) (hb' : 1 ≤ base') (w i result : Nat) :
    Agrees base base' (readVarint w i result) (readVarint w i result) := by
  induction i, result using readVarint.induct w with
  | case1 i result hi ih =>
    rw [readVarint, if_pos hi]
    apply Agree.bind ((agrees_read hb hb' 1).return _)
    intro x
    exact Agree.ite (agree_pure _) (ih x)
  | case2 i result hi =>
    rw [readVarint, if_neg hi]
    exact agree_pure _

theorem agrees_number_read (hb : 1 ≤ base) (hb' : 1 ≤ base') (host : Endian) (n : Number) :
    Agrees base base' (n.read host) (n.read host) := by
  cases n with
  | fint8 | fuint8 => exact (agrees_read hb hb' 1).return _
  | uint32 | uint64 => exact (agrees_readVarint hb hb' _ 0 0).return _
  | int32 | int64 => exact ((agrees_readVarint hb hb' _ 0 0).return _).return _
  | _ => exact (agrees_readFixed hb hb' host _).return _

theorem agrees_format_read (hb : 1 ≤ base) (hb' : 1 ≤ base') (host : Endian) (f : Format) :
    Agrees base base' (f.read host) (f.read host) := by
  have hbuff : ∀ len, Agrees base base' (readBuff len) (readBuff len) := fun len =>
    Agree.ite (agree_throw _) (agrees_read hb hb' len)
  cases f with
  | vint => exact ((agrees_readVarint hb hb' _ 0 0).return _).bind (fun _ => hbuff _)
  | _ => exact ((agrees_readFixed hb hb' host _).return _).bind (fun _ => hbuff _)

variable (garbage garbage' : Garbage)

theorem agrees_writeFixed (hb : 1 ≤ base) (hb' : 1 ≤ base') (host : Endian) (n v : Nat) :
    Agrees base base' (writeFixed host garbage n v) (writeFixed host garbage' n v) :=
  agrees_writes (writes_writeFixed hb host garbage n v) (writes_writeFixed hb' host garbage' n v)

theorem agrees_number_write (hb : 1 ≤ base) (hb' : 1 ≤ base') (host : Endian) (n : Number)
    (value : n.type) :
    Agrees base base' (n.write host garbage value) (n.write host garbage' value) := by
  cases n with
  | fint8 => exact agrees_write hb hb' garbage garbage' [Int8.toUInt8 value]
  | fuint8 => exact agrees_write hb hb' garbage garbage' [value]
  | int32 | uint32 | int64 | uint64 => exact agrees_write hb hb' garbage garbage' _
  | _ => exact agrees_writeFixed garbage garbage' hb hb' host _ _

theorem agrees_format_write (hb : 1 ≤ base) (hb' : 1 ≤ base') (host : Endian) (f : Format)
    (value : CppString) :
    Agrees base base' (f.write host garbage value) (f.write host garbage' value) := by
  cases f with
  | vint => exact (agrees_write hb hb' _ _ _).bind (fun _ => agrees_write hb hb' _ _ _)
  | _ =>
    exact (agrees_writeFixed _ _ hb hb' host _ _).bind (fun _ => agrees_write hb hb' _ _ _)

/-- A file is read in blocks of the node size, and is there the same. -/
theorem writes_writeBlocks (hb : 1 ≤ base) (blocks : List (List UInt8)) :
    Writes base (writeBlocks garbage blocks) blocks.flatten := by
  induction blocks with
  | nil =>
    intro b h _
    exact ⟨b, rfl, ⟨h, rfl, (Nat.max_eq_left h.position_le).symm, (Lib.splice_nil _ _).symm, rfl,
      .inl rfl⟩, Nat.le_refl _⟩
  | cons block blocks ih => exact (writes_write hb garbage block).seq ih

theorem agrees_readFromFile (hb : 1 ≤ base) (hb' : 1 ≤ base') (file : List UInt8) :
    Agrees base base' (readFromFile garbage file) (readFromFile garbage' file) := by
  apply agree_get
  intro b b' h
  have hblocks := writes_writeBlocks garbage hb (fileBlocks b.baseSize file)
  have hblocks' := writes_writeBlocks garbage' hb' (fileBlocks b'.baseSize file)
  rw [fileBlocks_flatten] at hblocks hblocks'
  exact agrees_writes hblocks hblocks'

end Same

/-- What a caller learns from a call; the bytes behind the buffers of `getReadBuffers` are those
that a `send` would find there. -/
inductive Answer
  | done
  | bytes (data : List UInt8)
  | text (t : Lib.Text)
  | number (value : Value)
  | double (value : UInt64)
  | gathered (len : Nat) (data : List UInt8)

/-- A call whose answer does not lie in the nodes themselves. `receive` takes buffers for `len` bytes,
has them filled and moves the position on, as the streams do. -/
inductive Command
  | write (data : List UInt8)
  | read (size : Nat)
  | writeNumber (value : Value)
  | readNumber (n : Number)
  | readDouble
  | writeString (f : Format) (value : CppString)
  | writeStringWithoutLength (value : CppString)
  | readString (f : Format)
  | setPosition (val : Nat)
  | setIsLittleEndian (val : Bool)
  | clear
  | toString
  | toHexString
  | getReadBuffers (len : Nat)
  | receive (len : Nat) (data : List UInt8)
  | readFromFile (file : List UInt8)

/-- The bytes that `getReadBuffers` describes. -/
def gathered (len : Nat) : Op Answer := do
  let (len, iovs) ← getReadBuffers len
  return .gathered len (collect iovs (← get).nodes)

def receive (garbage : Garbage) (len : Nat) (data : List UInt8) : Op Unit := do
  let (_, iovs) ← getWriteBuffers garbage len
  modify (fun b => { b with nodes := fill iovs (data.take len) b.nodes })
  setPosition ((← get).position + (data.take len).length)

def Command.run (host : Endian) (garbage : Garbage) : Command → Op Answer
  | write data => do ByteArray.write garbage data; return .done
  | read size => do return .bytes (← ByteArray.read size)
  | writeNumber value => do value.1.write host garbage value.2; return .done
  | readNumber n => do return .number ⟨n, ← n.read host⟩
  | readDouble => do return .double (← ByteArray.readDouble host)
  | writeString f value => do f.write host garbage value; return .done
  | writeStringWithoutLength value => do
    ByteArray.writeStringWithoutLength garbage value
    return .done
  | readString f => do return .bytes (← f.read host)
  | setPosition val => do ByteArray.setPosition val; return .done
  | setIsLittleEndian val => do ByteArray.setIsLittleEndian val; return .done
  | clear => do ByteArray.clear; return .done
  | toString => do return .bytes (← ByteArray.toString)
  | toHexString => do return .text (← ByteArray.toHexString)
  | getReadBuffers len => gathered len
  | receive len data => do ByteArray.receive garbage len data; return .done
  | readFromFile file => do ByteArray.readFromFile garbage file; return .done

/-- The position is set to a byte that was written, or behind the last one. What lies farther on is
bounded by the nodes and not defined. -/
def Command.Defined (b : ByteArray) : Command → Prop
  | .setPosition val => val ≤ b.size
  | _ => True

section Commands
variable {base base' : Nat} {b b' : ByteArray} (garbage garbage' : Garbage)

theorem getReadBuffers_bytes (hb : 1 ≤ base) (h : Rep base b) (len : Nat) :
    ∃ iovs, getReadBuffers len b = .ok (min len b.getReadSize, iovs) b ∧
      collect iovs b.nodes = b.unread.take (min len b.getReadSize) := by
  rw [getReadBuffers_clamped]
  by_cases hz : min len b.getReadSize = 0
  · rw [hz]
    exact ⟨[], by simp [getReadBuffers], rfl⟩
  · obtain ⟨iovs, hget, -, -, hcollect⟩ :=
      getReadBuffers_spec hb h (by omega) (Nat.min_le_right len b.getReadSize)
    exact ⟨iovs, hget, hcollect⟩

theorem agrees_gathered (hb : 1 ≤ base) (hb' : 1 ≤ base') (len : Nat) :
    Agrees base base' (gathered len) (gathered len) := by
  intro b b' h
  obtain ⟨iovs, hget, hbytes⟩ := getReadBuffers_bytes hb h.rep len
  obtain ⟨iovs', hget', hbytes'⟩ := getReadBuffers_bytes hb' h.rep' len
  rw [gathered, Lib.Effect.bind_ok hget, Lib.Effect.bind_ok hget']
  refine ⟨?_, h⟩
  rw [hbytes, hbytes', h.unread, h.getReadSize]

/-- Receiving is writing. -/
theorem receive_eq (hb : 1 ≤ base) (h : Rep base b) (len : Nat) (data : List UInt8) :
    ∃ c, receive garbage len data b = .ok () c ∧ Rep base c ∧
      c.contents = splice b.position (data.take len) b.contents ∧
      c.position = b.position + (data.take len).length ∧ c.endian = b.endian := by
  by_cases hl : len = 0
  · have hget : getWriteBuffers garbage 0 b = .ok (0, []) b := rfl
    have hsize : b.position ≤ b.capacity := Nat.le_trans h.position_le h.size_le
    rw [hl, List.take_zero]
    refine ⟨b.moveTo b.position, ?_, h.moveTo hb hsize, ?_, rfl, rfl⟩
    · rw [receive, Lib.Effect.bind_ok hget]
      exact setPosition_eq hb h hsize
    · rw [moveTo_of_le h.position_le, Lib.splice_nil]
      rfl
  · obtain ⟨iovs, g, hget, hg, -, -, -, hfill⟩ := scatter_spec hb h garbage (Nat.pos_of_ne_zero hl)
    have htake : (data.take len).length ≤ len := List.length_take_le _ _
    obtain ⟨hrep, hcontents⟩ := hfill (data.take len) htake
    have hroom : g.position + (data.take len).length ≤ g.capacity := by
      have := hg.enough
      rw [hg.position_eq]
      omega
    refine ⟨_, ?_, hrep.moveTo hb hroom, hcontents, ?_, ?_⟩
    · rw [receive, Lib.Effect.bind_ok hget]
      exact setPosition_eq hb hrep hroom
    · exact congrArg (· + _) hg.position_eq
    · exact hg.endian_eq

theorem agrees_receive (hb : 1 ≤ base) (hb' : 1 ≤ base') (len : Nat) (data : List UInt8) :
    Agrees base base' (receive garbage len data) (receive garbage' len data) := by
  intro b b' h
  obtain ⟨c, hc, hrep, hcontents, hposition, hendian⟩ := receive_eq garbage hb h.rep len data
  obtain ⟨c', hc', hrep', hcontents', hposition', hendian'⟩ := receive_eq garbage' hb' h.rep' len data
  rw [hc, hc']
  refine ⟨rfl, hrep, hrep', ?_, ?_, hendian.trans h.big, hendian'.trans h.big'⟩
  · rw [hcontents, hcontents', h.contents, h.position]
  · rw [hposition, hposition', h.position]

/-- One call. -/
theorem Command.alike (hb : 1 ≤ base) (hb' : 1 ≤ base') (host : Endian) {c : Command}
    (h : Same base base' b b') (hdefined : c.Defined b) :
    Alike (Same base base') (· = .nullNode) (c.run host garbage b) (c.run host garbage' b') := by
  have hdone : ∀ {x y : Op Unit}, Alike (Same base base') (· = .nullNode) (x b) (y b') →
      Alike (Same base base') (· = .nullNode) ((do x; return Answer.done) b)
        ((do y; return Answer.done) b') := fun hxy => hxy.bind (fun _ => agree_pure _)
  cases c with
  | write data => exact hdone (agrees_write hb hb' garbage garbage' data b b' h)
  | read size => exact (agrees_read hb hb' size).return Answer.bytes b b' h
  | writeNumber value => exact hdone (agrees_number_write garbage garbage' hb hb' host _ _ b b' h)
  | readNumber n =>
    exact (agrees_number_read hb hb' host n).return (fun v => Answer.number ⟨n, v⟩) b b' h
  | readDouble => exact ((agrees_readFixed hb hb' host 8).return _).return Answer.double b b' h
  | writeString f value =>
    exact hdone (agrees_format_write garbage garbage' hb hb' host f value b b' h)
  | writeStringWithoutLength value => exact hdone (agrees_write hb hb' garbage garbage' value.1 b b' h)
  | readString f => exact (agrees_format_read hb hb' host f).return Answer.bytes b b' h
  | setPosition val =>
    have hsize : val ≤ b.size := hdefined
    apply hdone
    rw [setPosition_eq hb h.rep (Nat.le_trans hsize h.rep.size_le),
      setPosition_eq hb' h.rep' (Nat.le_trans (h.size ▸ hsize) h.rep'.size_le)]
    exact ⟨rfl, h.moveTo hb hb' hsize⟩
  | setIsLittleEndian val => exact hdone (agrees_setIsLittleEndian val b b' h)
  | clear => exact hdone (agrees_clear hb hb' b b' h)
  | toString => exact (agrees_toString hb hb').return Answer.bytes b b' h
  | toHexString => exact (agrees_toHexString hb hb').return Answer.text b b' h
  | getReadBuffers len => exact agrees_gathered hb hb' len b b' h
  | receive len data => exact hdone (agrees_receive garbage garbage' hb hb' len data b b' h)
  | readFromFile file =>
    exact hdone (agrees_readFromFile garbage garbage' hb hb' file b b' h)

end Commands

instance : DecidablePred (· = Failure.nullNode) := fun _ => inferInstance

/-- A call whose exceptions are survived; `none` is the end of the process. `garbage` is what the
memory holds that it allocates. -/
def Command.answer (host : Endian) (garbage : Garbage) (c : Command) (b : ByteArray) :
    Option (Except Failure Answer × ByteArray) :=
  Lib.Effect.survive (· = .nullNode) (c.run host garbage b)

/-- What a caller learns from calls that are made one after the other. -/
def session (host : Endian) (garbage : Nat → Garbage) :
    List Command → ByteArray → Option (List (Except Failure Answer) × ByteArray)
  | [], b => some ([], b)
  | c :: cs, b =>
    (c.answer host (garbage cs.length) b).bind (fun r =>
      (session host garbage cs r.2).map (fun rs => (r.1 :: rs.1, rs.2)))

/-- Every call of a session is defined in the state that it is made in. -/
def SessionDefined (host : Endian) (garbage : Nat → Garbage) : List Command → ByteArray → Prop
  | [], _ => True
  | c :: cs, b => c.Defined b ∧ ∀ r, c.answer host (garbage cs.length) b = some r →
    SessionDefined host garbage cs r.2

section Session
variable {base base' : Nat} {garbage garbage' : Nat → Garbage}

/-- Arrays that hold the same cannot be told apart by what a session answers. -/
theorem session_alike (hb : 1 ≤ base) (hb' : 1 ≤ base') (host : Endian) {cs : List Command}
    {b b' : ByteArray} (h : Same base base' b b') (hdefined : SessionDefined host garbage cs b)
    {r r' : List (Except Failure Answer) × ByteArray} (hr : session host garbage cs b = some r)
    (hr' : session host garbage' cs b' = some r') : r.1 = r'.1 ∧ Same base base' r.2 r'.2 := by
  induction cs generalizing b b' r r' with
  | nil =>
    cases hr
    cases hr'
    exact ⟨rfl, h⟩
  | cons c cs ih =>
    obtain ⟨hc, hnext⟩ := hdefined
    obtain ⟨a, ha, hr⟩ := Option.bind_eq_some_iff.mp hr
    obtain ⟨a', ha', hr'⟩ := Option.bind_eq_some_iff.mp hr'
    obtain ⟨rs, hrs, rfl⟩ := Option.map_eq_some_iff.mp hr
    obtain ⟨rs', hrs', rfl⟩ := Option.map_eq_some_iff.mp hr'
    obtain ⟨hanswer, hsame⟩ := (c.alike (garbage cs.length) (garbage' cs.length) hb hb' host h
      hc).survive ha ha'
    obtain ⟨hanswers, hend⟩ := ih hsame (hnext a ha) hrs hrs'
    exact ⟨by rw [hanswer, hanswers], hend⟩

/-- The size of the nodes and what fresh memory holds are not seen: two new arrays give the same
answers to the same calls, and end with the same bytes at the same position. -/
theorem session_any_node_size (hb : 1 ≤ base) (hb' : 1 ≤ base') (host : Endian)
    (fill fill' : Garbage) {cs : List Command}
    (hdefined : SessionDefined host garbage cs (create base fill))
    {r r' : List (Except Failure Answer) × ByteArray}
    (hr : session host garbage cs (create base fill) = some r)
    (hr' : session host garbage' cs (create base' fill') = some r') :
    r.1 = r'.1 ∧ r.2.contents = r'.2.contents ∧ r.2.position = r'.2.position := by
  have h : Same base base' (create base fill) (create base' fill') :=
    ⟨rep_create hb fill, rep_create hb' fill', rfl, rfl, rfl, rfl⟩
  obtain ⟨hanswers, hsame⟩ := session_alike hb hb' host h hdefined hr hr'
  exact ⟨hanswers, hsame.contents, hsame.position⟩

/-- Three bytes in nodes of one and of three bytes, read again, once too far. -/
def shortSession : List Command :=
  [.write [1, 2, 3], .setPosition 1, .readNumber .fuint8, .read 5, .toString]

theorem session_any_node_size_short :
    ∃ r r', session .big (fun _ _ _ => 0) shortSession (create 1 (fun _ _ => 0)) = some r ∧
      session .big (fun _ _ _ => 7) shortSession (create 3 (fun _ _ => 7)) = some r' ∧
      r.1 = r'.1 ∧ r.2.contents = r'.2.contents ∧ r.2.position = r'.2.position := by
  have hdefined : SessionDefined .big (fun _ _ _ => 0) shortSession (create 1 (fun _ _ => 0)) := by
    refine ⟨trivial, fun r hr => ⟨?_, fun r _ => ⟨trivial, fun r _ => ⟨trivial, fun r _ =>
      ⟨trivial, fun r _ => trivial⟩⟩⟩⟩⟩
    obtain rfl := Option.some.inj hr
    exact (by decide : 1 ≤ 3)
  obtain ⟨r, hr⟩ := Option.isSome_iff_exists.mp (by decide : (session .big (fun _ _ _ => 0)
    shortSession (create 1 (fun _ _ => 0))).isSome = true)
  obtain ⟨r', hr'⟩ := Option.isSome_iff_exists.mp (by decide : (session .big (fun _ _ _ => 7)
    shortSession (create 3 (fun _ _ => 7))).isSome = true)
  exact ⟨r, r', hr, hr',
    session_any_node_size (Nat.le_refl 1) (by decide : 1 ≤ 3) .big _ _ hdefined hr hr'⟩

end Session
end HxSylar.ByteArray
