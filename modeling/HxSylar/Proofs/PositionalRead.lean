import HxSylar.Proofs.Scatter

namespace HxSylar.ByteArray
open Lib (splice Uniform)

/-- Two states of one array that may differ in their bytes only. -/
structure SameShape (b b' : ByteArray) : Prop where
  position_eq : b'.position = b.position
  size_eq : b'.size = b.size
  capacity_eq : b'.capacity = b.capacity

section Poke
variable {base : Nat} {host : Endian} {b : ByteArray}

theorem reachable_ok (hr : (machine host base).Reachable b) {c : Call} {t : ByteArray}
    (hc : c.run host b = .ok () t) : (machine host base).Reachable t := by
  apply Lib.Machine.ReachableUnder.next (l := c) hr trivial
  simp only [machine, hc]

/-- Any byte below the size can be given any value, by moving there, writing and moving back. -/
theorem reachable_poke (hb : 1 ≤ base) (hr : (machine host base).Reachable b) {i : Nat}
    (hi : i < b.size) (x : UInt8) :
    ∃ b', (machine host base).Reachable b' ∧ SameShape b b' ∧ b'.flat = b.flat.set i x := by
  have h := rep_reachable hb hr
  have hsize := h.size_le
  have hpos := h.position_le
  have hmove := setPosition_eq hb h (show i ≤ b.capacity by omega)
  rw [moveTo_of_le (by omega)] at hmove
  have hrep := (sound_setPosition hb i).ok h hmove
  have hfit : i + [x].length ≤ b.capacity := by
    rw [List.length_singleton]
    omega
  obtain ⟨w, hwrite, hw, hcap, hflat⟩ := write_within hb hrep (fun _ _ => 0) hfit
  have hwsize : w.size = b.size := by
    rw [hw.size_eq]
    exact Nat.max_eq_left (by simp only [List.length_singleton]; omega)
  have hroom : b.position ≤ w.capacity := by
    rw [hcap]
    exact Nat.le_trans hpos hsize
  have hback := setPosition_eq hb hw.rep hroom
  rw [moveTo_of_le (by omega)] at hback
  have hr₁ := reachable_ok hr (c := .setPosition i) hmove
  have hr₂ := reachable_ok hr₁ (c := .write (fun _ _ => 0) [x]) hwrite
  have hr₃ := reachable_ok hr₂ (c := .setPosition b.position) hback
  refine ⟨_, hr₃, ⟨rfl, hwsize, hcap⟩, ?_⟩
  have hlen : i < b.flat.length := by
    rw [h.flat_length]
    omega
  have hover : w.flat = splice i [x] b.flat := hflat
  change w.flat = _
  rw [hover, splice, List.length_singleton, List.set_eq_take_append_cons_drop, if_pos hlen,
    List.append_assoc]
  rfl

end Poke

section Loop
variable {base : Nat} {ns : List Node}

/-- The loop of `read` runs off the chain when the bytes asked for do. -/
theorem copyOut_none (hu : Uniform base ns) {npos size : Nat} (hp : npos < base)
    (hfit : base * ns.length < npos + size) : copyOut npos size ns = none := by
  induction ns generalizing npos size with
  | nil => rfl
  | cons n ns ih =>
    rw [List.length_cons, Nat.mul_succ] at hfit
    have hfirst := Nat.zero_le (base * ns.length)
    simp only [copyOut, hu.head]
    rw [if_neg (by omega), if_neg (by omega), ih hu.tail (by omega) (by omega), Option.map_none]

end Loop

section ReadAt
variable {base : Nat} {b : ByteArray}

/-- Where `read(buf, size, position)` starts to copy: at the offset of `position`, in the node
that `m_position` is in. -/
def startOf (b : ByteArray) (position : Nat) : Nat :=
  b.baseSize * (b.position / b.baseSize) + position % b.baseSize

/-- What a positional read is to return; it does not depend on `m_position`. -/
def Positional (b : ByteArray) (size position : Nat) : Prop :=
  if position + size ≤ b.size then
    readAt size position b = .ok ((b.contents.drop position).take size) b
  else ∃ what, readAt size position b = .error (.outOfRange what) b

theorem readAt_null (h : Rep base b) {size position : Nat} (hs : size ≤ sizeSub b.size position)
    (hc : b.position = b.capacity) : readAt size position b = .error .nullNode b := by
  have hcur : b.cur = none := by rw [h.cur_eq, if_pos hc]
  simp only [readAt, if_neg (show ¬sizeSub b.size position < size by omega), hcur]

theorem readAt_out_of_range {size position : Nat} (hs : sizeSub b.size position < size) :
    readAt size position b = .error (.outOfRange "not enough len") b := if_pos hs

theorem startOf_eq (h : Rep base b) (position : Nat) :
    b.startOf position = base * (b.position / base) + position % base := by
  rw [startOf, h.baseSize_eq]

/-- Past the test of the size, the bytes are taken from the node of the cursor on. -/
theorem readAt_eq (hb : 1 ≤ base) (h : Rep base b) {size position : Nat}
    (hs : size ≤ sizeSub b.size position) (hc : b.position < b.capacity) :
    readAt size position b =
      if b.startOf position + size ≤ b.capacity then
        .ok ((b.flat.drop (b.startOf position)).take size) b
      else .error .nullNode b := by
  obtain ⟨hcur, hin, hdiv, -⟩ := h.cur_inside hb hc
  have hu : Uniform base b.nodes := h.node_size
  have hmod := Nat.mod_lt position hb
  have hlen : base * (b.nodes.drop (b.position / base)).length =
      b.capacity - base * (b.position / base) := by
    rw [List.length_drop, Nat.mul_sub, ← h.capacity_eq]
  simp only [readAt, if_neg (show ¬sizeSub b.size position < size by omega), hcur, h.baseSize_eq]
  rw [startOf_eq h]
  by_cases hfit : base * (b.position / base) + position % base + size ≤ b.capacity
  · have hne : b.nodes.drop (b.position / base) ≠ [] := by
      rw [ne_eq, List.drop_eq_nil_iff]
      omega
    rw [if_pos hfit, copyOut_eq hb (hu.drop _) hne hmod (by omega), hu.flatten_drop, List.drop_drop]
    rfl
  · rw [if_neg hfit, copyOut_none (hu.drop _) hmod (by omega)]

/-- The test of the size goes by a difference that wraps around. -/
theorem sizeSub_lt_iff {size position total : Nat} (hp : position < 2 ^ 64)
    (hlong : total < position + size) :
    sizeSub total position < size ↔ position ≤ total ∨ total + 2 ^ 64 < position + size := by
  unfold sizeSub
  split <;> omega

/-- The bytes below the size are those of the chain. -/
theorem contents_window (b : ByteArray) {size position : Nat} (h : position + size ≤ b.size) :
    (b.contents.drop position).take size = (b.flat.drop position).take size := by
  rw [contents, List.drop_take, List.take_take, Nat.min_eq_left (by omega)]

theorem head_window (l : List UInt8) (k : Nat) {size : Nat} (hs : size ≠ 0) :
    ((l.drop k).take size)[0]? = l[k]? := by
  rw [List.getElem?_take_of_lt (by omega), List.getElem?_drop, Nat.add_zero]

/-- When the read is in range, it is served from the node of the cursor, if that is not null
and the bytes start in it. When it is not, the test notices unless the difference wraps
around to something large enough. -/
def Served (b : ByteArray) (size position : Nat) : Prop :=
  if position + size ≤ b.size then
    b.position < b.capacity ∧ (size = 0 ∨ position / b.baseSize = b.position / b.baseSize)
  else position ≤ b.size ∨ b.size + 2 ^ 64 < position + size

theorem Served.positional (hb : 1 ≤ base) (h : Rep base b) {size position : Nat}
    (hp : position < 2 ^ 64) (hs : Served b size position) : Positional b size position := by
  unfold Served at hs
  unfold Positional
  by_cases hin : position + size ≤ b.size
  · rw [if_pos hin] at hs ⊢
    obtain ⟨hcur, hnode⟩ := hs
    have hcap := h.size_le
    have hsub : size ≤ sizeSub b.size position := by
      rw [sizeSub_of_le (by omega)]
      omega
    rw [readAt_eq hb h hsub hcur, contents_window b hin]
    rcases hnode with hz | hnode
    · subst hz
      have hmod := Nat.mod_lt position hb
      obtain ⟨-, hlt, -⟩ := h.cur_inside hb hcur
      have hroom : base * (b.position / base) + base ≤ b.capacity := by
        rw [h.capacity_eq, ← Nat.mul_succ]
        exact Nat.mul_le_mul_left base hlt
      rw [if_pos (by rw [startOf_eq h]; omega), List.take_zero, List.take_zero]
    · have hstart : b.startOf position = position := by
        rw [startOf, ← hnode, Nat.div_add_mod]
      rw [hstart, if_pos (by omega)]
  · rw [if_neg hin] at hs ⊢
    exact ⟨_, readAt_out_of_range ((sizeSub_lt_iff hp (by omega)).mpr hs)⟩

/-- Bytes from another node are the wrong ones for some contents. -/
theorem not_positional (hb : 1 ≤ base) {host : Endian} (hr : (machine host base).Reachable b)
    {size position : Nat} (hin : position + size ≤ b.size) (hcur : b.position < b.capacity)
    (hz : size ≠ 0) (hnode : position / base ≠ b.position / base) :
    ∃ b', (machine host base).Reachable b' ∧ SameShape b b' ∧ ¬Positional b' size position := by
  have h := rep_reachable hb hr
  have hsub : size ≤ sizeSub b.size position := by
    rw [sizeSub_of_le (by omega)]
    omega
  have hne : b.startOf position ≠ position := by
    intro he
    have hdiv := congrArg (· / base) he
    simp only [startOf_eq h, Nat.mul_add_div hb, Nat.div_eq_of_lt (Nat.mod_lt position hb),
      Nat.add_zero] at hdiv
    exact hnode hdiv.symm
  obtain ⟨b', hr', hshape, hflat⟩ := reachable_poke hb hr (i := position) (by omega)
    ((b.flat[b.startOf position]?).getD 0 + 1)
  refine ⟨b', hr', hshape, ?_⟩
  have h' := rep_reachable hb hr'
  have hstart : b'.startOf position = b.startOf position := by
    rw [startOf_eq h', startOf_eq h, hshape.position_eq]
  have hin' : position + size ≤ b'.size := by rw [hshape.size_eq]; exact hin
  unfold Positional
  rw [if_pos hin', readAt_eq hb h' (by rw [hshape.size_eq]; exact hsub)
    (by rw [hshape.position_eq, hshape.capacity_eq]; exact hcur), hstart, contents_window b' hin']
  split
  · rename_i hfit
    intro he
    have hbytes := congrArg (fun data : List UInt8 => data[0]?) (EStateM.Result.ok.inj he).1
    simp only [head_window _ _ hz, hflat] at hbytes
    have hlt : b.startOf position < b.flat.length := by
      rw [h.flat_length, ← hshape.capacity_eq]
      omega
    have hpos : position < b.flat.length := by
      have := h.size_le
      rw [h.flat_length]
      omega
    rw [List.getElem?_set_ne hne.symm, List.getElem?_set_self hpos,
      List.getElem?_eq_getElem hlt] at hbytes
    simp at hbytes
  · intro he
    cases he

/-- A positional read of an array of this shape is right, whatever its bytes, exactly when the
cursor serves it. -/
theorem positional_read_iff (hb : 1 ≤ base) {host : Endian} (hr : (machine host base).Reachable b)
    (size position : UInt64) :
    (∀ b', (machine host base).Reachable b' → SameShape b b' →
      Positional b' size.toNat position.toNat) ↔ Served b size.toNat position.toNat := by
  have h := rep_reachable hb hr
  have hp := position.toNat_lt
  constructor
  · intro hall
    have hself := hall b hr ⟨rfl, rfl, rfl⟩
    unfold Served
    by_cases hin : position.toNat + size.toNat ≤ b.size
    · unfold Positional at hself
      rw [if_pos hin] at hself ⊢
      have hsub : size.toNat ≤ sizeSub b.size position.toNat := by
        rw [sizeSub_of_le (by omega)]
        omega
      have hcur : b.position < b.capacity := by
        have hle := Nat.le_trans h.position_le h.size_le
        by_contra hno
        rw [readAt_null h hsub (by omega)] at hself
        cases hself
      refine ⟨hcur, ?_⟩
      by_contra hno
      obtain ⟨hz, hnode⟩ := not_or.mp hno
      rw [h.baseSize_eq] at hnode
      obtain ⟨b', hr', hshape, hbad⟩ := not_positional hb hr hin hcur hz hnode
      exact hbad (hall b' hr' hshape)
    · unfold Positional at hself
      rw [if_neg hin] at hself ⊢
      obtain ⟨what, herr⟩ := hself
      apply (sizeSub_lt_iff hp (by omega)).mp
      by_contra hno
      by_cases hc : b.position < b.capacity
      · rw [readAt_eq hb h (by omega) hc] at herr
        split at herr <;> cases herr
      · have hle := Nat.le_trans h.position_le h.size_le
        rw [readAt_null h (by omega) (by omega)] at herr
        cases herr
  · intro hs b' hr' hshape
    have h' := rep_reachable hb hr'
    apply Served.positional hb h' hp
    unfold Served at hs ⊢
    rw [hshape.position_eq, hshape.size_eq, hshape.capacity_eq, h'.baseSize_eq]
    rw [h.baseSize_eq] at hs
    exact hs

/-- The second node of three, read from within. -/
theorem positional_read_inside :
    ∃ b, (machine .little 2).Reachable b ∧ b.position = 3 ∧ Positional b 3 2 := by
  obtain ⟨b, hr, hp⟩ := Lib.Machine.exists_of_exec (machine .little 2)
    (s := create 2 (fun _ _ => 0)) (fun b => b.position = 3 ∧ b.size = 5 ∧ b.capacity = 6)
    [.write (fun _ _ => 0) [1, 2, 3, 4, 5], .setPosition 3] ⟨_, rfl⟩ (by decide)
  have hbase := (rep_reachable (by decide) hr).baseSize_eq
  refine ⟨b, hr, hp.1, (positional_read_iff (by decide) hr 3 2).mpr ?_ b hr ⟨rfl, rfl, rfl⟩⟩
  have hin : (2 : UInt64).toNat + (3 : UInt64).toNat ≤ b.size := by
    rw [hp.2.1]
    decide
  unfold Served
  rw [if_pos hin, hp.1, hp.2.2, hbase]
  exact ⟨by decide, .inr rfl⟩

/-- The position is in the third node and the first byte of the array is asked for: it is taken
from the third node. A read of two bytes from behind the end goes through as well. -/
theorem positional_read_elsewhere :
    ∃ b, (machine .little 2).Reachable b ∧ b.contents = [1, 2, 3, 4, 5] ∧
      readAt 1 0 b = .ok [5] b ∧ ¬Positional b 1 0 ∧
      readAt 1 6 b = .ok [5] b ∧ ¬Positional b 1 6 := by
  have hr : (machine .little 2).Reachable
      { baseSize := 2, position := 5, capacity := 6, size := 5, nodes := [[1, 2], [3, 4], [5, 0]],
        cur := some 2 } :=
    Lib.Machine.reachable_of_exec (s := create 2 (fun _ _ => 0))
      [.write (fun _ _ => 0) [1, 2, 3, 4, 5]] ⟨_, rfl⟩ (by decide)
  refine ⟨_, hr, rfl, rfl, ?_, rfl, ?_⟩
  · intro he
    have hread := EStateM.Result.ok.inj he
    exact absurd hread.1 (by decide)
  · intro he
    obtain ⟨what, he⟩ := he
    cases he

end ReadAt

section Gathered
variable {base : Nat} {b : ByteArray}

theorem toString_eq (hb : 1 ≤ base) (h : Rep base b) : toString b = .ok b.unread b := by
  have hread := h.getReadSize_eq
  have hle := h.size_le
  have hpos := h.position_le
  unfold toString
  by_cases hz : b.getReadSize = 0
  · have hnil : b.unread = [] := by
      apply List.eq_nil_of_length_eq_zero
      rw [h.unread_length, hz]
    rw [if_pos hz, hnil]
  · have hstart : b.startOf b.position = b.position := by rw [startOf, Nat.div_add_mod]
    have hsub : b.getReadSize ≤ sizeSub b.size b.position := Nat.le_refl _
    rw [if_neg hz, readAt_eq hb h hsub (by omega), hstart, if_pos (by omega),
      ← contents_window b (by omega)]
    congr 1
    apply List.take_of_length_le
    rw [← h.unread_length]
    exact Nat.le_refl _

/-- `getReadBuffers(buffers, len)` describes the `n` bytes that `read(buf, n)` and `toString()`
give, in pieces that are not empty and lie in the chain, and changes nothing. -/
def GathersAsRead (b : ByteArray) (len : Nat) : Prop :=
  ∃ iovs data t str, getReadBuffers len b = .ok (min len b.getReadSize, iovs) b ∧
    (∀ v ∈ iovs, 0 < v.len ∧ v.node < b.nodes.length ∧ v.offset + v.len ≤ b.baseSize) ∧
    read (min len b.getReadSize) b = .ok data t ∧ toString b = .ok str b ∧
    data.length = min len b.getReadSize ∧ collect iovs b.nodes = data ∧
    data = str.take (min len b.getReadSize)

theorem getReadBuffers_clamped (b : ByteArray) (len : Nat) :
    getReadBuffers len b = getReadBuffers (min len b.getReadSize) b := by
  have hclamp : (if b.getReadSize < len then b.getReadSize else len) = min len b.getReadSize := by
    split <;> omega
  have hsame : (if b.getReadSize < min len b.getReadSize then b.getReadSize
      else min len b.getReadSize) = min len b.getReadSize := if_neg (by omega)
  simp only [getReadBuffers, hclamp, hsame]

/-- The gather path agrees with the plain reads exactly when the cursor is not at the end of
the last node: there `read(buf, 0)` looks at a null node, and the two others do not. -/
theorem gather_eq_read_iff (hb : 1 ≤ base) {host : Endian} (hr : (machine host base).Reachable b)
    (len : UInt64) : GathersAsRead b len.toNat ↔ b.position ≠ b.capacity := by
  have h := rep_reachable hb hr
  constructor
  · intro hg he
    obtain ⟨iovs, data, t, str, -, -, hread, -⟩ := hg
    rw [read_null h (by omega) he] at hread
    cases hread
  · intro hne
    have hread := read_eq hb h (Nat.min_le_right len.toNat b.getReadSize) hne
    have hlen : (b.unread.take (min len.toNat b.getReadSize)).length = min len.toNat b.getReadSize := by
      rw [List.length_take, h.unread_length]
      omega
    have hle : min len.toNat b.getReadSize ≤ b.getReadSize := Nat.min_le_right _ _
    unfold GathersAsRead
    rw [getReadBuffers_clamped]
    generalize min len.toNat b.getReadSize = n at hread hlen hle ⊢
    by_cases hz : n = 0
    · subst hz
      have hnone : getReadBuffers 0 b = .ok (0, []) b := by
        simp [getReadBuffers]
      refine ⟨[], _, _, _, hnone, ?_, hread, toString_eq hb h, hlen, rfl, rfl⟩
      intro v hv
      cases hv
    · obtain ⟨iovs, hget, -, hbound, hcollect⟩ := getReadBuffers_spec hb h (by omega) hle
      rw [h.baseSize_eq]
      exact ⟨iovs, _, _, _, hget, hbound, hread, toString_eq hb h, hlen, hcollect, rfl⟩

/-- Five bytes in nodes of two, from the second byte on. -/
theorem gather_eq_read_across :
    ∃ b, (machine .little 2).Reachable b ∧ b.position = 1 ∧
      GathersAsRead b (0xffffffffffffffff : UInt64).toNat := by
  obtain ⟨b, hr, hp⟩ := Lib.Machine.exists_of_exec (machine .little 2)
    (s := create 2 (fun _ _ => 0)) (fun b => b.position = 1 ∧ b.capacity = 6)
    [.write (fun _ _ => 0) [1, 2, 3, 4, 5], .setPosition 1] ⟨_, rfl⟩ (by decide)
  refine ⟨b, hr, hp.1, (gather_eq_read_iff (by decide) hr _).mpr ?_⟩
  rw [hp.1, hp.2]
  decide

/-- A node filled to its end: nothing is left to read, and `read(buf, 0)` fails. -/
theorem gather_eq_read_at_end :
    ∃ b, (machine .little 1).Reachable b ∧ getReadBuffers 5 b = .ok (0, []) b ∧
      toString b = .ok [] b ∧ read 0 b = .error .nullNode b ∧ ¬GathersAsRead b 5 := by
  have hr : (machine .little 1).Reachable
      { baseSize := 1, position := 1, capacity := 1, size := 1, nodes := [[7]], cur := none } :=
    Lib.Machine.reachable_of_exec (s := create 1 (fun _ _ => 0))
      [.write (fun _ _ => 0) [7]] ⟨_, rfl⟩ (by decide)
  refine ⟨_, hr, rfl, rfl, rfl, ?_⟩
  intro hg
  obtain ⟨iovs, data, t, str, -, -, hread, -⟩ := hg
  cases hread

/-- `getReadBuffers(buffers, len, position)` describes the bytes from `position` on. -/
def GathersAt (b : ByteArray) (len position : Nat) : Prop :=
  ∃ iovs, getReadBuffersAt len position b = .ok (min len (b.size - position), iovs) b ∧
    collect iovs b.nodes = (b.contents.drop position).take (min len (b.size - position))

/-- What it returns goes by the cursor's remaining size. -/
theorem getReadBuffersAt_returns (h : Rep base b) {len position n : Nat} {iovs : List Iovec}
    {t : ByteArray} (hget : getReadBuffersAt len position b = .ok (n, iovs) t) :
    n = min len (b.size - b.position) := by
  have hclamp : (if b.getReadSize < len then b.getReadSize else len) =
      min len (b.size - b.position) := by
    rw [h.getReadSize_eq]
    split <;> omega
  simp only [getReadBuffersAt, hclamp] at hget
  split at hget
  · rename_i hz
    cases hget
    exact hz.symm
  · split at hget
    · cases hget
    · cases hget
      rfl

theorem getReadBuffersAt_eq (hb : 1 ≤ base) (h : Rep base b) {len position : Nat}
    (hsame : min len (b.size - b.position) = min len (b.size - position))
    (hp : position ≤ b.size) : GathersAt b len position := by
  have hclamp : (if b.getReadSize < len then b.getReadSize else len) =
      min len (b.size - position) := by
    rw [h.getReadSize_eq, ← hsame]
    split <;> omega
  have hsize := h.size_le
  unfold GathersAt
  simp only [getReadBuffersAt, hclamp, h.baseSize_eq]
  generalize hn : min len (b.size - position) = n
  by_cases hz : n = 0
  · subst hz
    exact ⟨[], by rw [if_pos rfl], rfl⟩
  · obtain ⟨iovs, he, -, -, hcollect⟩ := gather_window hb h (Nat.pos_of_ne_zero hz)
      (show position + n ≤ b.capacity by omega)
    refine ⟨iovs, by rw [if_neg hz, he], ?_⟩
    rw [hcollect, contents_window b (by omega)]

/-- The positional gather is right exactly when the cursor's remaining size cuts `len` as the
remaining size at the given position would. -/
theorem positional_gather_iff (hb : 1 ≤ base) {host : Endian} (hr : (machine host base).Reachable b)
    (len position : UInt64) (hp : position.toNat ≤ b.size) :
    GathersAt b len.toNat position.toNat ↔ position.toNat = b.position ∨
      len.toNat ≤ b.size - position.toNat ∧ len.toNat ≤ b.size - b.position := by
  have h := rep_reachable hb hr
  have hpos := h.position_le
  constructor
  · intro hg
    obtain ⟨iovs, hget, -⟩ := hg
    have hn := getReadBuffersAt_returns h hget
    omega
  · intro hc
    apply getReadBuffersAt_eq hb h ?_ hp
    omega

/-- Three bytes at the start of the array, the cursor being in the second node. -/
theorem positional_gather_before :
    ∃ b, (machine .little 2).Reachable b ∧ b.position = 2 ∧ GathersAt b 3 0 := by
  obtain ⟨b, hr, hp⟩ := Lib.Machine.exists_of_exec (machine .little 2)
    (s := create 2 (fun _ _ => 0)) (fun b => b.position = 2 ∧ b.size = 5)
    [.write (fun _ _ => 0) [1, 2, 3, 4, 5], .setPosition 2] ⟨_, rfl⟩ (by decide)
  refine ⟨b, hr, hp.1, (positional_gather_iff (by decide) hr 3 0 ?_).mpr ?_⟩
  · exact Nat.zero_le _
  · rw [hp.1, hp.2]
    exact .inr ⟨by decide, by decide⟩

/-- With the cursor at the end nothing is described; with it at the start the walk from another
position runs off the chain. -/
theorem positional_gather_cut :
    (∃ b, (machine .little 2).Reachable b ∧ b.contents = [1, 2, 3] ∧
      getReadBuffersAt 3 0 b = .ok (0, []) b ∧ ¬GathersAt b 3 0) ∧
    ∃ b, (machine .little 2).Reachable b ∧ b.contents = [1, 2, 3] ∧
      getReadBuffersAt 3 2 b = .error .nullNode b ∧ ¬GathersAt b 3 2 := by
  have hend : (machine .little 2).Reachable
      { baseSize := 2, position := 3, capacity := 4, size := 3, nodes := [[1, 2], [3, 0]],
        cur := some 1 } :=
    Lib.Machine.reachable_of_exec (s := create 2 (fun _ _ => 0))
      [.write (fun _ _ => 0) [1, 2, 3]] ⟨_, rfl⟩ (by decide)
  have hstart : (machine .little 2).Reachable
      { baseSize := 2, position := 0, capacity := 4, size := 3, nodes := [[1, 2], [3, 0]],
        cur := some 0 } :=
    Lib.Machine.reachable_of_exec (s := create 2 (fun _ _ => 0))
      [.write (fun _ _ => 0) [1, 2, 3], .setPosition 0] ⟨_, rfl⟩ (by decide)
  refine ⟨⟨_, hend, rfl, rfl, ?_⟩, ⟨_, hstart, rfl, rfl, ?_⟩⟩
  · intro hg
    obtain ⟨iovs, hget, -⟩ := hg
    cases hget
  · intro hg
    obtain ⟨iovs, hget, -⟩ := hg
    cases hget

end Gathered

end HxSylar.ByteArray
