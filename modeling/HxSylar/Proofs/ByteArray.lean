import HxSylar.ByteArray
import HxSylar.Lib.Chunks

namespace HxSylar.ByteArray
open Lib.Effect (Keeps)
open Lib (splice Uniform)

/-- The representation invariant. The cursor is null exactly when the position is
at the end of the last node. -/
structure Rep (base : Nat) (b : ByteArray) : Prop where
  baseSize_eq : b.baseSize = base
  nodes_ne : b.nodes ≠ []
  node_size : ∀ n ∈ b.nodes, n.length = base
  capacity_eq : b.capacity = base * b.nodes.length
  position_le : b.position ≤ b.size
  size_le : b.size ≤ b.capacity
  cur_eq : b.cur = if b.position = b.capacity then none else some (b.position / base)

/-- All bytes of the chain, in order. -/
def flat (b : ByteArray) : List UInt8 := b.nodes.flatten

/-- The bytes on `[0, m_size)`. -/
def contents (b : ByteArray) : List UInt8 := b.flat.take b.size

/-- The array with its position set, its cursor beside it and its size raised. -/
def moveTo (b : ByteArray) (pos : Nat) : ByteArray :=
  { b with position := pos, size := max b.size pos, cur := b.nodeAt (pos / b.baseSize) }

theorem sizeSub_of_le {a b : Nat} (h : b ≤ a) : sizeSub a b = a - b := if_pos h

theorem raiseSize_eq (b : ByteArray) :
    b.raiseSize = { b with size := max b.size b.position } := by
  rw [raiseSize]
  split
  · rename_i h
    rw [Nat.max_eq_right (Nat.le_of_lt h)]
  · rename_i h
    rw [Nat.max_eq_left (by omega)]

section Loops
variable {base : Nat} {ns : List Node}

/-- The write loop overwrites the chain in place and stops at the node that holds
the next position. -/
theorem copyIn_eq (hb : 1 ≤ base) (hu : Uniform base ns) {npos : Nat} {data : List UInt8}
    (hp : npos ≤ base) (hd : 0 < data.length) (hfit : npos + data.length ≤ base * ns.length) :
    ∃ ns', copyIn npos data ns = some (ns', (npos + data.length) / base) ∧
      Uniform base ns' ∧ ns'.length = ns.length ∧ ns'.flatten = splice npos data ns.flatten := by
  induction ns generalizing npos data with
  | nil =>
    simp only [List.length_nil, Nat.mul_zero] at hfit
    omega
  | cons n ns ih =>
    have hn := hu.head
    simp only [copyIn, hn]
    split
    · rename_i hle
      -- the last node of the write
      have hk : (if base = npos + data.length then 1 else 0) = (npos + data.length) / base := by
        split
        · rename_i he
          rw [← he, Nat.div_self hb]
        · rw [Nat.div_eq_of_lt (by omega)]
      rw [hk]
      refine ⟨splice npos data n :: ns, rfl, Uniform.cons ?_ hu.tail, rfl, ?_⟩
      · rw [Lib.splice_length (by omega), hn]
      · rw [List.flatten_cons, List.flatten_cons, Lib.splice_append_left _ (by omega)]
    · rename_i hgt
      have hpos : 0 < (data.drop (base - npos)).length := by
        rw [List.length_drop]
        omega
      have hroom : 0 + (data.drop (base - npos)).length ≤ base * ns.length := by
        rw [List.length_cons, Nat.mul_succ] at hfit
        rw [List.length_drop]
        omega
      obtain ⟨ns', he, hu', hl, hf⟩ := ih hu.tail (Nat.zero_le _) hpos hroom
      have hk : (0 + (data.drop (base - npos)).length) / base + 1 = (npos + data.length) / base := by
        have hsum : npos + data.length = (0 + (data.length - (base - npos))) + base := by omega
        rw [List.length_drop, hsum, Nat.add_div_right _ hb]
      rw [he, Option.map_some, hk]
      refine ⟨_, rfl, Uniform.cons ?_ hu', ?_, ?_⟩
      · rw [List.length_append, List.length_take, List.length_take]
        omega
      · rw [List.length_cons, List.length_cons, hl]
      · rw [List.flatten_cons, List.flatten_cons, hf,
          Lib.splice_append_across (by omega) (by omega), hn]

theorem copyOut_eq (hb : 1 ≤ base) (hu : Uniform base ns) (hne : ns ≠ []) {npos size : Nat}
    (hp : npos < base) (hfit : npos + size ≤ base * ns.length) :
    copyOut npos size ns = some ((ns.flatten.drop npos).take size, (npos + size) / base) := by
  induction ns generalizing npos size with
  | nil => exact absurd rfl hne
  | cons n ns ih =>
    have hn := hu.head
    simp only [copyOut, hn, List.flatten_cons]
    split
    · rename_i hz
      rw [hz, List.take_zero, Nat.add_zero, Nat.div_eq_of_lt hp]
    · split
      · rename_i hz hle
        have hk : (if base = npos + size then 1 else 0) = (npos + size) / base := by
          split
          · rename_i he
            rw [← he, Nat.div_self hb]
          · rw [Nat.div_eq_of_lt (by omega)]
        rw [hk, List.drop_append_of_le_length (by omega),
          List.take_append_of_le_length (by rw [List.length_drop]; omega)]
      · rename_i hz hgt
        rw [List.length_cons, Nat.mul_succ] at hfit
        have hne' : ns ≠ [] := by
          intro he
          simp only [he, List.length_nil, Nat.mul_zero] at hfit
          omega
        have hk : (0 + (size - (base - npos))) / base + 1 = (npos + size) / base := by
          have hsum : npos + size = (0 + (size - (base - npos))) + base := by omega
          rw [hsum, Nat.add_div_right _ hb]
        rw [ih hu.tail hne' (by omega) (by omega), Option.map_some, hk, List.drop_zero,
          List.drop_append_of_le_length (by omega), List.take_append, List.length_drop, hn,
          List.take_of_length_le (l := n.drop npos) (by rw [List.length_drop]; omega)]

theorem walk_eq (hb : 1 ≤ base) (hu : Uniform base ns) (hne : ns ≠ []) {val : Nat}
    (hfit : val ≤ base * ns.length) : walk val ns = some (val / base) := by
  induction ns generalizing val with
  | nil => exact absurd rfl hne
  | cons n ns ih =>
    simp only [walk, hu.head]
    split
    · rename_i hlt
      rw [List.length_cons, Nat.mul_succ] at hfit
      have hne' : ns ≠ [] := by
        intro he
        simp only [he, List.length_nil, Nat.mul_zero] at hfit
        omega
      have hk : (val - base) / base + 1 = val / base := by
        conv => rhs; rw [← Nat.sub_add_cancel (Nat.le_of_lt hlt)]
        rw [Nat.add_div_right _ hb]
      rw [ih hu.tail hne' (by omega), Option.map_some, hk]
    · split
      · rename_i he
        rw [he, Nat.div_self hb]
      · rw [Nat.div_eq_of_lt (by omega)]

end Loops

namespace Rep
variable {base : Nat} {b : ByteArray}

theorem flat_length (h : Rep base b) : b.flat.length = b.capacity := by
  rw [flat, Uniform.flatten_length h.node_size, h.capacity_eq]

theorem contents_length (h : Rep base b) : b.contents.length = b.size := by
  rw [contents, List.length_take, h.flat_length, Nat.min_eq_left h.size_le]

theorem getReadSize_eq (h : Rep base b) : b.getReadSize = b.size - b.position :=
  sizeSub_of_le h.position_le

theorem getCapacity_eq (h : Rep base b) : b.getCapacity = b.capacity - b.position :=
  sizeSub_of_le (Nat.le_trans h.position_le h.size_le)

theorem nodeAt_eq (hb : 1 ≤ base) (h : Rep base b) {pos : Nat} (hp : pos ≤ b.capacity) :
    b.nodeAt (pos / base) = if pos = b.capacity then none else some (pos / base) := by
  have hcap := h.capacity_eq
  rw [nodeAt]
  by_cases he : pos = b.capacity
  · rw [if_pos he, he, hcap, Nat.mul_div_cancel_left _ hb, if_neg (Nat.lt_irrefl _)]
  · have hlt : pos < b.nodes.length * base := by
      rw [Nat.mul_comm, ← hcap]
      omega
    rw [if_neg he, if_pos ((Nat.div_lt_iff_lt_mul hb).mpr hlt)]

/-- Where the cursor stands: a node of the chain with the position inside it. -/
theorem cur_inside (hb : 1 ≤ base) (h : Rep base b) (hp : b.position < b.capacity) :
    b.cur = some (b.position / base) ∧ b.position / base < b.nodes.length ∧
      base * (b.position / base) + b.position % base = b.position ∧ b.position % base < base := by
  refine ⟨?_, ?_, Nat.div_add_mod _ _, Nat.mod_lt _ hb⟩
  · rw [h.cur_eq, if_neg (by omega)]
  · rw [Nat.div_lt_iff_lt_mul hb, Nat.mul_comm, ← h.capacity_eq]
    exact hp

/-- The room from the cursor to the end of the chain. -/
theorem room (hb : 1 ≤ base) (h : Rep base b) {len : Nat} (hp : b.position < b.capacity)
    (hfit : b.position + len ≤ b.capacity) :
    b.position % base + len ≤ base * (b.nodes.drop (b.position / base)).length := by
  obtain ⟨_, hc, hdiv, _⟩ := h.cur_inside hb hp
  rw [List.length_drop, Nat.mul_sub, ← h.capacity_eq]
  omega

theorem moveTo (hb : 1 ≤ base) (h : Rep base b) {pos : Nat} (hp : pos ≤ b.capacity) :
    Rep base (b.moveTo pos) where
  baseSize_eq := h.baseSize_eq
  nodes_ne := h.nodes_ne
  node_size := h.node_size
  capacity_eq := h.capacity_eq
  position_le := Nat.le_max_right _ _
  size_le := Nat.max_le.mpr ⟨h.size_le, hp⟩
  cur_eq := by
    have hn := h.nodeAt_eq hb hp
    simpa only [ByteArray.moveTo, h.baseSize_eq] using hn

/-- Only the sizes of the nodes matter. -/
theorem with_nodes (h : Rep base b) {ns : List Node} (hu : Uniform base ns)
    (hl : ns.length = b.nodes.length) : Rep base { b with nodes := ns } where
  baseSize_eq := h.baseSize_eq
  nodes_ne := by
    apply List.ne_nil_of_length_pos
    rw [hl]
    exact List.length_pos_iff.mpr h.nodes_ne
  node_size := hu
  capacity_eq := by rw [hl, h.capacity_eq]
  position_le := h.position_le
  size_le := h.size_le
  cur_eq := h.cur_eq

end Rep

theorem rep_create {base : Nat} (hb : 1 ≤ base) (garbage : Garbage) :
    Rep base (create base garbage) where
  baseSize_eq := rfl
  nodes_ne := by simp [create]
  node_size := by simp [create, Node.new]
  capacity_eq := by simp [create]
  position_le := Nat.le_refl _
  size_le := Nat.zero_le _
  cur_eq := by
    have h : 0 ≠ base := by omega
    simp [create, h]

section Growth
variable {base : Nat} {b : ByteArray}

/-- The array with `count` more nodes, its null cursor repaired. -/
def extend (b : ByteArray) (garbage : Garbage) (count : Nat) : ByteArray :=
  { b with
    nodes := b.nodes ++
      (List.range count).map (fun i => Node.new b.baseSize (garbage (b.nodes.length + i)))
    capacity := b.capacity + count * b.baseSize
    cur := if b.position = b.capacity then some b.nodes.length else b.cur }

theorem Rep.extend (hb : 1 ≤ base) (h : Rep base b) (garbage : Garbage) {count : Nat}
    (hc : 1 ≤ count) : Rep base (b.extend garbage count) where
  baseSize_eq := h.baseSize_eq
  nodes_ne := by simp [ByteArray.extend, h.nodes_ne]
  node_size := by
    apply Uniform.append h.node_size
    intro n hn
    obtain ⟨i, _, he⟩ := List.mem_map.mp hn
    rw [← he, Node.new, List.length_map, List.length_range, h.baseSize_eq]
  capacity_eq := by
    simp only [ByteArray.extend, List.length_append, List.length_map, List.length_range,
      h.baseSize_eq, h.capacity_eq]
    ring
  position_le := h.position_le
  size_le := Nat.le_trans h.size_le (Nat.le_add_right _ _)
  cur_eq := by
    have hle := Nat.le_trans h.position_le h.size_le
    have hgrow : 0 < count * base := Nat.mul_pos hc hb
    simp only [ByteArray.extend, h.baseSize_eq]
    rw [if_neg (show b.position ≠ b.capacity + count * base by omega), h.cur_eq]
    split
    · rename_i he
      rw [he, h.capacity_eq, Nat.mul_div_cancel_left _ hb]
    · rfl

theorem addCapacity_eq (hb : 1 ≤ base) (h : Rep base b) (garbage : Garbage) (size : Nat) :
    b.addCapacity garbage size = if b.position + size ≤ b.capacity then b
      else b.extend garbage ((size - (b.capacity - b.position) + base - 1) / base) := by
  have hle := Nat.le_trans h.position_le h.size_le
  simp only [addCapacity, h.getCapacity_eq]
  by_cases hfit : b.position + size ≤ b.capacity
  · rw [if_pos hfit, if_pos (show size ≤ b.capacity - b.position by omega)]
    split <;> rfl
  · rw [if_neg hfit, if_neg (show ¬size = 0 by omega),
      if_neg (show ¬size ≤ b.capacity - b.position by omega), h.baseSize_eq]
    have hcount : 1 ≤ (size - (b.capacity - b.position) + base - 1) / base := by
      rw [Nat.le_div_iff_mul_le hb]
      omega
    by_cases he : b.position = b.capacity
    · rw [if_pos (show b.capacity - b.position = 0 by omega)]
      simp only [ByteArray.extend, h.baseSize_eq, if_pos he, nodeAt, List.length_append,
        List.length_map, List.length_range]
      rw [if_pos (by omega)]
    · rw [if_neg (show ¬b.capacity - b.position = 0 by omega)]
      simp only [ByteArray.extend, h.baseSize_eq, if_neg he]

/-- What `addCapacity` has done when it returns. -/
structure Grown (base : Nat) (b : ByteArray) (size : Nat) (b' : ByteArray) : Prop where
  rep : Rep base b'
  position_eq : b'.position = b.position
  size_eq : b'.size = b.size
  endian_eq : b'.endian = b.endian
  flat_append : ∃ fresh, b'.flat = b.flat ++ fresh
  enough : b.position + size ≤ b'.capacity
  no_more : b'.capacity = b.capacity ∨ b'.capacity < b.position + size + base

theorem grown_addCapacity (hb : 1 ≤ base) (h : Rep base b) (garbage : Garbage) (size : Nat) :
    Grown base b size (b.addCapacity garbage size) := by
  have hle := Nat.le_trans h.position_le h.size_le
  rw [addCapacity_eq hb h]
  split
  · rename_i hfit
    exact ⟨h, rfl, rfl, rfl, ⟨[], (List.append_nil _).symm⟩, hfit, .inl rfl⟩
  · rename_i hfit
    generalize hk : (size - (b.capacity - b.position) + base - 1) / base = count
    have hpos : 1 ≤ count := by
      rw [← hk, Nat.le_div_iff_mul_le hb]
      omega
    have hlow : size - (b.capacity - b.position) ≤ count * base := by
      have hm := Nat.lt_mul_div_succ (size - (b.capacity - b.position) + base - 1) hb
      rw [hk, Nat.mul_comm, Nat.succ_mul] at hm
      omega
    have hup : count * base ≤ size - (b.capacity - b.position) + base - 1 := by
      rw [← hk]
      exact Nat.div_mul_le_self _ _
    have hcap : (b.extend garbage count).capacity = b.capacity + count * base := by
      rw [ByteArray.extend, h.baseSize_eq]
    refine ⟨h.extend hb garbage hpos, rfl, rfl, rfl, ⟨_, List.flatten_append⟩, ?_, .inr ?_⟩
    · rw [hcap]
      omega
    · rw [hcap]
      omega

theorem Grown.contents_eq {size : Nat} {b' : ByteArray} (h : Rep base b)
    (hg : Grown base b size b') : b'.contents = b.contents := by
  obtain ⟨fresh, hf⟩ := hg.flat_append
  rw [contents, contents, hg.size_eq, hf, List.take_append_of_le_length]
  rw [h.flat_length]
  exact h.size_le

end Growth

section Operations
variable {base : Nat} {b : ByteArray}

theorem moveTo_of_le {pos : Nat} (h : pos ≤ b.size) :
    b.moveTo pos = { b with position := pos, cur := b.nodeAt (pos / b.baseSize) } := by
  rw [moveTo, Nat.max_eq_left h]

theorem setPosition_eq (hb : 1 ≤ base) (h : Rep base b) {val : Nat} (hv : val ≤ b.capacity) :
    setPosition val b = .ok () (b.moveTo val) := by
  have hw : walk val b.nodes = some (val / base) :=
    walk_eq hb h.node_size h.nodes_ne (by rw [← h.capacity_eq]; exact hv)
  simp only [setPosition, if_neg (show ¬b.capacity < val by omega), raiseSize_eq, hw, moveTo,
    h.baseSize_eq]
  rfl

theorem setPosition_out_of_range {val : Nat} (hv : b.capacity < val) :
    setPosition val b = .error (.outOfRange "set_position out of range") b := if_pos hv

/-- The bytes between the position and the size. -/
def unread (b : ByteArray) : List UInt8 := b.contents.drop b.position

theorem Rep.unread_length (h : Rep base b) : b.unread.length = b.getReadSize := by
  rw [unread, List.length_drop, h.contents_length, h.getReadSize_eq]

/-- `read` returns the next bytes unless its cursor is null, which it is at the end
of the last node even for a read of nothing. -/
theorem read_eq (hb : 1 ≤ base) (h : Rep base b) {size : Nat} (hs : size ≤ b.getReadSize)
    (hc : b.position ≠ b.capacity) :
    read size b = .ok (b.unread.take size) (b.moveTo (b.position + size)) := by
  have hle := Nat.le_trans h.position_le h.size_le
  have hlt : b.position < b.capacity := by omega
  obtain ⟨hcur, hin, hdiv, hmod⟩ := h.cur_inside hb hlt
  have hfit : b.position + size ≤ b.size := by
    have hr := h.getReadSize_eq
    have hp := h.position_le
    omega
  have hne : b.nodes.drop (b.position / base) ≠ [] := by
    rw [ne_eq, List.drop_eq_nil_iff]
    omega
  have hout := copyOut_eq hb (Uniform.drop h.node_size (b.position / base)) hne hmod
    (h.room hb hlt (Nat.le_trans hfit h.size_le))
  have hdata : ((b.nodes.drop (b.position / base)).flatten.drop (b.position % base)).take size =
      b.unread.take size := by
    rw [Uniform.flatten_drop h.node_size, List.drop_drop, hdiv, unread, contents, flat,
      List.drop_take, List.take_take, Nat.min_eq_left (by omega)]
  have hk : b.position / base + (b.position % base + size) / base = (b.position + size) / base := by
    rw [← Nat.mul_add_div hb, ← Nat.add_assoc, hdiv]
  simp only [read, if_neg (show ¬b.getReadSize < size by omega), hcur, h.baseSize_eq, hout, hdata, hk,
    moveTo_of_le hfit]

theorem read_null (h : Rep base b) {size : Nat} (hs : size ≤ b.getReadSize)
    (hc : b.position = b.capacity) : read size b = .error .nullNode b := by
  have hcur : b.cur = none := by rw [h.cur_eq, if_pos hc]
  simp only [read, if_neg (show ¬b.getReadSize < size by omega), hcur]

theorem read_out_of_range {size : Nat} (hs : b.getReadSize < size) :
    read size b = .error (.outOfRange "not enough len") b := if_pos hs

/-- What `write` has done when it returns. -/
structure Written (base : Nat) (b : ByteArray) (data : List UInt8) (b' : ByteArray) : Prop where
  rep : Rep base b'
  position_eq : b'.position = b.position + data.length
  size_eq : b'.size = max b.size (b.position + data.length)
  contents_eq : b'.contents = splice b.position data b.contents
  endian_eq : b'.endian = b.endian
  no_more : b'.capacity = b.capacity ∨ b'.capacity < b.position + data.length + base

/-- `write` always returns: `addCapacity` has left a node under the cursor. The bytes go over
those of the chain that it has left. -/
theorem write_grown (hb : 1 ≤ base) (h : Rep base b) (garbage : Garbage) {data : List UInt8}
    (hd : data.length ≠ 0) {g : ByteArray} (hg' : b.addCapacity garbage data.length = g) :
    ∃ b', write garbage data b = .ok () b' ∧ Rep base b' ∧
      b'.position = b.position + data.length ∧ b'.size = max b.size (b.position + data.length) ∧
      b'.capacity = g.capacity ∧ b'.endian = b.endian ∧ b'.flat = splice b.position data g.flat := by
  have hg := grown_addCapacity hb h garbage data.length
  rw [hg'] at hg
  have hfit : g.position + data.length ≤ g.capacity := by
    rw [hg.position_eq]
    exact hg.enough
  have hlt : g.position < g.capacity := by omega
  obtain ⟨hcur, hin, hdiv, hmod⟩ := hg.rep.cur_inside hb hlt
  have hu : Uniform base g.nodes := hg.rep.node_size
  obtain ⟨ns, hcopy, hns, hlen, hflat⟩ := copyIn_eq hb (hu.drop (g.position / base))
    (Nat.le_of_lt hmod) (by omega) (hg.rep.room hb hlt hfit)
  have hk : g.position / base + (g.position % base + data.length) / base =
      (g.position + data.length) / base := by
    rw [← Nat.mul_add_div hb, ← Nat.add_assoc, hdiv]
  have hall : (g.nodes.take (g.position / base) ++ ns).length = g.nodes.length := by
    rw [List.length_append, hlen, ← List.length_append, List.take_append_drop]
  have hrep := hg.rep.with_nodes ((hu.take _).append hns) hall
  have hw : write garbage data b = .ok () ({ g with
      nodes := g.nodes.take (g.position / base) ++ ns }.moveTo (g.position + data.length)) := by
    simp only [write, if_neg hd, hg', hcur, hg.rep.baseSize_eq, hcopy, hk, raiseSize_eq, moveTo,
      nodeAt, hall]
  have hover : (g.nodes.take (g.position / base) ++ ns).flatten =
      splice b.position data g.flat := by
    rw [List.flatten_append, hflat, hu.splice_drop data (Nat.le_of_lt hin), hdiv, flat,
      hg.position_eq]
  refine ⟨_, hw, hrep.moveTo hb hfit, ?_, ?_, rfl, hg.endian_eq, hover⟩
  · simp only [moveTo, hg.position_eq]
  · simp only [moveTo, hg.position_eq, hg.size_eq]

theorem write_spec (hb : 1 ≤ base) (h : Rep base b) (garbage : Garbage) (data : List UInt8) :
    ∃ b', write garbage data b = .ok () b' ∧ Written base b data b' := by
  by_cases hz : data.length = 0
  · obtain rfl := List.eq_nil_of_length_eq_zero hz
    exact ⟨b, rfl, h, rfl, (Nat.max_eq_left h.position_le).symm, (Lib.splice_nil _ _).symm, rfl,
      .inl rfl⟩
  · have hg := grown_addCapacity hb h garbage data.length
    obtain ⟨b', hw, hrep, hpos, hsize, hcap, hend, hflat⟩ := write_grown hb h garbage hz rfl
    refine ⟨b', hw, hrep, hpos, hsize, ?_, hend, ?_⟩
    · have hle : b.size ≤ (b.addCapacity garbage data.length).flat.length := by
        rw [hg.rep.flat_length, ← hg.size_eq]
        exact hg.rep.size_le
      have ht := Lib.take_splice data h.position_le hle
      have hcontents := hg.contents_eq h
      rw [contents, hg.size_eq] at hcontents
      rw [contents, hflat, hsize, ht, hcontents]
    · rw [hcap]
      exact hg.no_more

/-- A write that fits into the chain leaves the rest of it as it was. -/
theorem write_within (hb : 1 ≤ base) (h : Rep base b) (garbage : Garbage) {data : List UInt8}
    (hfit : b.position + data.length ≤ b.capacity) :
    ∃ b', write garbage data b = .ok () b' ∧ Written base b data b' ∧ b'.capacity = b.capacity ∧
      b'.flat = splice b.position data b.flat := by
  obtain ⟨b', hw, hwritten⟩ := write_spec hb h garbage data
  refine ⟨b', hw, hwritten, ?_⟩
  by_cases hz : data.length = 0
  · obtain rfl := List.eq_nil_of_length_eq_zero hz
    cases hw
    exact ⟨rfl, (Lib.splice_nil _ _).symm⟩
  · have hsame : b.addCapacity garbage data.length = b := by
      rw [addCapacity_eq hb h, if_pos hfit]
    obtain ⟨b'', hw', -, -, -, hcap, -, hflat⟩ := write_grown hb h garbage hz hsame
    cases hw.symm.trans hw'
    exact ⟨hcap, hflat⟩

end Operations

/-- The operations that assign to the fields keep `I`, also when they throw; the others are made
of them. -/
structure Stable (I : ByteArray → Prop) : Prop where
  write : ∀ garbage data, Keeps I (· = .nullNode) (ByteArray.write garbage data)
  read : ∀ size, Keeps I (· = .nullNode) (ByteArray.read size)
  setPosition : ∀ val, Keeps I (· = .nullNode) (ByteArray.setPosition val)
  clear : Keeps I (· = .nullNode) ByteArray.clear
  setIsLittleEndian : ∀ val, Keeps I (· = .nullNode) (ByteArray.setIsLittleEndian val)
  getWriteBuffers : ∀ garbage len, Keeps I (· = .nullNode) (ByteArray.getWriteBuffers garbage len)

section Stable
variable {I : ByteArray → Prop}

theorem keeps_of_unchanged {α : Type} {x : Op α}
    (h : ∀ b, (∃ a, x b = .ok a b) ∨ ∃ e, x b = .error e b) : Keeps I (· = .nullNode) x := by
  intro b hi
  rcases h b with ⟨a, he⟩ | ⟨e, he⟩
  · rw [he]
    exact hi
  · rw [he]
    exact .inr hi

theorem keeps_readAt (size position : Nat) : Keeps I (· = .nullNode) (readAt size position) := by
  apply keeps_of_unchanged
  intro b
  simp only [readAt]
  repeat' split
  all_goals simp

theorem keeps_getReadBuffers (len : Nat) : Keeps I (· = .nullNode) (getReadBuffers len) := by
  apply keeps_of_unchanged
  intro b
  simp only [getReadBuffers]
  repeat' split
  all_goals simp

theorem keeps_getReadBuffersAt (len position : Nat) :
    Keeps I (· = .nullNode) (getReadBuffersAt len position) := by
  apply keeps_of_unchanged
  intro b
  simp only [getReadBuffersAt]
  repeat' split
  all_goals simp

theorem keeps_toString : Keeps I (· = .nullNode) toString := by
  intro b hi
  simp only [toString]
  split
  · exact hi
  · exact keeps_readAt _ _ b hi

theorem Stable.writeFixed (h : Stable I) (host : Endian) (garbage : Garbage) (n v : Nat) :
    Keeps I (· = .nullNode) (writeFixed host garbage n v) := by
  apply Lib.Effect.Keeps.bind Lib.Effect.keeps_get
  intro s
  exact h.write _ _

theorem Stable.readFixed (h : Stable I) (host : Endian) (n : Nat) :
    Keeps I (· = .nullNode) (readFixed host n) := by
  apply Lib.Effect.Keeps.bind (h.read n)
  intro data
  apply Lib.Effect.Keeps.bind Lib.Effect.keeps_get
  intro s
  exact Lib.Effect.Keeps.ite (Lib.Effect.keeps_pure _) (Lib.Effect.keeps_pure _)

theorem Stable.readVarint (h : Stable I) (w i result : Nat) :
    Keeps I (· = .nullNode) (readVarint w i result) := by
  induction i, result using readVarint.induct w with
  | case1 i result hi ih =>
    rw [ByteArray.readVarint, if_pos hi]
    apply Lib.Effect.Keeps.bind ((h.read 1).return _)
    intro x
    exact Lib.Effect.Keeps.ite (Lib.Effect.keeps_pure _) (ih x)
  | case2 i result hi =>
    rw [ByteArray.readVarint, if_neg hi]
    exact Lib.Effect.keeps_pure _

theorem Stable.number_write (h : Stable I) (host : Endian) (garbage : Garbage) (n : Number)
    (value : n.type) : Keeps I (· = .nullNode) (n.write host garbage value) := by
  cases n with
  | fint8 => exact h.write garbage [Int8.toUInt8 value]
  | fuint8 => exact h.write garbage [value]
  | int32 | uint32 | int64 | uint64 => exact h.write _ _
  | _ => exact h.writeFixed host garbage _ _

theorem Stable.number_read (h : Stable I) (host : Endian) (n : Number) :
    Keeps I (· = .nullNode) (n.read host) := by
  cases n with
  | fint8 | fuint8 => exact (h.read 1).return _
  | uint32 | uint64 => exact (h.readVarint _ 0 0).return _
  | int32 | int64 => exact ((h.readVarint _ 0 0).return _).return _
  | _ => exact (h.readFixed host _).return _

theorem Stable.format_write (h : Stable I) (host : Endian) (garbage : Garbage) (f : Format)
    (value : CppString) : Keeps I (· = .nullNode) (f.write host garbage value) := by
  cases f with
  | vint => exact (h.write garbage _).bind (fun _ => h.write garbage _)
  | _ => exact (h.writeFixed host garbage _ _).bind (fun _ => h.write garbage _)

theorem Stable.readBuff (h : Stable I) (len : Nat) : Keeps I (· = .nullNode) (readBuff len) :=
  Lib.Effect.Keeps.ite (Lib.Effect.keeps_throw _) (h.read len)

theorem Stable.format_read (h : Stable I) (host : Endian) (f : Format) :
    Keeps I (· = .nullNode) (f.read host) := by
  cases f with
  | vint => exact ((h.readVarint _ 0 0).return _).bind (fun _ => h.readBuff _)
  | _ => exact ((h.readFixed host _).return _).bind (fun _ => h.readBuff _)

theorem Stable.run (h : Stable I) (host : Endian) (c : Call) :
    Keeps I (· = .nullNode) (c.run host) := by
  cases c with
  | write garbage data => exact h.write garbage data
  | read size => exact (h.read size).map _
  | readAt size position => exact (keeps_readAt size position).map _
  | writeNumber garbage n value => exact h.number_write host garbage n value
  | readNumber n => exact (h.number_read host n).map _
  | readDouble => exact ((h.readFixed host 8).return _).map _
  | writeString garbage f value => exact h.format_write host garbage f value
  | writeStringWithoutLength garbage value => exact h.write garbage value.1
  | readString f => exact (h.format_read host f).map _
  | setPosition val => exact h.setPosition val
  | setIsLittleEndian val => exact h.setIsLittleEndian val
  | clear => exact h.clear
  | getReadBuffers len => exact (keeps_getReadBuffers len).map _
  | getReadBuffersAt len position => exact (keeps_getReadBuffersAt len position).map _
  | getWriteBuffers garbage len => exact (h.getWriteBuffers garbage len).map _
  | toString => exact keeps_toString.map _

theorem machine_step {host : Endian} {base : Nat} {b t : ByteArray} {c : Call}
    (h : (machine host base).step b c = some t) :
    (∃ a, c.run host b = .ok a t) ∨ ∃ e, e ≠ .nullNode ∧ c.run host b = .error e t := by
  simp only [machine] at h
  split at h
  · rename_i he
    cases h
    exact .inl ⟨_, he⟩
  · cases h
  · rename_i he hne
    cases h
    exact .inr ⟨_, he, by assumption⟩

theorem Stable.step (h : Stable I) {host : Endian} {base : Nat} {b t : ByteArray} {c : Call}
    (hi : I b) (hs : (machine host base).step b c = some t) : I t := by
  rcases machine_step hs with ⟨a, he⟩ | ⟨e, hne, he⟩
  · exact (h.run host c).ok hi he
  · exact ((h.run host c).error hi he).resolve_left hne

/-- What holds of a fresh array and is kept holds in every state that calls can lead to. -/
theorem Stable.reachable (h : Stable I) {host : Endian} {base : Nat}
    (hinit : ∀ garbage, I (create base garbage)) {b : ByteArray}
    (hr : (machine host base).Reachable b) : I b := by
  apply Lib.Machine.Reachable.invariant (M := machine host base) ?_ ?_ hr
  · intro s hi
    obtain ⟨garbage, he⟩ := hi
    subst he
    exact hinit garbage
  · intro s c t hi hs
    exact h.step hi hs

end Stable

section Invariant
variable {base : Nat}

/-- `x` keeps the representation, also when it throws. -/
abbrev Sound (base : Nat) {α : Type} (x : Op α) : Prop :=
  Lib.Effect.Keeps (Rep base) (· = .nullNode) x

theorem sound_write (hb : 1 ≤ base) (garbage : Garbage) (data : List UInt8) :
    Sound base (write garbage data) := by
  intro b h
  obtain ⟨b', he, hw⟩ := write_spec hb h garbage data
  rw [he]
  exact hw.rep

theorem sound_read (hb : 1 ≤ base) (size : Nat) : Sound base (read size) := by
  intro b h
  have hle := Nat.le_trans h.position_le h.size_le
  by_cases hs : b.getReadSize < size
  · rw [read_out_of_range hs]
    exact .inr h
  · by_cases hc : b.position = b.capacity
    · rw [read_null h (Nat.le_of_not_lt hs) hc]
      exact .inl rfl
    · have hfit : b.position + size ≤ b.capacity := by
        have hr := h.getReadSize_eq
        have hp := h.position_le
        have hz := h.size_le
        omega
      rw [read_eq hb h (Nat.le_of_not_lt hs) hc]
      exact h.moveTo hb hfit

theorem sound_setPosition (hb : 1 ≤ base) (val : Nat) : Sound base (setPosition val) := by
  intro b h
  by_cases hv : b.capacity < val
  · rw [setPosition_out_of_range hv]
    exact .inr h
  · rw [setPosition_eq hb h (Nat.le_of_not_lt hv)]
    exact h.moveTo hb (Nat.le_of_not_lt hv)

theorem sound_clear (hb : 1 ≤ base) : Sound base clear := by
  intro b h
  have hlen : (b.nodes.take 1).length = 1 := by
    rw [List.length_take]
    have hpos := List.length_pos_iff.mpr h.nodes_ne
    omega
  refine ⟨h.baseSize_eq, List.ne_nil_of_length_pos (Nat.lt_of_lt_of_eq Nat.one_pos hlen.symm),
    Uniform.take h.node_size 1, ?_, Nat.le_refl _, Nat.zero_le _, ?_⟩
  · rw [hlen, h.baseSize_eq, Nat.mul_one]
  · rw [if_neg (show ¬(0 : Nat) = b.baseSize by rw [h.baseSize_eq]; omega), Nat.zero_div]

theorem sound_setIsLittleEndian (val : Bool) : Sound base (setIsLittleEndian val) := by
  intro b h
  cases val <;> exact ⟨h.1, h.2, h.3, h.4, h.5, h.6, h.7⟩

theorem sound_getWriteBuffers (hb : 1 ≤ base) (garbage : Garbage) (len : Nat) :
    Sound base (getWriteBuffers garbage len) := by
  intro b h
  have hg := (grown_addCapacity hb h garbage len).rep
  simp only [getWriteBuffers]
  split
  · exact h
  · split
    · exact .inl rfl
    · split
      · exact .inl rfl
      · exact hg

theorem stable_rep (hb : 1 ≤ base) : Stable (Rep base) where
  write := sound_write hb
  read := sound_read hb
  setPosition := sound_setPosition hb
  clear := sound_clear hb
  setIsLittleEndian := sound_setIsLittleEndian
  getWriteBuffers := sound_getWriteBuffers hb

theorem rep_reachable (hb : 1 ≤ base) {host : Endian} {b : ByteArray}
    (hr : (machine host base).Reachable b) : Rep base b :=
  (stable_rep hb).reachable (rep_create hb) hr

theorem addCapacity_endian (b : ByteArray) (garbage : Garbage) (size : Nat) :
    (b.addCapacity garbage size).endian = b.endian := by
  simp only [addCapacity]
  repeat' split
  all_goals rfl

/-- No operation leaves the array in little-endian order, `setIsLittleEndian` neither. -/
theorem stable_big : Stable (fun b => b.endian = .big) where
  write := by
    intro garbage data b h
    have hg := (addCapacity_endian b garbage data.length).trans h
    simp only [write]
    split
    · exact h
    · split
      · exact .inl rfl
      · split
        · exact .inl rfl
        · rw [raiseSize_eq]
          exact hg
  read := by
    intro size b h
    simp only [read]
    repeat' split
    · exact .inr h
    · exact .inl rfl
    · exact .inl rfl
    · exact h
  setPosition := by
    intro val b h
    simp only [setPosition, raiseSize_eq]
    repeat' split
    · exact .inr h
    · exact .inl rfl
    · exact h
  clear := by
    intro b h
    exact h
  setIsLittleEndian := by
    intro val b h
    exact rfl
  getWriteBuffers := by
    intro garbage len b h
    have hg := (addCapacity_endian b garbage len).trans h
    simp only [getWriteBuffers]
    repeat' split
    · exact h
    · exact .inl rfl
    · exact .inl rfl
    · exact hg

theorem big_reachable {host : Endian} {b : ByteArray} (hr : (machine host base).Reachable b) :
    b.endian = .big :=
  stable_big.reachable (fun _ => rfl) hr

/-- In every state that calls can lead to, the representation is sound, and
`setPosition` and `read` have changed nothing when they throw. -/
theorem representation_invariant (hb : 1 ≤ base) {host : Endian} {b : ByteArray}
    (hr : (machine host base).Reachable b) :
    Rep base b ∧
    (∀ val what t, setPosition val b = .error (.outOfRange what) t → t = b) ∧
    (∀ size what t, read size b = .error (.outOfRange what) t → t = b) := by
  have h := rep_reachable hb hr
  refine ⟨h, ?_, ?_⟩
  · intro val what t he
    by_cases hv : b.capacity < val
    · rw [setPosition_out_of_range hv] at he
      cases he
      rfl
    · rw [setPosition_eq hb h (Nat.le_of_not_lt hv)] at he
      cases he
  · intro size what t he
    by_cases hs : b.getReadSize < size
    · rw [read_out_of_range hs] at he
      cases he
      rfl
    · by_cases hc : b.position = b.capacity
      · rw [read_null h (Nat.le_of_not_lt hs) hc] at he
        cases he
      · rw [read_eq hb h (Nat.le_of_not_lt hs) hc] at he
        cases he

/-- A write up to the end of the second node leaves the cursor null; the next one
repairs it. -/
theorem representation_invariant_at_border :
    ∃ b, (machine .little 2).Reachable b ∧ (b.position = 4 ∧ b.capacity = 4 ∧ b.cur = none) ∧
      Rep 2 b := by
  obtain ⟨b, hr, hp⟩ := Lib.Machine.exists_of_exec (machine .little 2)
    (s := create 2 (fun _ _ => 0)) (fun b => b.position = 4 ∧ b.capacity = 4 ∧ b.cur = none)
    [.write (fun _ _ => 0) [1, 2, 3, 4], .setPosition 9, .setPosition 1, .readNumber .fuint8,
      .getWriteBuffers (fun _ _ => 0) 2, .write (fun _ _ => 0) [5, 6]] ⟨_, rfl⟩ (by decide)
  exact ⟨b, hr, hp, (representation_invariant (by decide) hr).1⟩

end Invariant

end HxSylar.ByteArray
