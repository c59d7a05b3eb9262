import HxSylar.Proofs.ByteArray

namespace HxSylar.ByteArray
open Lib (splice Uniform)

/-- Two buffers share no byte. -/
def Iovec.Disjoint (u v : Iovec) : Prop :=
  u.node ≠ v.node ∨ u.offset + u.len ≤ v.offset ∨ v.offset + v.len ≤ u.offset

section Gather
variable {base : Nat} {ns : List Node}

theorem gather_isSome (hu : Uniform base ns) {i npos len : Nat} (hp : npos ≤ base) (hl : 0 < len)
    (hfit : npos + len ≤ base * ns.length) : ∃ iovs, gather i npos len ns = some iovs := by
  induction ns generalizing i npos len with
  | nil =>
    simp only [List.length_nil, Nat.mul_zero] at hfit
    omega
  | cons n ns ih =>
    simp only [gather, hu.head]
    split
    · exact ⟨_, rfl⟩
    · rename_i hgt
      rw [List.length_cons, Nat.mul_succ] at hfit
      have hrest : 0 < len - (base - npos) := by omega
      obtain ⟨iovs, he⟩ := ih hu.tail (i := i + 1) (Nat.zero_le base) hrest (by omega)
      exact ⟨_, by rw [he, Option.map_some]⟩

/-- The buffers lie in one node after the other, inside the chain. -/
theorem gather_shape (hu : Uniform base ns) {i npos len : Nat} (hp : npos ≤ base)
    {iovs : List Iovec} (h : gather i npos len ns = some iovs) :
    (iovs.map Iovec.len).sum = len ∧ iovs.Pairwise (fun u v => u.node < v.node) ∧
      ∀ v ∈ iovs, i ≤ v.node ∧ v.node < i + ns.length ∧ v.offset + v.len ≤ base := by
  induction ns generalizing i npos len iovs with
  | nil => cases h
  | cons n ns ih =>
    simp only [gather, hu.head] at h
    split at h
    · cases h
      simp
      omega
    · rename_i hgt
      obtain ⟨rest, hrest, he⟩ := Option.map_eq_some_iff.mp h
      subst he
      obtain ⟨hsum, hpair, hin⟩ := ih hu.tail (Nat.zero_le base) hrest
      refine ⟨?_, ?_, ?_⟩
      · simp only [List.map_cons, List.sum_cons, hsum]
        omega
      · apply List.Pairwise.cons ?_ hpair
        intro v hv
        have hv' := hin v hv
        simp only
        omega
      · intro v hv
        rcases List.mem_cons.mp hv with he | ht
        · subst v
          simp only [List.length_cons]
          omega
        · have hv' := hin v ht
          rw [List.length_cons]
          omega

/-- No buffer is empty. -/
theorem gather_pos (hu : Uniform base ns) {i npos len : Nat} (hp : npos < base)
    (hl : 0 < len) {iovs : List Iovec} (h : gather i npos len ns = some iovs) :
    ∀ v ∈ iovs, 0 < v.len := by
  induction ns generalizing i npos len iovs with
  | nil => cases h
  | cons n ns ih =>
    simp only [gather, hu.head] at h
    split at h
    · cases h
      simpa using hl
    · rename_i hgt
      obtain ⟨rest, hrest, he⟩ := Option.map_eq_some_iff.mp h
      subst he
      intro v hv
      rcases List.mem_cons.mp hv with he | ht
      · subst he
        simp only
        omega
      · exact ih hu.tail (by omega) (by omega) hrest v ht

theorem modify_middle (pre : List Node) (n : Node) (ns : List Node) (f : Node → Node) :
    (pre ++ n :: ns).modify pre.length f = pre ++ f n :: ns := by
  induction pre with
  | nil => rfl
  | cons m pre ih =>
    simp only [List.cons_append, List.length_cons, List.modify_succ_cons, ih]

/-- Filling the first bytes of the buffers writes into the chain in place. -/
theorem fill_gather (hu : Uniform base ns) {i npos len : Nat} (hp : npos ≤ base)
    {iovs : List Iovec} (h : gather i npos len ns = some iovs) {data : List UInt8}
    (hd : data.length ≤ len) {pre : List Node} (hi : pre.length = i) :
    ∃ ns', fill iovs data (pre ++ ns) = pre ++ ns' ∧ Uniform base ns' ∧
      ns'.length = ns.length ∧ ns'.flatten = splice npos data ns.flatten := by
  induction ns generalizing i npos len iovs data pre with
  | nil => cases h
  | cons n ns ih =>
    have hn := hu.head
    simp only [gather, hn] at h
    split at h
    · rename_i hle
      cases h
      refine ⟨splice npos data n :: ns, ?_, Uniform.cons ?_ hu.tail, rfl, ?_⟩
      · rw [fill, fill, List.take_of_length_le hd, ← hi, modify_middle]
      · rw [Lib.splice_length (by omega), hn]
      · rw [List.flatten_cons, List.flatten_cons, Lib.splice_append_left _ (by omega)]
    · rename_i hgt
      obtain ⟨rest, hrest, he⟩ := Option.map_eq_some_iff.mp h
      subst he
      generalize hn' : splice npos (data.take (base - npos)) n = n'
      have hlen : n'.length = base := by
        rw [← hn', Lib.splice_length (by rw [List.length_take]; omega), hn]
      have hd' : (data.drop (base - npos)).length ≤ len - (base - npos) := by
        rw [List.length_drop]
        omega
      have hi' : (pre ++ [n']).length = i + 1 := by
        rw [List.length_append, hi, List.length_singleton]
      obtain ⟨ns', hf, hu', hl, hflat⟩ := ih hu.tail (Nat.zero_le base) hrest hd' hi'
      refine ⟨n' :: ns', ?_, Uniform.cons hlen hu', ?_, ?_⟩
      · rw [fill, ← hi, modify_middle, hn', List.append_cons, hf, List.append_assoc]
        rfl
      · rw [List.length_cons, List.length_cons, hl]
      · rw [List.flatten_cons, List.flatten_cons, hflat, ← hn']
        by_cases hshort : data.length ≤ base - npos
        · -- the data ends in this node and the rest of the chain is left alone
          rw [List.take_of_length_le hshort, List.drop_eq_nil_of_le hshort,
            Lib.splice_append_left _ (by omega)]
          simp [splice]
        · have hcut : (data.take (base - npos)).length = base - npos := by
            rw [List.length_take]
            omega
          have hrest : n.drop (npos + (base - npos)) = [] := List.drop_eq_nil_of_le (by omega)
          rw [Lib.splice_append_across (by omega) (by omega), hn]
          conv => lhs; rw [splice, hcut, hrest, List.append_nil]

/-- The buffers hold the bytes of the chain from the offset on. -/
theorem collect_gather (hu : Uniform base ns) {i npos len : Nat} (hp : npos ≤ base)
    {iovs : List Iovec} (h : gather i npos len ns = some iovs) {pre : List Node}
    (hi : pre.length = i) :
    collect iovs (pre ++ ns) = (ns.flatten.drop npos).take len := by
  induction ns generalizing i npos len iovs pre with
  | nil => cases h
  | cons n ns ih =>
    have hn := hu.head
    have hnode : (pre ++ n :: ns).getD i [] = n := by
      rw [← hi, List.getD_eq_getElem?_getD, List.getElem?_append_right (Nat.le_refl _), Nat.sub_self]
      rfl
    simp only [gather, hn] at h
    rw [List.flatten_cons]
    split at h
    · rename_i hle
      cases h
      rw [collect, List.flatMap_singleton, hnode, List.drop_append_of_le_length (by omega),
        List.take_append_of_le_length (by rw [List.length_drop]; omega)]
    · rename_i hgt
      obtain ⟨rest, hrest, rfl⟩ := Option.map_eq_some_iff.mp h
      have hi' : (pre ++ [n]).length = i + 1 := by
        rw [List.length_append, hi, List.length_singleton]
      have hrest' := ih hu.tail (Nat.zero_le base) hrest hi'
      rw [← List.append_cons, List.drop_zero] at hrest'
      have hfirst : (n.drop npos).length = base - npos := by rw [List.length_drop, hn]
      have hall : (n.drop npos).take (base - npos) = n.drop npos :=
        List.take_of_length_le (Nat.le_of_eq hfirst)
      have hlong : (n.drop npos).take len = n.drop npos := List.take_of_length_le (by omega)
      rw [List.drop_append_of_le_length (by omega), List.take_append, hfirst, hlong, ← hrest',
        collect, List.flatMap_cons, ← collect]
      simp only [hnode, hall]

end Gather

section Scatter
variable {base : Nat} {b : ByteArray}

theorem getWriteBuffers_spec (hb : 1 ≤ base) (h : Rep base b) (garbage : Garbage) {len : Nat}
    (hl : 0 < len) :
    ∃ g iovs, getWriteBuffers garbage len b = .ok (len, iovs) g ∧ Grown base b len g ∧
      gather (g.position / base) (g.position % base) len (g.nodes.drop (g.position / base)) =
        some iovs := by
  have hg := grown_addCapacity hb h garbage len
  generalize hg' : b.addCapacity garbage len = g at hg
  have hfit : g.position + len ≤ g.capacity := by
    rw [hg.position_eq]
    exact hg.enough
  have hlt : g.position < g.capacity := by omega
  obtain ⟨hcur, _, _, hmod⟩ := hg.rep.cur_inside hb hlt
  obtain ⟨iovs, he⟩ := gather_isSome (i := g.position / base)
    (Uniform.drop hg.rep.node_size (g.position / base)) (Nat.le_of_lt hmod) hl
    (hg.rep.room hb hlt hfit)
  refine ⟨g, iovs, ?_, hg, he⟩
  simp only [getWriteBuffers, if_neg (show ¬len = 0 by omega), hg', hcur, hg.rep.baseSize_eq, he]

/-- The filled chain is the old one with the data written at the position. -/
theorem fill_buffers (hb : 1 ≤ base) (h : Rep base b) (hlt : b.position < b.capacity) {len : Nat}
    {iovs : List Iovec}
    (he : gather (b.position / base) (b.position % base) len (b.nodes.drop (b.position / base)) =
      some iovs) {data : List UInt8} (hd : data.length ≤ len) :
    Uniform base (fill iovs data b.nodes) ∧ (fill iovs data b.nodes).length = b.nodes.length ∧
      (fill iovs data b.nodes).flatten = splice b.position data b.flat := by
  obtain ⟨_, hin, hdiv, hmod⟩ := h.cur_inside hb hlt
  have hu : Uniform base b.nodes := h.node_size
  have hpre : (b.nodes.take (b.position / base)).length = b.position / base := by
    rw [List.length_take, Nat.min_eq_left (Nat.le_of_lt hin)]
  obtain ⟨ns, hf, hns, hlen, hflat⟩ :=
    fill_gather (hu.drop _) (Nat.le_of_lt hmod) he hd hpre
  rw [List.take_append_drop] at hf
  rw [hf]
  refine ⟨(hu.take _).append hns, ?_, ?_⟩
  · rw [List.length_append, hlen, ← List.length_append, List.take_append_drop]
  · rw [List.flatten_append, hflat, hu.splice_drop data (Nat.le_of_lt hin), hdiv, flat]

/-- The buffers of `len` bytes from `pos` on, inside the chain. -/
theorem gather_window (hb : 1 ≤ base) (h : Rep base b) {pos len : Nat} (hl : 0 < len)
    (hfit : pos + len ≤ b.capacity) :
    ∃ iovs, gather (pos / base) (pos % base) len (b.nodes.drop (pos / base)) = some iovs ∧
      (iovs.map Iovec.len).sum = len ∧
      (∀ v ∈ iovs, 0 < v.len ∧ v.node < b.nodes.length ∧ v.offset + v.len ≤ base) ∧
      collect iovs b.nodes = (b.flat.drop pos).take len := by
  have hu : Uniform base b.nodes := h.node_size
  have hmod := Nat.mod_lt pos hb
  have hdiv := Nat.div_add_mod pos base
  have hin : pos / base < b.nodes.length := by
    rw [Nat.div_lt_iff_lt_mul hb, Nat.mul_comm, ← h.capacity_eq]
    omega
  have hroom : pos % base + len ≤ base * (b.nodes.drop (pos / base)).length := by
    rw [List.length_drop, Nat.mul_sub, ← h.capacity_eq]
    omega
  obtain ⟨iovs, he⟩ := gather_isSome (i := pos / base) (hu.drop (pos / base)) (Nat.le_of_lt hmod) hl
    hroom
  have hpre : (b.nodes.take (pos / base)).length = pos / base := by
    rw [List.length_take, Nat.min_eq_left (Nat.le_of_lt hin)]
  obtain ⟨hsum, -, hbound⟩ := gather_shape (hu.drop _) (Nat.le_of_lt hmod) he
  refine ⟨iovs, he, hsum, ?_, ?_⟩
  · intro v hv
    obtain ⟨-, hupper, hoff⟩ := hbound v hv
    rw [List.length_drop] at hupper
    exact ⟨gather_pos (hu.drop _) hmod hl he v hv, by omega, hoff⟩
  · have hcollect := collect_gather (hu.drop _) (Nat.le_of_lt hmod) he hpre
    rw [List.take_append_drop, hu.flatten_drop, List.drop_drop, hdiv] at hcollect
    exact hcollect

/-- What `getReadBuffers` offers are the next bytes. -/
theorem getReadBuffers_spec (hb : 1 ≤ base) (h : Rep base b) {len : Nat} (hl : 0 < len)
    (hread : len ≤ b.getReadSize) :
    ∃ iovs, getReadBuffers len b = .ok (len, iovs) b ∧ (iovs.map Iovec.len).sum = len ∧
      (∀ v ∈ iovs, 0 < v.len ∧ v.node < b.nodes.length ∧ v.offset + v.len ≤ base) ∧
      collect iovs b.nodes = b.unread.take len := by
  rw [h.getReadSize_eq] at hread
  have hsize := h.size_le
  obtain ⟨hcur, -⟩ := h.cur_inside hb (by omega)
  obtain ⟨iovs, he, hsum, hbound, hcollect⟩ := gather_window hb h hl
    (show b.position + len ≤ b.capacity by omega)
  refine ⟨iovs, ?_, hsum, hbound, ?_⟩
  · simp only [getReadBuffers, h.getReadSize_eq, if_neg (show ¬b.size - b.position < len by omega),
      if_neg (show ¬len = 0 by omega), hcur, h.baseSize_eq, he]
  · rw [hcollect, unread, contents, List.drop_take, List.take_take, Nat.min_eq_left hread]

/-- Receiving into the buffers of `getWriteBuffers` and moving the position on writes the bytes at
the position. -/
theorem scatter_spec (hb : 1 ≤ base) (h : Rep base b) (garbage : Garbage) {len : Nat}
    (hl : 0 < len) :
    ∃ iovs g, getWriteBuffers garbage len b = .ok (len, iovs) g ∧ Grown base b len g ∧
      iovs.Pairwise (fun u v => u.node < v.node) ∧ (iovs.map Iovec.len).sum = len ∧
      (∀ v ∈ iovs, v.node < g.nodes.length ∧ v.offset + v.len ≤ base) ∧
      ∀ data : List UInt8, data.length ≤ len →
        Rep base { g with nodes := fill iovs data g.nodes } ∧
        ({ g with nodes := fill iovs data g.nodes }.moveTo (g.position + data.length)).contents =
          splice b.position data b.contents := by
  obtain ⟨g, iovs, hget, hg, hgather⟩ := getWriteBuffers_spec hb h garbage hl
  have hfit : g.position + len ≤ g.capacity := by
    rw [hg.position_eq]
    exact hg.enough
  have hlt : g.position < g.capacity := by omega
  obtain ⟨_, hin, _, hmod⟩ := hg.rep.cur_inside hb hlt
  obtain ⟨hsum, hpair, hbound⟩ := gather_shape (Uniform.drop hg.rep.node_size _)
    (Nat.le_of_lt hmod) hgather
  refine ⟨iovs, g, hget, hg, hpair, hsum, ?_, ?_⟩
  · intro v hv
    obtain ⟨_, hupper, hoff⟩ := hbound v hv
    rw [List.length_drop] at hupper
    exact ⟨by omega, hoff⟩
  · intro data hk
    obtain ⟨hu, hlen, hflat⟩ := fill_buffers hb hg.rep hlt hgather hk
    refine ⟨hg.rep.with_nodes hu hlen, ?_⟩
    have hsize : g.size ≤ g.flat.length := by
      rw [hg.rep.flat_length]
      exact hg.rep.size_le
    have ht := Lib.take_splice data hg.rep.position_le hsize
    rw [← hg.contents_eq h, ← hg.position_eq]
    simp only [contents, flat, moveTo, hflat] at ht ⊢
    exact ht

/-- Receiving into the buffers of `getWriteBuffers(len)` and moving the position on is
the same as writing the received bytes, whatever the two ways find in fresh memory. -/
theorem scatter_eq_write (hb : 1 ≤ base) {host : Endian} (hr : (machine host base).Reachable b)
    {len : Nat} (hl : 1 ≤ len) (garbage garbage' : Garbage) {data : List UInt8}
    (hk : data.length ≤ len) :
    ∃ iovs b₁ b₂ b₃, getWriteBuffers garbage len b = .ok (len, iovs) b₁ ∧
      iovs.Pairwise Iovec.Disjoint ∧ (iovs.map Iovec.len).sum = len ∧
      (∀ v ∈ iovs, v.node < b₁.nodes.length ∧ v.offset + v.len ≤ base) ∧
      setPosition (b₁.position + data.length) { b₁ with nodes := fill iovs data b₁.nodes } =
        .ok () b₂ ∧
      write garbage' data b = .ok () b₃ ∧
      b₂.contents = b₃.contents ∧ b₂.position = b₃.position ∧ b₂.size = b₃.size := by
  have h := rep_reachable hb hr
  obtain ⟨iovs, g, hget, hg, hpair, hsum, hbound, hfill⟩ := scatter_spec hb h garbage hl
  obtain ⟨hrep, hcontents⟩ := hfill data hk
  have hfit : g.position + data.length ≤ g.capacity := by
    have henough := hg.enough
    rw [hg.position_eq]
    omega
  obtain ⟨w, hwrite, hw⟩ := write_spec hb h garbage' data
  refine ⟨iovs, g, _, w, hget, ?_, hsum, hbound, setPosition_eq hb hrep hfit, hwrite, ?_, ?_, ?_⟩
  · apply hpair.imp
    intro u v huv
    exact .inl (Nat.ne_of_lt huv)
  · rw [hw.contents_eq]
    exact hcontents
  · rw [hw.position_eq, ← hg.position_eq]
    rfl
  · rw [hw.size_eq, ← hg.position_eq, ← hg.size_eq]
    rfl

/-- Five of eight bytes into nodes of three, from the end of a full node. -/
theorem scatter_eq_write_at_border :
    ∃ b, (machine .little 3).Reachable b ∧ b.cur = none ∧
      ∃ iovs b₁ b₂ b₃, getWriteBuffers (fun _ _ => 1) 8 b = .ok (8, iovs) b₁ ∧
        iovs.Pairwise Iovec.Disjoint ∧ (iovs.map Iovec.len).sum = 8 ∧
        (∀ v ∈ iovs, v.node < b₁.nodes.length ∧ v.offset + v.len ≤ 3) ∧
        setPosition (b₁.position + 5) { b₁ with nodes := fill iovs [1, 2, 3, 4, 5] b₁.nodes } =
          .ok () b₂ ∧
        write (fun _ _ => 2) [1, 2, 3, 4, 5] b = .ok () b₃ ∧
        b₂.contents = b₃.contents ∧ b₂.position = b₃.position ∧ b₂.size = b₃.size := by
  obtain ⟨b, hr, hp⟩ := Lib.Machine.exists_of_exec (machine .little 3)
    (s := create 3 (fun _ _ => 0)) (fun b => b.cur = none)
    [.write (fun _ _ => 0) [7, 8, 9]] ⟨_, rfl⟩ (by decide)
  exact ⟨b, hr, hp, scatter_eq_write (by decide) hr (by decide) _ _ (by decide)⟩

end Scatter
end HxSylar.ByteArray
