import HxSylar.Proofs.Scatter

namespace HxSylar.ByteArray

/-- What `addCapacity(size)` is to leave behind. -/
structure GrowsToFit (b : ByteArray) (size : Nat) (b' : ByteArray) : Prop where
  enough : size ≤ b'.getCapacity
  just_enough : b'.nodes ≠ b.nodes → b'.getCapacity < size + b.baseSize
  nodes_kept : b.nodes <+: b'.nodes
  capacity_eq : b'.capacity = (b'.nodes.map List.length).sum
  rest_kept : b'.baseSize = b.baseSize ∧ b'.position = b.position ∧ b'.size = b.size ∧
    b'.endian = b.endian
  cur_kept : b.cur ≠ none → b'.cur = b.cur
  cur_live : 0 < size → ∃ c, b'.cur = some c ∧ c < b'.nodes.length

section Fit
variable {base : Nat} {b : ByteArray}

theorem Rep.capacity_sum (h : Rep base b) : b.capacity = (b.nodes.map List.length).sum := by
  rw [← h.flat_length, flat, List.length_flatten]

theorem prefix_nodes (hb : 1 ≤ base) (h : Rep base b) (garbage : Garbage) (size : Nat) :
    b.nodes <+: (b.addCapacity garbage size).nodes := by
  rw [addCapacity_eq hb h]
  split
  · exact List.prefix_rfl
  · exact List.prefix_append _ _

/-- Only a null cursor is set. -/
theorem cur_kept (hb : 1 ≤ base) (h : Rep base b) (garbage : Garbage) (size : Nat)
    (hcur : b.cur ≠ none) : (b.addCapacity garbage size).cur = b.cur := by
  have hinside : b.position ≠ b.capacity := by
    intro he
    exact hcur (h.cur_eq.trans (if_pos he))
  rw [addCapacity_eq hb h]
  split
  · rfl
  · exact if_neg hinside

theorem growsToFit_addCapacity (hb : 1 ≤ base) (h : Rep base b) (garbage : Garbage) (size : Nat) :
    GrowsToFit b size (b.addCapacity garbage size) := by
  have hg := grown_addCapacity hb h garbage size
  have hfree := hg.rep.getCapacity_eq
  rw [hg.position_eq] at hfree
  have henough := hg.enough
  refine ⟨by omega, ?_, prefix_nodes hb h garbage size, hg.rep.capacity_sum,
    ⟨hg.rep.baseSize_eq.trans h.baseSize_eq.symm, hg.position_eq, hg.size_eq, hg.endian_eq⟩,
    cur_kept hb h garbage size, ?_⟩
  · intro hgrew
    have hmore : (b.addCapacity garbage size).capacity ≠ b.capacity := by
      intro hsame
      rw [hg.rep.capacity_eq, h.capacity_eq] at hsame
      have hlen := Nat.eq_of_mul_eq_mul_left hb hsame
      exact hgrew ((prefix_nodes hb h garbage size).eq_of_length hlen.symm).symm
    have hle := Nat.le_trans h.position_le h.size_le
    have hless := hg.no_more.resolve_left hmore
    rw [h.baseSize_eq]
    omega
  · intro hsize
    have hp : (b.addCapacity garbage size).position < (b.addCapacity garbage size).capacity := by
      rw [hg.position_eq]
      omega
    obtain ⟨hcur, hin, -, -⟩ := hg.rep.cur_inside hb hp
    exact ⟨_, hcur, hin⟩

/-- The loop that lists the buffers finds a node for each of them. -/
theorem getWriteBuffers_returns (hb : 1 ≤ base) (h : Rep base b) (garbage : Garbage) (len : Nat) :
    ∃ iovs b', getWriteBuffers garbage len b = .ok (len, iovs) b' := by
  by_cases hl : len = 0
  · subst hl
    exact ⟨[], b, rfl⟩
  · obtain ⟨b', iovs, hget, -⟩ := getWriteBuffers_spec hb h garbage (Nat.pos_of_ne_zero hl)
    exact ⟨iovs, b', hget⟩

/-- After `addCapacity` the chain is as long as needed, and the two loops that rely on it meet no
null node. -/
theorem capacity_growth (hb : 1 ≤ base) {host : Endian} (hr : (machine host base).Reachable b)
    (garbage : Garbage) :
    (∀ size, GrowsToFit b size (b.addCapacity garbage size)) ∧
    (∀ data, ∃ b', write garbage data b = .ok () b') ∧
    ∀ len, ∃ iovs b', getWriteBuffers garbage len b = .ok (len, iovs) b' := by
  have h := rep_reachable hb hr
  refine ⟨growsToFit_addCapacity hb h garbage, ?_, getWriteBuffers_returns hb h garbage⟩
  intro data
  obtain ⟨b', hw, -⟩ := write_spec hb h garbage data
  exact ⟨b', hw⟩

/-- After an exact fit the cursor is null, and the next growth sets it. -/
theorem capacity_growth_exact_fit :
    ∃ b, (machine .little 2).Reachable b ∧ b.cur = none ∧
      GrowsToFit b 3 (b.addCapacity (fun _ _ => 0) 3) ∧
      (b.addCapacity (fun _ _ => 0) 3).cur = some 2 := by
  obtain ⟨b, hr, hcur, hgrown⟩ := Lib.Machine.exists_of_exec (machine .little 2)
    (s := create 2 (fun _ _ => 0))
    (fun b => b.cur = none ∧ (b.addCapacity (fun _ _ => 0) 3).cur = some 2)
    [.write (fun _ _ => 0) [1, 2, 3], .setPosition 1, .write (fun _ _ => 0) [4, 5, 6]] ⟨_, rfl⟩
    (by decide)
  exact ⟨b, hr, hcur, (capacity_growth (by decide) hr (fun _ _ => 0)).1 3, hgrown⟩

end Fit

end HxSylar.ByteArray
