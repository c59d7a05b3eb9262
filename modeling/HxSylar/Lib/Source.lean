import HxSylar.Lib.Text

namespace HxSylar.Lib

/-- The bytes a peer sends, in the pieces in which they arrive, and how many each read asked
for, the latest first. -/
structure Source where
  pieces : List Text
  asked : List Nat := []
  deriving DecidableEq, Repr

namespace Source

/-- A read returns one piece or as much of it as was asked for. It returns nothing at the end. -/
def read (s : Source) (k : Nat) : Text × Source :=
  match s.pieces with
  | [] => ([], { s with asked := k :: s.asked })
  | p :: ps =>
    if p.length ≤ k then (p, ⟨ps, k :: s.asked⟩) else (p.take k, ⟨p.drop k :: ps, k :: s.asked⟩)

/-- How many bytes are to come. -/
def size (s : Source) : Nat := (s.pieces.map List.length).sum

theorem read_size (s : Source) (k : Nat) : (s.read k).1.length + (s.read k).2.size = s.size := by
  obtain ⟨pieces, asked⟩ := s
  cases pieces with
  | nil => rfl
  | cons p ps =>
    simp only [read, size]
    split
    · simp
    · simp only [List.length_take, List.map_cons, List.length_drop, List.sum_cons]
      omega

@[simp] theorem read_asked (s : Source) (k : Nat) : (s.read k).2.asked = k :: s.asked := by
  rw [read]
  split
  · rfl
  · split <;> rfl

/-- A read takes from the front. -/
theorem read_flatten (s : Source) (k : Nat) :
    (s.read k).1 ++ (s.read k).2.pieces.flatten = s.pieces.flatten := by
  obtain ⟨pieces, asked⟩ := s
  cases pieces with
  | nil => rfl
  | cons p ps =>
    simp only [read]
    split
    · simp
    · simp [← List.append_assoc]

theorem read_length (s : Source) (k : Nat) : (s.read k).1.length ≤ k := by
  rw [read]
  split
  · simp
  · split
    · assumption
    · rw [List.length_take]
      omega

/-- What a read returns beyond nothing is gone from the source. -/
theorem read_lt {s : Source} {k : Nat} (h : (s.read k).1 ≠ []) : (s.read k).2.size < s.size := by
  have hsize := s.read_size k
  have hpos := List.length_pos_iff.mpr h
  omega

/-- No piece is empty: a read that returns nothing is at the end. -/
def Proper (s : Source) : Prop := ∀ p ∈ s.pieces, p ≠ []

theorem Proper.read {s : Source} (h : s.Proper) (k : Nat) : (s.read k).2.Proper := by
  obtain ⟨pieces, asked⟩ := s
  cases pieces with
  | nil => exact h
  | cons p ps =>
    simp only [Source.read]
    split
    · intro q hq
      exact h q (List.mem_cons_of_mem _ hq)
    · intro q hq
      rcases List.mem_cons.mp hq with rfl | hq
      · rw [ne_eq, List.drop_eq_nil_iff]
        assumption
      · exact h q (List.mem_cons_of_mem _ hq)

/-- A read that may return something does, unless the source has ended. -/
theorem Proper.read_eq_nil_iff {s : Source} (h : s.Proper) {k : Nat} (hk : 0 < k) :
    (s.read k).1 = [] ↔ s.pieces = [] := by
  obtain ⟨pieces, asked⟩ := s
  cases pieces with
  | nil => simp [Source.read]
  | cons p ps =>
    have hp := h p List.mem_cons_self
    simp only [Source.read]
    split
    · simp [hp]
    · simp only [List.take_eq_nil_iff, hp, or_false]
      simp
      omega

/-- The piece in which a byte of the whole lies. -/
theorem exists_piece {pieces : List Text} {front back : Text} {b : UInt8}
    (h : pieces.flatten = front ++ b :: back) :
    ∃ ps x rest x₁ x₂, pieces = ps ++ x :: rest ∧ x = x₁ ++ b :: x₂ ∧
      front = ps.flatten ++ x₁ ∧ back = x₂ ++ rest.flatten := by
  induction pieces generalizing front with
  | nil => simp at h
  | cons x xs ih =>
    rw [List.flatten_cons] at h
    rcases List.append_eq_append_iff.mp h with ⟨ys, rfl, hys⟩ | ⟨ys, rfl, hys⟩
    · obtain ⟨ps, y, rest, x₁, x₂, rfl, rfl, rfl, rfl⟩ := ih hys
      exact ⟨x :: ps, _, rest, x₁, x₂, rfl, rfl, by simp, rfl⟩
    · cases ys with
      | nil =>
        rw [List.nil_append] at hys
        obtain ⟨ps, y, rest, x₁, x₂, rfl, rfl, hnil, rfl⟩ :=
          ih (hys.symm.trans (List.nil_append _).symm)
        obtain ⟨hps, rfl⟩ := List.append_eq_nil_iff.mp hnil.symm
        exact ⟨front :: ps, _, rest, [], x₂, by simp, rfl, by simp [hps], rfl⟩
      | cons y ys =>
        obtain ⟨rfl, rfl⟩ := List.cons.inj hys
        exact ⟨[], _, xs, front, ys, rfl, rfl, rfl, rfl⟩

end Source
end HxSylar.Lib
