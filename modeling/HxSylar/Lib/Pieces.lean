import HxSylar.Lib.Text
import Mathlib.Data.List.Basic

namespace HxSylar.Lib.Pieces
variable {α : Type*}

/-- Texts that end at the same separator are compared piece by piece. -/
theorem append_sep_inj {a : α} {x y s t : List α} (hx : a ∉ x) (hy : a ∉ y) :
    x ++ a :: s = y ++ a :: t ↔ x = y ∧ s = t := by
  induction x generalizing y with
  | nil =>
    cases y with
    | nil => simp
    | cons b y =>
      have hb := (List.ne_and_not_mem_of_not_mem_cons hy).1
      simp [hb]
  | cons c x ih =>
    obtain ⟨hc, hx⟩ := List.ne_and_not_mem_of_not_mem_cons hx
    cases y with
    | nil => simp [hc.symm]
    | cons b y =>
      obtain ⟨-, hy⟩ := List.ne_and_not_mem_of_not_mem_cons hy
      simp only [List.cons_append, List.cons.injEq, ih hx hy, and_assoc]

/-- Texts with the same last separator too. -/
theorem append_last_sep_inj {a : α} {x y s t : List α} (hs : a ∉ s) (ht : a ∉ t) :
    x ++ a :: s = y ++ a :: t ↔ x = y ∧ s = t := by
  have hreversed := append_sep_inj (a := a) (x := s.reverse) (y := t.reverse) (s := x.reverse)
    (t := y.reverse) (by simpa using hs) (by simpa using ht)
  rw [List.reverse_inj, List.reverse_inj] at hreversed
  rw [← List.reverse_inj, and_comm, ← hreversed]
  simp

section Cut
variable [BEq α] [LawfulBEq α] {a : α} {u v : List α}

theorem idxOf?_sep (h : a ∉ u) : (u ++ a :: v).idxOf? a = some u.length := by
  induction u with
  | nil => simp [List.idxOf?_cons]
  | cons b u ih =>
    obtain ⟨hb, hu⟩ := List.ne_and_not_mem_of_not_mem_cons h
    simp [List.idxOf?_cons, hb.symm, ih hu]

theorem takeWhile_sep (h : a ∉ u) : (u ++ a :: v).takeWhile (· != a) = u := by
  induction u with
  | nil => simp
  | cons b u ih =>
    obtain ⟨hb, hu⟩ := List.ne_and_not_mem_of_not_mem_cons h
    simp [hb.symm, ih hu]

theorem dropWhile_sep (h : a ∉ u) : (u ++ a :: v).dropWhile (· != a) = a :: v := by
  induction u with
  | nil => simp
  | cons b u ih =>
    obtain ⟨hb, hu⟩ := List.ne_and_not_mem_of_not_mem_cons h
    simp [hb.symm, ih hu]

/-- A piece has everything from the text but the separator. -/
theorem splitOn_piece {t p : List α} (h : p ∈ t.splitOn a) : a ∉ p ∧ p ⊆ t := by
  induction t generalizing p with
  | nil =>
    rw [List.splitOn_nil, List.mem_singleton] at h
    rw [h]
    exact ⟨List.not_mem_nil, List.Subset.refl _⟩
  | cons b t ih =>
    rw [List.splitOn_cons_eq_if_modifyHead] at h
    split at h
    · rcases List.mem_cons.mp h with rfl | h
      · exact ⟨List.not_mem_nil, List.nil_subset _⟩
      · exact (ih h).imp_right (List.subset_cons_of_subset b)
    · rename_i hb
      obtain ⟨q, qs, hsplit⟩ := List.exists_cons_of_ne_nil (List.splitOn_ne_nil a t)
      rw [hsplit, List.modifyHead_cons] at h
      rw [hsplit] at ih
      rcases List.mem_cons.mp h with rfl | h
      · obtain ⟨hq, hsub⟩ := ih List.mem_cons_self
        refine ⟨?_, List.cons_subset_cons b hsub⟩
        rw [List.mem_cons, not_or]
        exact ⟨fun he => hb (by simp [he]), hq⟩
      · exact (ih (List.mem_cons_of_mem q h)).imp_right (List.subset_cons_of_subset b)

end Cut
end HxSylar.Lib.Pieces
