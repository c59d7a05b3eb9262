import HxSylar.StringTrim
import Mathlib.Data.List.DropRight

namespace HxSylar.StringUtil
open Lib

/-- `t` is `s` without its longest prefix of bytes in `d`. -/
def WithoutLongestPrefix (d s t : Text) : Prop :=
  ∃ pre, s = pre ++ t ∧ pre ⊆ d ∧ ∀ q, q <+: s → q ⊆ d → q <+: pre

/-- `t` is `s` without its longest suffix of bytes in `d`. -/
def WithoutLongestSuffix (d s t : Text) : Prop :=
  ∃ post, s = t ++ post ∧ post ⊆ d ∧ ∀ q, q <:+ s → q ⊆ d → q <:+ post

/-- What trimming is to do with `s`. -/
structure TrimLaws (s d : Text) : Prop where
  left : WithoutLongestPrefix d s (trimLeft s d)
  right : WithoutLongestSuffix d s (trimRight s d)
  right_then_left : trim s d = trimLeft (trimRight s d) d
  left_then_right : trim s d = trimRight (trimLeft s d) d
  trim_again : trim (trim s d) d = trim s d
  left_again : trimLeft (trimLeft s d) d = trimLeft s d
  right_again : trimRight (trimRight s d) d = trimRight s d

section Find

theorem findFirstNotOf_eq (s d : Text) :
    findFirstNotOf s d =
      if s.dropWhile (· ∈ d) = [] then none else some (s.takeWhile (· ∈ d)).length := by
  induction s with
  | nil => rfl
  | cons c s ih =>
    unfold findFirstNotOf at ih ⊢
    rw [List.findIdx?_cons, ih]
    by_cases hc : c ∈ d
    · simp only [hc, not_true_eq_false, decide_false, Bool.false_eq_true, if_false, decide_true,
        List.dropWhile_cons_of_pos, List.takeWhile_cons_of_pos, List.length_cons]
      split
      · rfl
      · rfl
    · simp [hc]

theorem findLastNotOf_concat (s d : Text) (c : UInt8) :
    findLastNotOf (s ++ [c]) d = if c ∈ d then findLastNotOf s d else some s.length := by
  unfold findLastNotOf
  rw [List.reverse_append, List.reverse_singleton, List.singleton_append, List.findIdx?_cons]
  by_cases hc : c ∈ d
  · rw [if_neg (by simpa using hc), if_pos hc, Option.map_map]
    congr 1
    funext i
    simp only [Function.comp_apply, List.length_append, List.length_singleton]
    omega
  · simp [hc]

/-- The last byte outside of the set is the last one that is kept. -/
theorem findLastNotOf_eq (s d : Text) :
    findLastNotOf s d =
      if s.rdropWhile (· ∈ d) = [] then none else some ((s.rdropWhile (· ∈ d)).length - 1) := by
  induction s using List.reverseRecOn with
  | nil => rfl
  | append_singleton s c ih =>
    rw [findLastNotOf_concat, ih]
    by_cases hc : c ∈ d
    · rw [if_pos hc, List.rdropWhile_concat_pos (p := (· ∈ d)) s c (by simpa using hc)]
    · rw [if_neg hc, List.rdropWhile_concat_neg (p := (· ∈ d)) s c (by simpa using hc),
        if_neg (by simp)]
      simp

end Find

section Trimmed

theorem trimLeft_eq (s d : Text) : trimLeft s d = s.dropWhile (· ∈ d) := by
  rw [trimLeft, findFirstNotOf_eq]
  by_cases hs : s.dropWhile (· ∈ d) = []
  · rw [if_pos hs, hs]
  · rw [if_neg hs]
    have hsplit := List.takeWhile_append_dropWhile (p := (· ∈ d)) (l := s)
    calc s.drop (s.takeWhile (· ∈ d)).length
        = (s.takeWhile (· ∈ d) ++ s.dropWhile (· ∈ d)).drop (s.takeWhile (· ∈ d)).length := by
          rw [hsplit]
      _ = s.dropWhile (· ∈ d) := List.drop_left

/-- The last byte to keep is lost. -/
theorem trimRight_eq (s d : Text) : trimRight s d = (s.rdropWhile (· ∈ d)).dropLast := by
  rw [trimRight, findLastNotOf_eq]
  by_cases hs : s.rdropWhile (· ∈ d) = []
  · rw [if_pos hs, hs]
    rfl
  · rw [if_neg hs]
    have hpre : (s.rdropWhile (· ∈ d)).dropLast <+: s :=
      (List.dropLast_prefix _).trans (List.rdropWhile_prefix _ s)
    have htake := List.prefix_iff_eq_take.mp hpre
    rw [List.length_dropLast] at htake
    exact htake.symm

theorem rdropWhile_append (p : UInt8 → Bool) (s t : Text) :
    (s ++ t).rdropWhile p = if t.rdropWhile p = [] then s.rdropWhile p else s ++ t.rdropWhile p := by
  simp only [List.rdropWhile, List.reverse_append, List.dropWhile_append, List.isEmpty_iff,
    List.reverse_eq_nil_iff]
  split
  · rfl
  · simp

/-- `Trim` does what the two others are to do one after the other. -/
theorem trim_eq (s d : Text) : trim s d = (s.dropWhile (· ∈ d)).rdropWhile (· ∈ d) := by
  rw [trim, findFirstNotOf_eq]
  by_cases hs : s.dropWhile (· ∈ d) = []
  · rw [if_pos hs, hs]
    rfl
  · rw [if_neg hs]
    dsimp only
    have hleft : s.drop (s.takeWhile (· ∈ d)).length = s.dropWhile (· ∈ d) := by
      have hbegin := trimLeft_eq s d
      rwa [trimLeft, findFirstNotOf_eq, if_neg hs] at hbegin
    -- the first byte behind the prefix is kept, so the search from the back stops behind it
    have hkept : (s.dropWhile (· ∈ d)).rdropWhile (· ∈ d) ≠ [] := by
      intro hnil
      have hhead := List.rdropWhile_eq_nil_iff.mp hnil _ (List.head_mem hs)
      rw [List.head_dropWhile_not (· ∈ d) hs] at hhead
      exact Bool.false_ne_true hhead
    have hlast : s.rdropWhile (· ∈ d) =
        s.takeWhile (· ∈ d) ++ (s.dropWhile (· ∈ d)).rdropWhile (· ∈ d) := by
      conv_lhs => rw [← List.takeWhile_append_dropWhile (p := (· ∈ d)) (l := s)]
      rw [rdropWhile_append, if_neg hkept]
    have hpos := List.length_pos_of_ne_nil hkept
    rw [findLastNotOf_eq, hlast, if_neg (by simp [hkept]), Option.getD_some, Text.substr, hleft,
      List.length_append]
    have hcount : (s.takeWhile (· ∈ d)).length + ((s.dropWhile (· ∈ d)).rdropWhile (· ∈ d)).length
        - 1 - (s.takeWhile (· ∈ d)).length + 1
        = ((s.dropWhile (· ∈ d)).rdropWhile (· ∈ d)).length := by omega
    rw [hcount]
    exact (List.prefix_iff_eq_take.mp (List.rdropWhile_prefix _ _)).symm

/-- The delimiters that `PARSE_PARAM` trims with are the default ones. -/
theorem trim_default (s : Text) : trim s (text " \t\r\n") = HxSylar.trim s := by
  rw [trim_eq]
  simp [HxSylar.trim, List.rdropWhile]

end Trimmed

section Laws

theorem prefix_takeWhile {p : UInt8 → Bool} {q s : Text} (hq : q <+: s) (hp : ∀ c ∈ q, p c = true) :
    q <+: s.takeWhile p := by
  obtain ⟨rest, rfl⟩ := hq
  induction q with
  | nil => exact List.nil_prefix
  | cons c q ih =>
    rw [List.cons_append, List.takeWhile_cons_of_pos (hp c List.mem_cons_self),
      List.prefix_cons_inj]
    exact ih fun c hc => hp c (List.mem_cons_of_mem _ hc)

theorem withoutLongestPrefix_trimLeft (s d : Text) : WithoutLongestPrefix d s (trimLeft s d) := by
  refine ⟨s.takeWhile (· ∈ d), ?_, ?_, ?_⟩
  · rw [trimLeft_eq, List.takeWhile_append_dropWhile]
  · intro c hc
    simpa using List.mem_takeWhile_imp hc
  · intro q hq hd
    exact prefix_takeWhile hq fun c hc => decide_eq_true (hd hc)

/-- A text that starts with a byte to keep still does after its end is cut. -/
theorem dropWhile_rdropWhile {p : UInt8 → Bool} {t : Text} (ht : t.dropWhile p = t) :
    (t.rdropWhile p).dropWhile p = t.rdropWhile p := by
  have hpre := List.rdropWhile_prefix p t
  cases hkept : t.rdropWhile p with
  | nil => rfl
  | cons c u =>
    rw [hkept] at hpre
    obtain ⟨post, rfl⟩ := hpre
    by_cases hc : p c = true
    · rw [List.cons_append, List.dropWhile_cons_of_pos hc] at ht
      have hshort := (List.dropWhile_suffix p (l := u ++ post)).length_le
      rw [ht, List.length_cons] at hshort
      omega
    · exact List.dropWhile_cons_of_neg hc

theorem trim_trim (s d : Text) : trim (trim s d) d = trim s d := by
  have hdrop : (trim s d).dropWhile (· ∈ d) = trim s d := by
    rw [trim_eq]
    exact dropWhile_rdropWhile (List.dropWhile_idempotent _ s)
  rw [trim_eq, hdrop, trim_eq, List.rdropWhile_idempotent]

/-- A set that holds every byte of the text takes all of it. -/
theorem trimmed_nil {s d : Text} (h : s ⊆ d) :
    trimLeft s d = [] ∧ trimRight s d = [] ∧ trim s d = [] := by
  have hall : ∀ c ∈ s, decide (c ∈ d) = true := fun c hc => decide_eq_true (h hc)
  have hleft : s.dropWhile (· ∈ d) = [] := List.dropWhile_eq_nil_iff.mpr hall
  have hright : s.rdropWhile (· ∈ d) = [] := List.rdropWhile_eq_nil_iff.mpr hall
  rw [trimLeft_eq, trimRight_eq, trim_eq, hleft, hright]
  exact ⟨rfl, rfl, rfl⟩

/-- The last byte outside of the set is cut off with the suffix, so that the suffix is too long. -/
theorem not_withoutLongestSuffix {s d : Text} (h : ¬s ⊆ d) :
    ¬WithoutLongestSuffix d s (trimRight s d) := by
  intro ⟨post, hsplit, hd, _⟩
  have hne : s.rdropWhile (· ∈ d) ≠ [] := by
    intro hnil
    exact h fun c hc => by simpa using List.rdropWhile_eq_nil_iff.mp hnil c hc
  have hlast := List.rdropWhile_last_not (· ∈ d) s hne
  have hpost : post = (s.rdropWhile (· ∈ d)).getLast hne :: s.rtakeWhile (· ∈ d) := by
    have hwhole : s.rdropWhile (· ∈ d) ++ s.rtakeWhile (· ∈ d) = s :=
      List.rdropWhile_append_rtakeWhile
    rw [← List.dropLast_append_getLast hne, ← trimRight_eq, List.append_assoc] at hwhole
    exact (List.append_cancel_left (hwhole.trans hsplit)).symm
  apply hlast
  exact decide_eq_true (hd (hpost ▸ List.mem_cons_self))

/-- The laws of trimming hold where there is nothing to keep, and nowhere else. -/
theorem trim_laws_iff (s d : Text) : TrimLaws s d ↔ ∀ c ∈ s, c ∈ d := by
  constructor
  · intro hlaws
    by_contra h
    exact not_withoutLongestSuffix h hlaws.right
  · intro h
    obtain ⟨hleft, hright, htrim⟩ := trimmed_nil (d := d) h
    obtain ⟨hleft', hright', -⟩ := trimmed_nil (List.nil_subset d)
    exact {
      left := withoutLongestPrefix_trimLeft s d
      right := ⟨s, by rw [hright, List.nil_append], h, fun q hq _ => hq⟩
      right_then_left := by rw [htrim, hright, hleft']
      left_then_right := by rw [htrim, hleft, hright']
      trim_again := trim_trim s d
      left_again := by rw [hleft, hleft']
      right_again := by rw [hright, hright'] }

/-- `TrimRight("ab ", " ")` is `a`. -/
theorem trimRight_cuts_kept_byte : ¬TrimLaws (text "ab ") (text " ") := by
  intro hlaws
  have hboth : trim (text "ab ") (text " ") = trimLeft (trimRight (text "ab ") (text " ")) (text " ") :=
    hlaws.right_then_left
  exact absurd hboth (by decide)

end Laws

end HxSylar.StringUtil
