import HxSylar.Lib.Text
import Mathlib.Data.List.Basic

namespace HxSylar.Lib

/-- The end of a line. -/
def crlf : Text := [13, 10]

/-- A text cut at every end of a line. -/
def lines : Text → List Text
  | 13 :: 10 :: t => [] :: lines t
  | b :: t => (lines t).modifyHead (b :: ·)
  | [] => [[]]

theorem lines_crlf (t : Text) : lines (crlf ++ t) = [] :: lines t := rfl

/-- A byte that does not begin the end of a line belongs to the first one. -/
theorem lines_cons {b : UInt8} {t : Text} (h : b = 13 → t.head? ≠ some 10) :
    lines (b :: t) = (lines t).modifyHead (b :: ·) := by
  rw [lines]
  intro u hb ht
  exact h hb (by rw [ht]; rfl)

theorem lines_ne_nil (t : Text) : lines t ≠ [] := by
  fun_induction lines t with
  | case1 t ih => exact List.cons_ne_nil _ _
  | case2 b t _ ih => simpa using ih
  | case3 => exact List.cons_ne_nil _ _

/-- Texts that are written one after the other as lines are read as such. -/
theorem lines_append (x y : Text) : lines (x ++ (crlf ++ y)) = lines x ++ lines y := by
  fun_induction lines x with
  | case1 x ih =>
    rw [List.cons_append, List.cons_append, lines, ih]
    rfl
  | case2 b x hb ih =>
    have hnext : b = 13 → (x ++ (crlf ++ y)).head? ≠ some 10 := by
      intro h13 h10
      cases x with
      | nil => simp [crlf] at h10
      | cons c x =>
        rw [List.cons_append, List.head?_cons, Option.some.injEq] at h10
        exact hb x h13 (by rw [h10])
    rw [List.cons_append, lines_cons hnext, ih]
    obtain ⟨l, ls, hls⟩ := List.exists_cons_of_ne_nil (lines_ne_nil x)
    rw [hls]
    rfl
  | case3 => rfl

/-- A text with every line ended. -/
def unlines (ls : List Text) : Text := ls.flatMap (· ++ crlf)

theorem unlines_cons (l : Text) (ls : List Text) : unlines (l :: ls) = l ++ (crlf ++ unlines ls) := by
  rw [unlines, List.flatMap_cons, List.append_assoc, unlines]

theorem unlines_append (ls ms : List Text) : unlines (ls ++ ms) = unlines ls ++ unlines ms :=
  List.flatMap_append

theorem lines_unlines (ls : List Text) (y : Text) :
    lines (unlines ls ++ y) = ls.flatMap lines ++ lines y := by
  induction ls with
  | nil => rfl
  | cons l ls ih =>
    rw [unlines_cons, List.append_assoc, List.append_assoc, lines_append, ih, List.flatMap_cons,
      List.append_assoc]

/-- The lines put together again. -/
def joinLines (ls : List Text) : Text := crlf.intercalate ls

theorem joinLines_cons (l : Text) {ls : List Text} (h : ls ≠ []) :
    joinLines (l :: ls) = l ++ (crlf ++ joinLines ls) := by
  rw [joinLines, List.intercalate_cons_of_ne_nil h, List.append_assoc, joinLines]

theorem joinLines_lines (t : Text) : joinLines (lines t) = t := by
  fun_induction lines t with
  | case1 t ih =>
    rw [joinLines_cons [] (lines_ne_nil t), ih]
    rfl
  | case2 b t _ ih =>
    obtain ⟨l, ls, hls⟩ := List.exists_cons_of_ne_nil (lines_ne_nil t)
    rw [hls] at ih ⊢
    cases ls with
    | nil =>
      have hl : l = t := by simpa [joinLines] using ih
      simp [joinLines, hl]
    | cons m ls =>
      rw [joinLines_cons l (List.cons_ne_nil m ls)] at ih
      rw [List.modifyHead_cons, joinLines_cons _ (List.cons_ne_nil m ls), List.cons_append, ih]
  | case3 => rfl

/-- A text without the first byte of an end of a line is one line. -/
theorem lines_eq_singleton {t : Text} (h : 13 ∉ t) : lines t = [t] := by
  induction t with
  | nil => rfl
  | cons b t ih =>
    rw [List.mem_cons, not_or] at h
    rw [lines_cons fun hb => absurd hb.symm h.1, ih h.2]
    rfl

/-- A text that does not begin with an end of a line has a first line. -/
theorem head_lines_ne_nil {b : UInt8} (hb : b ≠ 13) (t : Text) :
    ∃ l ls, lines (b :: t) = (b :: l) :: ls := by
  obtain ⟨l, ls, hls⟩ := List.exists_cons_of_ne_nil (lines_ne_nil t)
  refine ⟨l, ls, ?_⟩
  rw [lines_cons fun h13 => absurd h13 hb, hls]
  rfl

/-- Lines in front make the text longer. -/
theorem length_joinLines_append (ls : List Text) {ms : List Text} (h : ms ≠ []) :
    (joinLines ms).length ≤ (joinLines (ls ++ ms)).length := by
  induction ls with
  | nil => exact Nat.le_refl _
  | cons l ls ih =>
    rw [List.cons_append, joinLines_cons l (List.append_ne_nil_of_right_ne_nil ls h)]
    simp only [List.length_append]
    omega

def isBlank (b : UInt8) : Bool := b == 32 || b == 9

/-- A text without the blanks around it. -/
def strip (t : Text) : Text := ((t.dropWhile isBlank).reverse.dropWhile isBlank).reverse

theorem strip_eq_self {t : Text} (h : ∀ b ∈ t, isBlank b = false) : strip t = t := by
  have hdrop : ∀ u : Text, (∀ b ∈ u, isBlank b = false) → u.dropWhile isBlank = u := by
    intro u hu
    cases u with
    | nil => rfl
    | cons b u => rw [List.dropWhile_cons_of_neg (by rw [hu b (List.mem_cons_self)]; decide)]
  rw [strip, hdrop t h, hdrop t.reverse (fun b hb => h b (List.mem_reverse.mp hb)),
    List.reverse_reverse]

/-- The value of a line `name: value`, if it has this name in any case. -/
def valueOf (name l : Text) : Option Text :=
  if l.contains (byte ':') ∧ (l.takeWhile (· != byte ':')).map toLower = name then
    some (strip (l.dropWhile (· != byte ':')).tail)
  else none

/-- The values that lines give to a name. -/
def values (name : Text) (ls : List Text) : List Text := ls.filterMap (valueOf name)

theorem values_append (name : Text) (ls ms : List Text) :
    values name (ls ++ ms) = values name ls ++ values name ms := List.filterMap_append

theorem values_eq_nil {name : Text} {ls : List Text} :
    values name ls = [] ↔ ∀ l ∈ ls, valueOf name l = none := List.filterMap_eq_nil_iff

/-- The lines between the first line and the first empty one. -/
def headerBlock (t : Text) : List Text := ((lines t).takeWhile (· ≠ [])).tail

/-- What follows the first empty line. -/
def messageBody (t : Text) : Text := joinLines ((lines t).dropWhile (· ≠ [])).tail

theorem cut_at_empty {pre rest : List Text} {t : Text} (hpre : [] ∉ pre)
    (ht : lines t = pre ++ [] :: rest) :
    headerBlock t = pre.tail ∧ messageBody t = joinLines rest := by
  have hall : ∀ l ∈ pre, decide (l ≠ []) = true := by
    intro l hl
    rw [decide_eq_true_eq]
    intro hnil
    exact hpre (hnil ▸ hl)
  constructor
  · rw [headerBlock, ht, List.takeWhile_append_of_pos hall]
    simp
  · rw [messageBody, ht, List.dropWhile_append_of_pos hall]
    simp

end HxSylar.Lib
