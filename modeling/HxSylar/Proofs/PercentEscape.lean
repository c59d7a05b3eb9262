import HxSylar.LogFormat
import HxSylar.Proofs.PatternAppend
import HxSylar.Lib.Pieces

namespace HxSylar
open Lib

/-- Each `%` of a text doubled. -/
def percentEscaped (s : Text) : Text :=
  s.flatMap fun b => if b = byte '%' then [byte '%', byte '%'] else [b]

namespace LogFormatter
open PatternToken

section Escape

@[simp] theorem percentEscaped_nil : percentEscaped [] = [] := rfl

theorem percentEscaped_percent (s : Text) :
    percentEscaped (byte '%' :: s) = byte '%' :: byte '%' :: percentEscaped s := rfl

theorem percentEscaped_cons {b : UInt8} (hb : b ≠ byte '%') (s : Text) :
    percentEscaped (b :: s) = b :: percentEscaped s := by
  simp [percentEscaped, hb]

theorem percentEscaped_append (s t : Text) :
    percentEscaped (s ++ t) = percentEscaped s ++ percentEscaped t := by
  simp [percentEscaped]

theorem percentEscaped_same {s : Text} (hs : byte '%' ∉ s) : percentEscaped s = s := by
  induction s with
  | nil => rfl
  | cons b s ih =>
    obtain ⟨hb, hs⟩ := List.ne_and_not_mem_of_not_mem_cons hs
    rw [percentEscaped_cons hb.symm, ih hs]

/-- Doubling adds no byte of another kind. -/
theorem mem_percentEscaped {b : UInt8} {s : Text} : b ∈ percentEscaped s ↔ b ∈ s := by
  induction s with
  | nil => simp
  | cons c s ih =>
    by_cases hc : c = byte '%'
    · rw [hc, percentEscaped_percent]
      simp [ih]
    · rw [percentEscaped_cons hc]
      simp [ih]

/-- What the text begins with is what it began with. -/
theorem head_percentEscaped (s : Text) : (percentEscaped s).head? = s.head? := by
  cases s with
  | nil => rfl
  | cons b s =>
    by_cases hb : b = byte '%'
    · rw [hb, percentEscaped_percent]
      rfl
    · rw [percentEscaped_cons hb]
      rfl

end Escape

section Directive
variable {p : Text} {i : Nat}

/-- Behind an opening brace the name is not changed any more, if there is a closing one. -/
theorem scanDirective_opened_str {fuel n begin : Nat} {str : Text}
    (h : (scanDirective p i fuel n (some begin) str).closed = true) :
    (scanDirective p i fuel n (some begin) str).str = str := by
  induction fuel generalizing n str with
  | zero => cases h
  | succ fuel ih =>
    cases hch : p[n]? with
    | none =>
      rw [scanDirective_end hch] at h
      cases h
    | some ch =>
      rw [scanDirective_opened hch] at h ⊢
      split
      · rfl
      · rename_i hbrace
        rw [if_neg hbrace] at h
        by_cases hlast : n + 1 = p.length ∧ str = []
        · have hend : p[n + 1]? = none := List.getElem?_eq_none (Nat.le_of_eq hlast.1.symm)
          rw [scanDirective_end hend] at h
          cases h
        · rw [if_neg hlast] at h ⊢
          exact ih h

/-- Without a closing brace the directive is not closed. -/
theorem scanDirective_unclosed {fuel n begin : Nat} {str : Text} (h : byte '\x7d' ∉ p.drop n) :
    (scanDirective p i fuel n (some begin) str).closed = false := by
  induction fuel generalizing n str with
  | zero => rfl
  | succ fuel ih =>
    cases hch : p[n]? with
    | none =>
      rw [scanDirective_end hch]
      rfl
    | some ch =>
      have hdrop := List.drop_eq_getElem?_toList_append (l := p) (i := n)
      rw [hch] at hdrop
      have hne : ch ≠ byte '\x7d' := by
        intro heq
        apply h
        rw [hdrop, heq]
        exact List.mem_cons_self
      rw [scanDirective_opened hch, if_neg hne]
      apply ih
      intro hmem
      apply h
      rw [hdrop]
      exact List.mem_cons_of_mem ch hmem

/-- A byte that goes on with a name. -/
def GoesOn (b : UInt8) : Bool := isAlpha b || b == byte '\x7d'

/-- What has been read of a name, and all that goes on with it, stands in front of it. -/
theorem scanDirective_prefix {fuel n : Nat} (done : Text) {rest : Text} (hn : n = i + 1 + done.length)
    (hp : p.drop (i + 1) = done ++ rest) (hrest : rest ≠ []) (hfuel : rest.length ≤ fuel)
    (h : (scanDirective p i fuel n none []).closed = true) :
    done ++ rest.takeWhile GoesOn <+: (scanDirective p i fuel n none []).str := by
  induction rest generalizing fuel n done with
  | nil => exact absurd rfl hrest
  | cons ch rest ih =>
    obtain ⟨fuel, rfl⟩ := Nat.exists_eq_add_one.mpr (Nat.zero_lt_of_lt hfuel)
    have hdrop : p.drop n = ch :: rest := by
      rw [hn, ← List.drop_drop, hp, List.drop_left]
    obtain ⟨hch, hnext⟩ := drop_cons hdrop
    have hname : p.substr (i + 1) (n - i - 1) = done := by
      have hlen : n - i - 1 = done.length := by omega
      rw [hlen]
      exact substr_drop hp
    rw [scanDirective_unopened hch] at h ⊢
    by_cases hgoes : GoesOn ch = true
    · have hstay : (!isAlpha ch && ch != byte '\x7b' && ch != byte '\x7d') = false := by
        simp only [GoesOn, Bool.or_eq_true, beq_iff_eq] at hgoes
        obtain halpha | hbrace := hgoes
        · simp [halpha]
        · simp [hbrace]
      have hopen : ch ≠ byte '\x7b' := by
        intro heq
        rw [heq] at hgoes
        revert hgoes
        decide
      have hlength := drop_length hdrop (List.cons_ne_nil ch rest)
      rw [List.length_cons] at hlength
      rw [hstay, if_neg Bool.false_ne_true, if_neg hopen] at h ⊢
      rw [List.takeWhile_cons_of_pos hgoes]
      by_cases hlast : rest = []
      · have hend : n + 1 = p.length := by
          rw [hlength, hlast]
          rfl
        rw [if_pos ⟨hend, rfl⟩, scanDirective_end (List.getElem?_eq_none (Nat.le_of_eq hend.symm)),
          hp, hlast]
        exact List.prefix_rfl
      · have hmore : ¬(n + 1 = p.length ∧ ([] : Text) = []) := by
          have hpos := List.length_pos_of_ne_nil hlast
          omega
        rw [if_neg hmore] at h ⊢
        have hprefix := ih (n := n + 1) (done ++ [ch]) (by simp; omega) (by simp [hp]) hlast
          (Nat.le_of_succ_le_succ hfuel) h
        rwa [List.append_assoc] at hprefix
    · rw [List.takeWhile_cons_of_neg hgoes, List.append_nil]
      split
      · rw [hname]
      · rename_i hstay
        rw [if_neg hstay] at h
        have hopen : ch = byte '\x7b' := by
          simp only [GoesOn, Bool.or_eq_true, beq_iff_eq, not_or] at hgoes
          simpa [hgoes] using hstay
        rw [if_pos hopen] at h ⊢
        rw [scanDirective_opened_str h, hname]

/-- Before anything of a name is read, it is empty. -/
theorem scanDirective_empty {ch : UInt8} {rest : Text} (hp : p.drop (i + 1) = ch :: rest)
    (hgoes : GoesOn ch = false) (h : (directiveAt p i).closed = true) :
    (directiveAt p i).str = [] := by
  have hlength := drop_length hp (List.cons_ne_nil ch rest)
  obtain ⟨fuel, hfuel⟩ : ∃ fuel, p.length = fuel + 1 := ⟨p.length - 1, by omega⟩
  have hname : p.substr (i + 1) (i + 1 - i - 1) = [] := by
    have hzero : i + 1 - i - 1 = 0 := by omega
    rw [hzero]
    exact List.take_zero
  rw [directiveAt, hfuel, scanDirective_unopened (drop_cons hp).1, hname] at h ⊢
  split
  · rfl
  · rename_i hstay
    rw [if_neg hstay] at h
    have hopen : ch = byte '\x7b' := by
      simp only [GoesOn, Bool.or_eq_false_iff, beq_eq_false_iff_ne] at hgoes
      simpa [hgoes] using hstay
    rw [if_pos hopen] at h ⊢
    exact scanDirective_opened_str h

/-- A letter and an opening brace that is not closed. -/
theorem scanDirective_never_closed {b : UInt8} {rest : Text} (hb : isAlpha b = true)
    (hp : p.drop (i + 1) = b :: byte '\x7b' :: rest) (hrest : byte '\x7d' ∉ rest) :
    (directiveAt p i).closed = false := by
  have hlength := drop_length hp (List.cons_ne_nil b _)
  rw [List.length_cons] at hlength
  obtain ⟨fuel, hfuel⟩ : ∃ fuel, p.length = fuel + 2 := ⟨p.length - 2, by
    rw [List.length_cons] at hlength
    omega⟩
  obtain ⟨_, hopen⟩ := drop_cons hp
  obtain ⟨hat, hnext⟩ := drop_cons hopen
  rw [directiveAt, hfuel, scanDirective_letter hb hp, if_neg (List.cons_ne_nil _ _),
    scanDirective_unopened hat]
  rw [if_neg (by decide), if_pos rfl]
  exact scanDirective_unclosed (by rwa [hnext])

theorem known_ne_nil {name : Text} (h : name ∈ formatItems.map Prod.fst) : name ≠ [] := by
  obtain ⟨b, rfl, _⟩ := known_letter h
  exact List.cons_ne_nil b []

/-- What the inner loop has read: a name of one letter and a format, in front of a text. -/
structure Reads (p : Text) (i : Nat) (c : UInt8) (fmt rest : Text) : Prop where
  str : (directiveAt p i).str = [c]
  fmt : (directiveAt p i).fmt = percentEscaped fmt
  behind : p.drop (directiveAt p i).n = percentEscaped rest

/-- A directive of one letter in front of a text: its format is in braces or empty. -/
def Spells (r : Text) (c : UInt8) (fmt rest : Text) : Prop :=
  r = c :: rest ∧ fmt = [] ∨ r = c :: byte '\x7b' :: (fmt ++ byte '\x7d' :: rest)

theorem reads_plain {c : UInt8} {rest : Text} (hc : isAlpha c = true)
    (hends : ∀ y, (percentEscaped rest).head? = some y → ¬Extends y)
    (hp : p.drop (i + 1) = c :: percentEscaped rest) : Reads p i c [] rest := by
  have hplain : directiveAt p i = { str := [c], fmt := [], closed := true, n := i + 2 } :=
    scanDirective_plain hc hends hp
  constructor
  · rw [hplain]
  · rw [hplain]
    rfl
  · rw [hplain]
    exact (drop_cons hp).2

theorem reads_braced {c : UInt8} {fmt rest : Text} (hc : isAlpha c = true) (hfmt : byte '\x7d' ∉ fmt)
    (hp : p.drop (i + 1) =
      c :: byte '\x7b' :: (percentEscaped fmt ++ byte '\x7d' :: percentEscaped rest)) :
    Reads p i c fmt rest := by
  have hbraced : directiveAt p i =
      { str := [c], fmt := percentEscaped fmt, closed := true, n := i + (percentEscaped fmt).length + 4 } :=
    scanDirective_braced hc (fun h => hfmt (mem_percentEscaped.mp h)) hp
  have hlength : i + (percentEscaped fmt).length + 4 = i + 1 + ((percentEscaped fmt).length + 3) := by
    omega
  constructor
  · rw [hbraced]
  · rw [hbraced]
  · rw [hbraced]
    dsimp only
    rw [hlength, ← List.drop_drop, hp]
    simp

/-- A text that neither goes on with the name nor opens a format ends the directive. -/
theorem ends_of_stops {s : Text} (hstops : s.takeWhile GoesOn = [])
    (hopen : s.head? ≠ some (byte '\x7b')) : ∀ y, s.head? = some y → ¬Extends y := by
  intro y hy hextends
  obtain ⟨rest, rfl⟩ := List.head?_eq_some_iff.mp hy
  have hgoes : GoesOn y = true := by
    simp only [GoesOn, Bool.or_eq_true, beq_iff_eq]
    obtain halpha | hbrace | hbrace := hextends
    · exact Or.inl halpha
    · exact absurd (congrArg some hbrace) hopen
    · exact Or.inr hbrace
  rw [List.takeWhile_cons_of_pos hgoes] at hstops
  cases hstops

/-- What stands behind a `%`, in a text whose own `%` are doubled, where a known directive is read:
a letter, and a format in braces or none. -/
theorem directive_shape {r : Text} (hp : p.drop (i + 1) = percentEscaped r)
    (hr : r.head? ≠ some (byte '%'))
    (hclosed : (directiveAt p i).closed = true)
    (hknown : (directiveAt p i).str ∈ formatItems.map Prod.fst) :
    ∃ c fmt rest, Reads p i c fmt rest ∧ Spells r c fmt rest := by
  cases r with
  | nil =>
    have hend : p[i + 1]? = none := by
      rw [← List.head?_drop, hp]
      rfl
    rw [directiveAt, scanDirective_end hend] at hknown
    exact absurd rfl (known_ne_nil hknown)
  | cons c t =>
    have hc : c ≠ byte '%' := by
      intro heq
      exact hr (congrArg some heq)
    rw [percentEscaped_cons hc] at hp
    have hlength := drop_length hp (List.cons_ne_nil c _)
    by_cases hgoes : GoesOn c = true
    · have hprefix : [] ++ (c :: percentEscaped t).takeWhile GoesOn <+: (directiveAt p i).str :=
        scanDirective_prefix [] rfl hp (List.cons_ne_nil c _) (by omega) hclosed
      obtain ⟨b, hstr, hb⟩ := known_letter hknown
      rw [hstr, List.nil_append, List.takeWhile_cons_of_pos hgoes, List.cons_prefix_cons] at hprefix
      obtain ⟨rfl, hstops⟩ := hprefix
      rw [List.prefix_nil] at hstops
      by_cases hopen : t.head? = some (byte '\x7b')
      · obtain ⟨t, rfl⟩ := List.head?_eq_some_iff.mp hopen
        rw [percentEscaped_cons (by decide)] at hp
        by_cases hbrace : byte '\x7d' ∈ t
        · obtain ⟨fmt, rest, rfl, hfmt⟩ := List.eq_append_cons_of_mem hbrace
          rw [percentEscaped_append, percentEscaped_cons (by decide)] at hp
          exact ⟨c, fmt, rest, reads_braced hb hfmt hp, Or.inr rfl⟩
        · rw [scanDirective_never_closed hb hp (fun h => hbrace (mem_percentEscaped.mp h))] at hclosed
          cases hclosed
      · have hends := ends_of_stops hstops (by rwa [head_percentEscaped])
        exact ⟨c, [], t, reads_plain hb hends hp, Or.inl ⟨rfl, rfl⟩⟩
    · exact absurd (scanDirective_empty hp (Bool.eq_false_iff.mpr hgoes) hclosed)
        (known_ne_nil hknown)

end Directive

/-- What the C library says of `strftime`: `%%` is written as `%` and other bytes as they are, and the
default format as numbers with `-`, `:` and a blank between them. -/
structure Conforms (strftime : Text → UInt64 → Text) : Prop where
  copies : ∀ t time, 0 ∉ t → strftime (percentEscaped t) time = t
  numbers : ∀ b ∈ strftime defaultDateTime 0,
    isDigit b = true ∨ b = byte '-' ∨ b = byte ':' ∨ b = byte ' '

section Names
variable {strftime : Text → UInt64 → Text}

/-- A letter that is the name of a directive. -/
def isName (b : UInt8) : Bool := (formatItems.map Prod.fst).flatten.contains b

/-- A byte of the default format's text. -/
def dateByte (b : UInt8) : Bool := isDigit b || b == byte '-' || b == byte ':' || b == byte ' '

theorem dateByte_iff (b : UInt8) : dateByte b = true ↔
    isDigit b = true ∨ b = byte '-' ∨ b = byte ':' ∨ b = byte ' ' := by
  simp [dateByte, or_assoc]

/-- An item as it is written for an event without texts at the time 0. -/
def quiet (strftime : Text → UInt64 → Text) : FormatItem → Text :=
  FormatItem.format ⟨strftime, []⟩ .debug {}

theorem cstr_cons {b : UInt8} (hb : b ≠ 0) (t : Text) : Text.cstr (b :: t) = b :: t.cstr := by
  simp [Text.cstr, hb]

theorem cstr_percentEscaped (t : Text) : (percentEscaped t).cstr = percentEscaped t.cstr := by
  induction t with
  | nil => rfl
  | cons b t ih =>
    by_cases hb : b = byte '%'
    · have hne : byte '%' ≠ 0 := by decide
      rw [hb, percentEscaped_percent, cstr_cons hne, cstr_cons hne, ih, cstr_cons hne,
        percentEscaped_percent]
    · rw [percentEscaped_cons hb]
      by_cases hzero : b = 0
      · subst b
        rfl
      · rw [cstr_cons hzero, cstr_cons hzero, ih, percentEscaped_cons hb]

theorem cstr_no_null (t : Text) : 0 ∉ t.cstr := by
  intro h
  have hne := List.mem_takeWhile_imp h
  simp at hne

theorem countP_cstr (f : UInt8 → Bool) (t : Text) : t.cstr.countP f ≤ t.countP f :=
  (List.takeWhile_sublist _).countP_le

/-- A date has no more names in it than its format had before its `%` were doubled. -/
theorem names_dateTime (h : Conforms strftime) (fmt : Text) :
    ((DateTime.mk strftime []).format (percentEscaped fmt) 0).countP isName ≤
      fmt.countP isName := by
  unfold DateTime.format
  by_cases hfmt : fmt = []
  · subst fmt
    have hdefault : Text.cstr defaultDateTime = defaultDateTime := by decide
    rw [percentEscaped_nil, if_pos rfl]
    dsimp only
    rw [hdefault]
    split
    · apply Nat.le_of_eq
      rw [List.countP_nil, List.countP_eq_zero]
      intro b hb hname
      have hbyte := (dateByte_iff b).mpr (h.numbers b (List.takeWhile_subset _ hb))
      have hno : (formatItems.map Prod.fst).flatten.all (fun b => !dateByte b) = true := by decide
      have hnot := List.all_eq_true.mp hno b (List.contains_iff_mem.mp hname)
      rw [hbyte] at hnot
      cases hnot
    · exact Nat.zero_le _
  · have hne : percentEscaped fmt ≠ [] := by
      intro hnil
      have hhead := head_percentEscaped fmt
      rw [hnil] at hhead
      exact hfmt (List.head?_eq_none_iff.mp hhead.symm)
    rw [if_neg hne]
    dsimp only
    rw [cstr_percentEscaped, h.copies _ _ (cstr_no_null fmt)]
    split
    · exact Nat.le_trans (countP_cstr isName _) (countP_cstr isName fmt)
    · exact Nat.zero_le _

/-- What an item writes has no more names in it than its format. -/
theorem names_quiet (h : Conforms strftime) (cls : ItemClass) (fmt : Text) :
    (quiet strftime (.item cls (percentEscaped fmt))).countP isName ≤ fmt.countP isName := by
  have hnone : ∀ t : Text, t.countP isName = 0 → t.countP isName ≤ fmt.countP isName := by
    intro t ht
    rw [ht]
    exact Nat.zero_le _
  cases cls with
  | dateTime => exact names_dateTime h fmt
  | message => exact hnone [] rfl
  | level => exact hnone (text "DEBUG") (by decide)
  | elapse => exact hnone (Text.ofNat 0) (by decide)
  | name => exact hnone [] rfl
  | threadId => exact hnone (Text.ofNat 0) (by decide)
  | newLine => exact hnone (text "\n") (by decide)
  | filename => exact hnone [] rfl
  | line => exact hnone (Text.decimal 0) (by decide)
  | tab => exact hnone (text "\t") (by decide)
  | fiberId => exact hnone (Text.ofNat 0) (by decide)
  | threadName => exact hnone [] rfl

end Names

section Scan
variable {p : Text}

theorem mem_scan {fuel i : Nat} {nstr : Text} {vec : List Token} {error : Bool} {t : Token}
    (h : t ∈ vec) : t ∈ (scan p fuel i nstr vec error).1 := by
  rw [scan_vec]
  exact List.mem_append_left _ h

/-- The result of a scan without any error. -/
def Clean (v : List Token × Bool) : Prop := v.2 = false ∧ ∀ t ∈ v.1, (item t).2 = false

/-- A directive without an error has a known name. -/
theorem known_of_item {str fmt : Text} (h : (item (.directive str fmt)).2 = false) :
    ∃ cls, (item (.directive str fmt)).1 = .item cls fmt ∧ str ∈ formatItems.map Prod.fst := by
  unfold item at h ⊢
  dsimp only at h ⊢
  cases hlookup : formatItems.lookup str with
  | none =>
    rw [hlookup] at h
    cases h
  | some cls =>
    refine ⟨cls, rfl, ?_⟩
    have hmem := List.lookup_eq_some_iff.mp hlookup
    obtain ⟨l₁, l₂, hitems, _⟩ := hmem
    rw [hitems]
    simp

/-- The names in what a token is written as, and one more for a directive. -/
def weight (strftime : Text → UInt64 → Text) : Token → Nat
  | .literal str => str.countP isName
  | .directive str fmt => (quiet strftime (item (.directive str fmt)).1).countP isName + 1

variable {strftime : Text → UInt64 → Text}

theorem weight_flush (nstr : Text) :
    ((flush nstr).map (weight strftime)).sum = nstr.countP isName := by
  unfold flush
  split
  · rename_i h
    rw [h]
    rfl
  · simp [weight]

/-- The outer loop on any other `%`, if no error comes of it: a known directive is put down. -/
theorem scan_known {fuel i : Nat} {r nstr : Text} {vec : List Token} {error : Bool}
    (hp : p.drop i = byte '%' :: percentEscaped r) (hr : r.head? ≠ some (byte '%'))
    (hclean : Clean (scan p (fuel + 1) i nstr vec error)) :
    ∃ c fmt rest n, c ∈ (formatItems.map Prod.fst).flatten ∧
      (∃ cls, (item (.directive [c] (percentEscaped fmt))).1 = .item cls (percentEscaped fmt)) ∧
      p.drop n = percentEscaped rest ∧ Spells r c fmt rest ∧
      scan p (fuel + 1) i nstr vec error =
        scan p fuel n [] (vec ++ flush nstr ++ [.directive [c] (percentEscaped fmt)]) error := by
  obtain ⟨hat, hbehind⟩ := drop_cons hp
  have hnext : p[i + 1]? ≠ some (byte '%') := by
    rw [← List.head?_drop, hbehind, head_percentEscaped]
    exact hr
  have hscan := @scan_single p i fuel nstr vec error hat hnext
  rw [hscan] at hclean
  by_cases hclosed : (directiveAt p i).closed = true
  · rw [if_pos hclosed] at hclean hscan
    have hitem := hclean.2 _ (mem_scan (List.mem_append_right _ List.mem_cons_self))
    obtain ⟨cls, hcls, hknown⟩ := known_of_item hitem
    obtain ⟨c, fmt, rest, hreads, hspells⟩ := directive_shape hbehind hr hclosed hknown
    rw [hreads.str] at hknown
    rw [hreads.str, hreads.fmt] at hcls hscan
    refine ⟨c, fmt, rest, _, ?_, ⟨cls, hcls⟩, hreads.behind, hspells, hscan⟩
    exact List.mem_flatten.mpr ⟨[c], hknown, List.mem_cons_self⟩
  · rw [if_neg hclosed] at hclean
    have herror := hclean.1
    rw [scan_vec] at herror
    cases herror

/-- What a directive takes from a text: its name, which is one letter, and its format. -/
theorem Spells.counts {r fmt rest : Text} {c : UInt8} (h : Spells r c fmt rest)
    (hc : isName c = true) :
    r.countP isName = 1 + fmt.countP isName + rest.countP isName ∧
      rest.length < r.length ∧ (percentEscaped rest).length ≤ (percentEscaped r).length := by
  have hbraces : isName (byte '\x7b') = false ∧ isName (byte '\x7d') = false := by decide
  obtain ⟨pre, hpre, hcount, hpos⟩ : ∃ pre, r = pre ++ rest ∧
      pre.countP isName = 1 + fmt.countP isName ∧ 0 < pre.length := by
    obtain ⟨hr, hfmt⟩ | hr := h
    · exact ⟨[c], hr, by simp [hc, hfmt], Nat.one_pos⟩
    · refine ⟨c :: byte '\x7b' :: (fmt ++ [byte '\x7d']), by simp [hr], ?_, Nat.succ_pos _⟩
      simp [hc, hbraces, Nat.add_comm]
  rw [hpre, List.countP_append, hcount, percentEscaped_append, List.length_append,
    List.length_append]
  omega

theorem weight_directive (h : Conforms strftime) {c : UInt8} {fmt : Text} {cls : ItemClass}
    (hcls : (item (.directive [c] (percentEscaped fmt))).1 = .item cls (percentEscaped fmt)) :
    weight strftime (.directive [c] (percentEscaped fmt)) ≤ fmt.countP isName + 1 := by
  rw [weight, hcls]
  exact Nat.succ_le_succ (names_quiet h cls fmt)

/-- The tokens of a text with its `%` doubled have no more weight than the text has names, and a
directive is among them if there is a `%`: the last of a run of them is read as its beginning. -/
theorem weight_scan (h : Conforms strftime) (r : Text) (fuel i : Nat) (nstr : Text)
    (vec : List Token) (error : Bool) (hp : p.drop i = percentEscaped r)
    (hfuel : (percentEscaped r).length < fuel) (hclean : Clean (scan p fuel i nstr vec error)) :
    ((scan p fuel i nstr vec error).1.map (weight strftime)).sum ≤
        (vec.map (weight strftime)).sum + nstr.countP isName + r.countP isName ∧
      (byte '%' ∈ r → ∃ str fmt, .directive str fmt ∈ (scan p fuel i nstr vec error).1) := by
  induction hlen : r.length using Nat.strongRecOn generalizing r fuel i nstr vec with
  | ind len ih =>
    have hpercent : isName (byte '%') = false := by decide
    cases r with
    | nil =>
      obtain ⟨fuel, rfl⟩ := Nat.exists_eq_add_one.mpr (Nat.zero_lt_of_lt hfuel)
      have hend : p[i]? = none := by
        rw [← List.head?_drop, hp]
        rfl
      have hscan : scan p (fuel + 1) i nstr vec error = (vec ++ flush nstr, error) := by
        simp [scan, hend]
      rw [hscan]
      constructor
      · simp [weight_flush]
      · intro hmem
        cases hmem
    | cons b r =>
      by_cases hb : b = byte '%'
      · subst b
        rw [percentEscaped_percent] at hp hfuel
        simp only [List.length_cons] at hlen hfuel
        obtain ⟨fuel, rfl⟩ : ∃ k, fuel = k + 2 := ⟨fuel - 2, by omega⟩
        obtain ⟨hat, hbehind⟩ := drop_cons hp
        obtain ⟨hat', hrest⟩ := drop_cons hbehind
        rw [scan_percent hat hat'] at hclean ⊢
        by_cases hr : r.head? = some (byte '%')
        · have hat'' : p[i + 1 + 1]? = some (byte '%') := by
            rw [← List.head?_drop, hrest, head_percentEscaped, hr]
          rw [scan_percent hat' hat''] at hclean ⊢
          obtain ⟨hweight, hdirective⟩ := ih r.length (by omega) r fuel _ _ vec hrest (by omega)
            hclean rfl
          constructor
          · simpa [hpercent] using hweight
          · intro _
            exact hdirective (List.mem_of_mem_head? hr)
        · obtain ⟨c, fmt, rest, n, hc, ⟨cls, hcls⟩, hn, hspells, hscan⟩ :=
            scan_known hbehind hr hclean
          rw [hscan] at hclean ⊢
          have hcount := hspells.counts (List.contains_iff_mem.mpr hc)
          obtain ⟨hweight, _⟩ := ih rest.length (by omega) rest fuel n [] _ hn (by omega) hclean rfl
          have hdirective := weight_directive h hcls
          constructor
          · simp only [List.map_append, List.sum_append, weight_flush, List.map_cons, List.map_nil,
              List.sum_cons, List.sum_nil, List.countP_append, List.countP_nil,
              List.countP_singleton, hpercent] at hweight
            rw [List.countP_cons, hpercent]
            omega
          · intro _
            exact ⟨[c], percentEscaped fmt,
              mem_scan (List.mem_append_right _ List.mem_cons_self)⟩
      · rw [percentEscaped_cons hb] at hp hfuel
        simp only [List.length_cons] at hlen hfuel
        obtain ⟨fuel, rfl⟩ := Nat.exists_eq_add_one.mpr (Nat.zero_lt_of_lt hfuel)
        obtain ⟨hat, hrest⟩ := drop_cons hp
        rw [scan_other hat hb] at hclean ⊢
        obtain ⟨hweight, hdirective⟩ := ih r.length (by omega) r fuel _ _ vec hrest (by omega)
          hclean rfl
        constructor
        · rw [List.countP_append, List.countP_singleton] at hweight
          rw [List.countP_cons]
          omega
        · intro hmem
          exact hdirective ((List.mem_cons.mp hmem).resolve_left (Ne.symm hb))

end Scan

section Doubled
variable (strftime : Text → UInt64 → Text) (s : Text)

/-- A text with its `%` doubled is a pattern for that text. -/
def EscapesTo : Prop :=
  (create (percentEscaped s)).isError = false ∧
    ∀ buf level event, (create (percentEscaped s)).format ⟨strftime, buf⟩ level event = s

/-- Behind a directive with a format in braces and in front of another directive of a valid pattern,
it adds the text to what is written, and nothing else. -/
def Inserts : Prop :=
  ∀ before name fmt name' fmt' after,
    (directive name (some fmt)).WellFormed → (directive name' fmt').WellFormed →
    let left := before ++ (directive name (some fmt)).render
    let right := (directive name' fmt').render ++ after
    (create (left ++ right)).isError = false →
    (create (left ++ percentEscaped s ++ right)).isError = false ∧
      ∀ buf level event,
        let written := fun pattern => (create pattern).format ⟨strftime, buf⟩ level event
        written (left ++ right) = written left ++ written right ∧
          written (left ++ percentEscaped s ++ right) = written left ++ s ++ written right

/-- What is expected of `%%`. -/
def PercentEscape : Prop := EscapesTo strftime s ∧ Inserts strftime s

variable {strftime s}

theorem names_tokens (strftime : Text → UInt64 → Text) (vec : List Token) :
    (vec.flatMap fun t => quiet strftime (item t).1).countP isName ≤
        (vec.map (weight strftime)).sum ∧
      ((∃ str fmt, .directive str fmt ∈ vec) →
        (vec.flatMap fun t => quiet strftime (item t).1).countP isName <
          (vec.map (weight strftime)).sum) := by
  induction vec with
  | nil => simp
  | cons t vec ih =>
    rw [List.flatMap_cons, List.countP_append, List.map_cons, List.sum_cons]
    cases t with
    | literal str =>
      have hweight : (quiet strftime (item (.literal str)).1).countP isName =
          weight strftime (.literal str) := rfl
      rw [hweight]
      refine ⟨by omega, ?_⟩
      intro h
      obtain ⟨str', fmt, hmem⟩ := h
      have hrest := ih.2 ⟨str', fmt, by simpa using hmem⟩
      omega
    | directive str fmt =>
      have hweight : weight strftime (.directive str fmt) =
          (quiet strftime (item (.directive str fmt)).1).countP isName + 1 := rfl
      rw [hweight]
      refine ⟨by omega, ?_⟩
      intro _
      omega

/-- What the tokens of a pattern write. -/
theorem format_scan (p : Text) (dateTime : DateTime) (level : LogLevel) (event : LogEvent) :
    (create p).format dateTime level event =
      (scan p (p.length + 1) 0 [] [] false).1.flatMap fun t =>
        (item t).1.format dateTime level event := by
  unfold LogFormatter.format create
  dsimp only
  rw [List.flatMap_map]

/-- A text with a `%` in it is never written: a name has been read, and is not among what comes out. -/
theorem not_escapesTo (h : Conforms strftime) (hs : byte '%' ∈ s) : ¬EscapesTo strftime s := by
  intro hescapes
  obtain ⟨herror, hformat⟩ := hescapes
  have hquiet := hformat [] .debug {}
  unfold isError create at herror
  dsimp only at herror
  rw [Bool.or_eq_false_iff] at herror
  rw [format_scan] at hquiet
  have hclean : Clean (scan (percentEscaped s) ((percentEscaped s).length + 1) 0 [] [] false) := by
    refine ⟨herror.1, ?_⟩
    intro t ht
    exact Bool.eq_false_iff.mpr (List.any_eq_false.mp herror.2 t ht)
  obtain ⟨hweight, hdirective⟩ := weight_scan h s _ 0 [] [] false rfl (Nat.lt_succ_self _) hclean
  have hnames := (names_tokens strftime _).2 (hdirective hs)
  have hcount := congrArg (List.countP isName) hquiet
  simp only [List.map_nil, List.sum_nil, List.countP_nil, Nat.zero_add] at hweight
  exact absurd (Nat.lt_of_lt_of_le hnames hweight) (Nat.not_lt.mpr (Nat.le_of_eq hcount.symm))

theorem flush_format (s : Text) (dateTime : DateTime) (level : LogLevel) (event : LogEvent) :
    ((flush s).flatMap fun t => (item t).1.format dateTime level event) = s := by
  unfold flush
  split
  · rename_i h
    rw [h]
    rfl
  · simp [item, FormatItem.format]

theorem flush_known (s : Text) : (flush s).any (fun t => (item t).2) = false := by
  unfold flush
  split
  · rfl
  · rfl

/-- A text without `%` in front of a directive is put down as it is, and the directive read as if the
pattern began there. -/
theorem scan_text {right : Text} {b : UInt8} {v : Text} (hs : byte '%' ∉ s)
    (hright : right = byte '%' :: b :: v) (hb : b ≠ byte '%')
    (hvalid : (scan right (right.length + 1) 0 [] [] false).2 = false) :
    scan (s ++ right) ((s ++ right).length + 1) 0 [] [] false =
      (flush s ++ (scan right (right.length + 1) 0 [] [] false).1, false) := by
  have hat : right[0]? = some (byte '%') := by rw [hright]; rfl
  have hnext : right[0 + 1]? ≠ some (byte '%') := by
    rw [hright]
    simpa using hb
  have hliteral : scan (s ++ right) (s.length + (right.length + 1)) 0 [] [] false =
      scan (s ++ right) (right.length + 1) (0 + s.length) ([] ++ s) [] false :=
    scan_literal s 0 (right.length + 1) [] hs rfl
  have hshift : scan (s ++ right) (right.length + 1) s.length s [] false =
      scan right (right.length + 1) 0 s [] false :=
    scan_shift (i := 0) (by omega) (by omega)
  rw [Nat.zero_add, List.nil_append] at hliteral
  rw [List.length_append, Nat.add_assoc, hliteral, hshift]
  rw [scan_single hat hnext] at hvalid ⊢
  rw [scan_single hat hnext]
  split
  · rename_i hclosed
    rw [if_pos hclosed, scan_vec] at hvalid
    rw [scan_vec, scan_vec _ _ _ ([] ++ flush [] ++ _)]
    simpa [flush] using hvalid
  · rename_i hclosed
    rw [if_neg hclosed, scan_vec] at hvalid
    cases hvalid

theorem scan_text_alone (hs : byte '%' ∉ s) :
    scan s (s.length + 1) 0 [] [] false = (flush s, false) := by
  have hliteral : scan s (s.length + 1) 0 [] [] false = scan s 1 (0 + s.length) ([] ++ s) [] false :=
    scan_literal s 0 1 [] hs (List.append_nil s).symm
  rw [Nat.zero_add, List.nil_append] at hliteral
  rw [hliteral, scan_end (List.getElem?_eq_none (Nat.le_refl _)), List.nil_append]

theorem escapesTo_plain (hs : byte '%' ∉ s) : EscapesTo strftime s := by
  unfold EscapesTo
  rw [percentEscaped_same hs]
  constructor
  · unfold isError create
    rw [scan_text_alone hs]
    simp [flush_known]
  · intro buf level event
    rw [format_scan, scan_text_alone hs, flush_format]

theorem inserts_plain (hs : byte '%' ∉ s) : Inserts strftime s := by
  intro before name fmt name' fmt' after hwell hwell'
  dsimp only
  intro hvalid
  have hbraced : Braced (directive name (some fmt)).render := ⟨name, fmt, hwell, rfl⟩
  obtain ⟨b, hname', hb⟩ := known_letter hwell'.1
  obtain ⟨v, hright⟩ : ∃ v, (directive name' fmt').render ++ after = byte '%' :: b :: v := by
    rw [hname']
    cases fmt' with
    | none => exact ⟨after, rfl⟩
    | some f => exact ⟨_, rfl⟩
  have hleft : (directive name (some fmt)).render <:+ before ++ (directive name (some fmt)).render :=
    List.suffix_append _ _
  generalize before ++ (directive name (some fmt)).render = left at hvalid hleft ⊢
  generalize (directive name' fmt').render ++ after = right at hvalid hright ⊢
  have happend := create_append hbraced hleft
  rw [(happend right).2, Bool.or_eq_false_iff] at hvalid
  obtain ⟨hvalidLeft, hvalidRight⟩ := hvalid
  have hscan : (scan right (right.length + 1) 0 [] [] false).2 = false :=
    (Bool.or_eq_false_iff.mp hvalidRight).1
  have htext := scan_text hs hright (alpha_ne hb (by decide)) hscan
  have hmiddle : (create (s ++ right)).isError = false := by
    unfold isError create
    dsimp only
    rw [htext]
    simp only [List.any_append, flush_known, Bool.false_or]
    exact (Bool.or_eq_false_iff.mp hvalidRight).2
  rw [percentEscaped_same hs, List.append_assoc]
  refine ⟨by rw [(happend _).2, hvalidLeft, hmiddle]; rfl, ?_⟩
  intro buf level event
  have hwritten : (create (s ++ right)).format ⟨strftime, buf⟩ level event =
      s ++ (create right).format ⟨strftime, buf⟩ level event := by
    rw [format_scan, htext, format_scan, List.flatMap_append, flush_format]
  have hbehind : ∀ rest, (create (left ++ rest)).format ⟨strftime, buf⟩ level event =
      (create left).format ⟨strftime, buf⟩ level event ++
        (create rest).format ⟨strftime, buf⟩ level event := by
    intro rest
    rw [LogFormatter.format, (happend rest).1, List.flatMap_append]
    rfl
  rw [hbehind, hbehind, hwritten, List.append_assoc]
  exact ⟨rfl, rfl⟩

/-- `%%` does what is expected of it in the texts that have no `%`. -/
theorem percentEscape_iff (h : Conforms strftime) (s : Text) :
    PercentEscape strftime s ↔ byte '%' ∉ s := by
  constructor
  · intro hescape hs
    exact not_escapesTo h hs hescape.1
  · intro hs
    exact ⟨escapesTo_plain hs, inserts_plain hs⟩

/-- Every doubled `%` taken for one. -/
def undoubled : Text → Text
  | b :: c :: t => if b = byte '%' then b :: undoubled t else b :: undoubled (c :: t)
  | t => t

theorem undoubled_cons {b : UInt8} (hb : b ≠ byte '%') (t : Text) :
    undoubled (b :: t) = b :: undoubled t := by
  cases t with
  | nil => rfl
  | cons c t => rw [undoubled, if_neg hb]

theorem undoubled_percentEscaped (t : Text) : undoubled (percentEscaped t) = t := by
  induction t with
  | nil => rfl
  | cons b t ih =>
    by_cases hb : b = byte '%'
    · rw [hb, percentEscaped_percent, undoubled, if_pos rfl, ih]
    · rw [percentEscaped_cons hb, undoubled_cons hb, ih]

/-- The default format at the beginning of the epoch, and otherwise the bytes that stand for
themselves. -/
def plainTime (fmt : Text) (_ : UInt64) : Text :=
  if fmt = defaultDateTime then text "1970-01-01 00:00:00" else undoubled fmt

theorem plainTime_conforms : Conforms plainTime where
  copies t time _ := by
    have hne : percentEscaped t ≠ defaultDateTime := by
      intro heq
      have hback := undoubled_percentEscaped t
      rw [heq] at hback
      have htwice := congrArg percentEscaped hback
      rw [heq] at htwice
      exact absurd htwice (by decide)
    rw [plainTime, if_neg hne, undoubled_percentEscaped]
  numbers b hb := by
    rw [plainTime, if_pos rfl] at hb
    have hall : (text "1970-01-01 00:00:00").all dateByte = true := by decide
    exact (dateByte_iff b).mp (List.all_eq_true.mp hall b hb)

theorem percentEscape_texts : PercentEscape plainTime (text "half [past] {5}: ") ∧
    ¬PercentEscape plainTime (text "50%") := by
  constructor
  · exact (percentEscape_iff plainTime_conforms (text "half [past] {5}: ")).mpr (by decide)
  · exact fun h => (percentEscape_iff plainTime_conforms (text "50%")).mp h (by decide)

/-- The pattern `%%` is an error. -/
theorem percentEscape_percent : ¬PercentEscape plainTime (text "%") := by
  intro h
  exact absurd h.1.1 (by decide)

end Doubled

end LogFormatter
end HxSylar
