import HxSylar.Proofs.LogPattern

namespace HxSylar
open Lib

namespace LogFormatter
open PatternToken

section Turns
variable {p : Text} {i : Nat}

theorem scanDirective_end {fuel n : Nat} {opened : Option Nat} {str : Text} (hend : p[n]? = none) :
    scanDirective p i fuel n opened str = { str := str, closed := opened.isNone, n := n } := by
  cases fuel with
  | zero => rfl
  | succ fuel =>
    rw [scanDirective, hend]

/-- One turn of the inner loop behind an opening brace. -/
theorem scanDirective_opened {fuel n begin : Nat} {str : Text} {ch : UInt8} (hch : p[n]? = some ch) :
    scanDirective p i (fuel + 1) n (some begin) str =
      if ch = byte '\x7d' then
        { str := str, fmt := p.substr (begin + 1) (n - begin - 1), closed := true, n := n + 1 }
      else
        scanDirective p i fuel (n + 1) (some begin)
          (if n + 1 = p.length ∧ str = [] then p.drop (i + 1) else str) := by
  rw [scanDirective, hch]

/-- One turn of the inner loop inside a name. -/
theorem scanDirective_unopened {fuel n : Nat} {str : Text} {ch : UInt8} (hch : p[n]? = some ch) :
    scanDirective p i (fuel + 1) n none str =
      if !isAlpha ch && ch != byte '\x7b' && ch != byte '\x7d' then
        { str := p.substr (i + 1) (n - i - 1), closed := true, n := n }
      else if ch = byte '\x7b' then
        scanDirective p i fuel (n + 1) (some n) (p.substr (i + 1) (n - i - 1))
      else
        scanDirective p i fuel (n + 1) none
          (if n + 1 = p.length ∧ str = [] then p.drop (i + 1) else str) := by
  rw [scanDirective, hch]

/-- What the inner loop reads of the directive at a `%`. -/
def directiveAt (p : Text) (i : Nat) : Directive := scanDirective p i p.length (i + 1) none []

variable {fuel : Nat} {nstr : Text} {vec : List Token} {error : Bool}

theorem scan_end (hend : p[i]? = none) :
    scan p fuel i nstr vec error = (vec ++ flush nstr, error) := by
  cases fuel with
  | zero => rfl
  | succ fuel => rw [scan, hend]

/-- One turn of the outer loop on a byte that is no `%`. -/
theorem scan_other {b : UInt8} (hat : p[i]? = some b) (hb : b ≠ byte '%') :
    scan p (fuel + 1) i nstr vec error = scan p fuel (i + 1) (nstr ++ [b]) vec error := by
  simp [scan, hat, hb]

/-- The outer loop on a `%` in front of another one. -/
theorem scan_percent (hat : p[i]? = some (byte '%')) (hnext : p[i + 1]? = some (byte '%')) :
    scan p (fuel + 1) i nstr vec error = scan p fuel (i + 1) (nstr ++ [byte '%']) vec error := by
  simp [scan, hat, hnext]

/-- The outer loop on any other `%`. -/
theorem scan_single (hat : p[i]? = some (byte '%')) (hnext : p[i + 1]? ≠ some (byte '%')) :
    scan p (fuel + 1) i nstr vec error =
      if (directiveAt p i).closed then
        scan p fuel (directiveAt p i).n []
          (vec ++ flush nstr ++ [.directive (directiveAt p i).str (directiveAt p i).fmt]) error
      else scan p fuel (i + 1) nstr (vec ++ [.literal (text "<<pattern_error>>")]) true := by
  rw [scan, hat]
  simp only [ne_eq, not_true_eq_false, if_false, hnext]
  rfl

end Turns

/-- What is in `vec` when a turn of the outer loop begins stays in front of what the loop adds, and
an error stays. -/
theorem scan_vec {p : Text} (fuel i : Nat) (nstr : Text) (vec : List Token) (error : Bool) :
    scan p fuel i nstr vec error =
      (vec ++ (scan p fuel i nstr [] false).1, error || (scan p fuel i nstr [] false).2) := by
  induction fuel generalizing i nstr vec error with
  | zero => simp [scan]
  | succ fuel ih =>
    cases hat : p[i]? with
    | none => simp [scan_end hat]
    | some b =>
      by_cases hb : b = byte '%'
      · subst b
        by_cases hnext : p[i + 1]? = some (byte '%')
        · rw [scan_percent hat hnext, scan_percent hat hnext]
          exact ih _ _ _ _
        · rw [scan_single hat hnext, scan_single hat hnext]
          split
          · rw [ih _ _ (vec ++ flush nstr ++ _) error, ih _ _ ([] ++ flush nstr ++ _) false]
            simp
          · rw [ih _ _ (vec ++ _) true, ih _ _ ([] ++ _) true]
            simp
      · rw [scan_other hat hb, scan_other hat hb]
        exact ih _ _ _ _

section Shift
variable {q p : Text}

theorem getElem?_shift (n : Nat) : (q ++ p)[q.length + n]? = p[n]? := by
  rw [List.getElem?_append_right (Nat.le_add_right _ _), Nat.add_sub_cancel_left]

theorem substr_shift (a k : Nat) : (q ++ p).substr (q.length + a) k = p.substr a k := by
  rw [Text.substr, Text.substr, List.drop_length_add_append]

/-- A directive that stands behind a text. -/
def Directive.behind (k : Nat) (d : Directive) : Directive := { d with n := k + d.n }

/-- The inner loop does not look at what stands in front of the directive. -/
theorem scanDirective_shift {i f g : Nat} (n : Nat) (opened : Option Nat) (str : Text)
    (hf : p.length ≤ n + f) (hg : p.length ≤ n + g) :
    scanDirective (q ++ p) (q.length + i) f (q.length + n) (opened.map (q.length + ·)) str =
      (scanDirective p i g n opened str).behind q.length := by
  induction f generalizing n g opened str with
  | zero =>
    have hend : p[n]? = none := List.getElem?_eq_none hf
    have hend' : (q ++ p)[q.length + n]? = none := by rw [getElem?_shift, hend]
    rw [scanDirective_end hend, scanDirective_end hend']
    simp [Directive.behind]
  | succ f ih =>
    cases hch : p[n]? with
    | none =>
      have hend : (q ++ p)[q.length + n]? = none := by rw [getElem?_shift, hch]
      rw [scanDirective_end hch, scanDirective_end hend]
      simp [Directive.behind]
    | some ch =>
      have hch' : (q ++ p)[q.length + n]? = some ch := by rw [getElem?_shift, hch]
      obtain ⟨hn, -⟩ := List.getElem?_eq_some_iff.mp hch
      obtain ⟨g, rfl⟩ : ∃ k, g = k + 1 := ⟨g - 1, by omega⟩
      have hlast : (if q.length + n + 1 = (q ++ p).length ∧ str = [] then
            (q ++ p).drop (q.length + i + 1) else str) =
          if n + 1 = p.length ∧ str = [] then p.drop (i + 1) else str := by
        simp only [List.length_append, Nat.add_assoc, Nat.add_left_cancel_iff,
          List.drop_length_add_append]
      have hname : (q ++ p).substr (q.length + i + 1) (q.length + n - (q.length + i) - 1) =
          p.substr (i + 1) (n - i - 1) := by
        rw [Nat.add_sub_add_left, Nat.add_assoc, substr_shift]
      cases opened with
      | none =>
        rw [Option.map_none, scanDirective_unopened hch', scanDirective_unopened hch, hlast, hname]
        split
        · rfl
        · split
          · exact ih (n + 1) (some n) _ (by omega) (by omega)
          · exact ih (n + 1) none _ (by omega) (by omega)
      | some begin =>
        have hfmt : (q ++ p).substr (q.length + begin + 1)
              (q.length + n - (q.length + begin) - 1) = p.substr (begin + 1) (n - begin - 1) := by
          rw [Nat.add_sub_add_left, Nat.add_assoc, substr_shift]
        rw [Option.map_some, scanDirective_opened hch', scanDirective_opened hch, hlast, hfmt]
        split
        · rfl
        · exact ih (n + 1) (some begin) _ (by omega) (by omega)

theorem directiveAt_shift (i : Nat) :
    directiveAt (q ++ p) (q.length + i) = (directiveAt p i).behind q.length := by
  have hshift := scanDirective_shift (q := q) (p := p) (i := i) (f := (q ++ p).length)
    (g := p.length) (i + 1) none [] (by rw [List.length_append]; omega) (by omega)
  rwa [Option.map_none, ← Nat.add_assoc] at hshift

/-- The inner loop goes on, and not beyond the end. -/
theorem scanDirective_progress (i f n : Nat) (opened : Option Nat) (str : Text) :
    n ≤ (scanDirective p i f n opened str).n := by
  induction f generalizing n opened str with
  | zero => exact Nat.le_refl n
  | succ f ih =>
    cases hch : p[n]? with
    | none => rw [scanDirective_end hch]
    | some ch =>
      cases opened with
      | none =>
        rw [scanDirective_unopened hch]
        split
        · exact Nat.le_refl n
        · split
          · exact Nat.le_of_succ_le (ih _ _ _)
          · exact Nat.le_of_succ_le (ih _ _ _)
      | some begin =>
        rw [scanDirective_opened hch]
        split
        · exact Nat.le_succ n
        · exact Nat.le_of_succ_le (ih _ _ _)

/-- The outer loop on what stands behind a text. -/
theorem scan_shift {i f g : Nat} {nstr : Text} {vec : List Token} {error : Bool}
    (hf : p.length ≤ i + f) (hg : p.length ≤ i + g) :
    scan (q ++ p) f (q.length + i) nstr vec error = scan p g i nstr vec error := by
  induction f generalizing i g nstr vec error with
  | zero =>
    have hend : p[i]? = none := List.getElem?_eq_none hf
    have hend' : (q ++ p)[q.length + i]? = none := by rw [getElem?_shift, hend]
    rw [scan_end hend, scan_end hend']
  | succ f ih =>
    cases hat : p[i]? with
    | none =>
      have hend : (q ++ p)[q.length + i]? = none := by rw [getElem?_shift, hat]
      rw [scan_end hat, scan_end hend]
    | some b =>
      have hat' : (q ++ p)[q.length + i]? = some b := by rw [getElem?_shift, hat]
      have hshift : (q ++ p)[q.length + i + 1]? = p[i + 1]? := getElem?_shift (i + 1)
      obtain ⟨hi, -⟩ := List.getElem?_eq_some_iff.mp hat
      obtain ⟨g, rfl⟩ : ∃ k, g = k + 1 := ⟨g - 1, by omega⟩
      by_cases hb : b = byte '%'
      · subst b
        by_cases hnext : p[i + 1]? = some (byte '%')
        · rw [scan_percent hat hnext, scan_percent hat' (hshift.trans hnext)]
          exact ih (i := i + 1) (by omega) (by omega)
        · have hnext' : (q ++ p)[q.length + i + 1]? ≠ some (byte '%') := by rwa [hshift]
          rw [scan_single hat hnext, scan_single hat' hnext', directiveAt_shift]
          by_cases hclosed : (directiveAt p i).closed = true
          · have hbehind : ((directiveAt p i).behind q.length).closed = true := hclosed
            have hprogress : i + 1 ≤ (directiveAt p i).n := scanDirective_progress i p.length _ none []
            rw [if_pos hclosed, if_pos hbehind]
            exact ih (i := (directiveAt p i).n) (g := g) (by omega) (by omega)
          · have hbehind : ¬((directiveAt p i).behind q.length).closed = true := hclosed
            rw [if_neg hclosed, if_neg hbehind]
            exact ih (i := i + 1) (g := g) (by omega) (by omega)
      · rw [scan_other hat hb, scan_other hat' hb]
        exact ih (i := i + 1) (by omega) (by omega)

end Shift

/-- A directive with a format in braces, as it is written. -/
def Braced (d : Text) : Prop :=
  ∃ name fmt, (directive name (some fmt)).WellFormed ∧ d = (directive name (some fmt)).render

theorem Braced.ne_nil {d : Text} (h : Braced d) : d ≠ [] := by
  obtain ⟨name, fmt, -, rfl⟩ := h
  exact List.cons_ne_nil _ _

section Local
variable {left close : Text}

/-- What the inner loop makes of `left` wherever more text follows: it comes to an end, in front of
the last directive or behind it. -/
structure Settles (left close : Text) (i n : Nat) (opened : Option Nat) (str : Text)
    (d : Directive) : Prop where
  closed : d.closed = true
  progress : n ≤ d.n
  stops : d.n = left.length ∨ ∃ t, left.drop d.n = t ++ close
  reads : ∀ rest f, left.length ≤ n + f → scanDirective (left ++ rest) i f n opened str = d

theorem getElem?_left {n : Nat} {b : UInt8} (h : left[n]? = some b) (rest : Text) :
    (left ++ rest)[n]? = some b := by
  obtain ⟨hn, -⟩ := List.getElem?_eq_some_iff.mp h
  rw [List.getElem?_append_left hn, h]

theorem substr_left {a k : Nat} (h : a + k ≤ left.length) (rest : Text) :
    (left ++ rest).substr a k = left.substr a k := by
  have hpiece := @Text.substr_piece [] left rest a k h
  rwa [List.nil_append] at hpiece

/-- More text follows the byte, so that it is not the last one. -/
theorem not_last {n : Nat} {b : UInt8} {t str : Text} (h : left.drop n = b :: t) (ht : t ≠ [])
    (rest : Text) : ¬(n + 1 = (left ++ rest).length ∧ str = []) := by
  have hlength := drop_length h (List.cons_ne_nil b t)
  have hpos := List.length_pos_of_ne_nil ht
  rw [List.length_cons] at hlength
  rw [List.length_append]
  omega

theorem Settles.goes_on {i n : Nat} {opened opened' : Option Nat} {str str' : Text} {d : Directive}
    {b : UInt8} {t : Text} (h : Settles left close i (n + 1) opened' str' d)
    (hdrop : left.drop n = b :: t)
    (hturn : ∀ rest f, scanDirective (left ++ rest) i (f + 1) n opened str =
      scanDirective (left ++ rest) i f (n + 1) opened' str') :
    Settles left close i n opened str d where
  closed := h.closed
  progress := Nat.le_of_succ_le h.progress
  stops := h.stops
  reads rest f hf := by
    have hlength := drop_length hdrop (List.cons_ne_nil b t)
    rw [List.length_cons] at hlength
    obtain ⟨f, rfl⟩ : ∃ k, f = k + 1 := ⟨f - 1, by omega⟩
    rw [hturn, h.reads rest f (by omega)]

/-- A closing brace ends the directive. -/
theorem Settles.close_brace {i n begin : Nat} {str t : Text} (hbegin : begin < n)
    (hdrop : left.drop n = byte '\x7d' :: t) (ht : t = [] ∨ ∃ u, t = u ++ close) :
    ∃ d, Settles left close i n (some begin) str d := by
  obtain ⟨hat, hrest⟩ := drop_cons hdrop
  have hlength := drop_length hdrop (List.cons_ne_nil _ t)
  rw [List.length_cons] at hlength
  refine ⟨{ str := str, fmt := left.substr (begin + 1) (n - begin - 1), closed := true, n := n + 1 },
    rfl, Nat.le_succ n, ?_, ?_⟩
  · obtain rfl | ⟨u, hu⟩ := ht
    · exact Or.inl hlength.symm
    · exact Or.inr ⟨u, by rw [← hu, hrest]⟩
  · intro rest f hf
    obtain ⟨f, rfl⟩ : ∃ k, f = k + 1 := ⟨f - 1, by omega⟩
    rw [scanDirective_opened (getElem?_left hat rest), if_pos rfl, substr_left (by omega)]

/-- Behind an opening brace, with nothing but the end of the last directive to come. -/
theorem settles_inside {i begin : Nat} {str : Text} {w : Text} {n : Nat} (hw : byte '\x7d' ∉ w)
    (hbegin : begin < n) (hdrop : left.drop n = w ++ [byte '\x7d']) :
    ∃ d, Settles left close i n (some begin) str d := by
  induction w generalizing n with
  | nil => exact Settles.close_brace hbegin hdrop (Or.inl rfl)
  | cons b w ih =>
    obtain ⟨hb, hw⟩ := List.ne_and_not_mem_of_not_mem_cons hw
    obtain ⟨hat, hrest⟩ := drop_cons hdrop
    obtain ⟨d, hd⟩ := ih hw (Nat.lt_succ_of_lt hbegin) hrest
    refine ⟨d, hd.goes_on hdrop ?_⟩
    intro rest f
    rw [scanDirective_opened (getElem?_left hat rest), if_neg hb.symm,
      if_neg (not_last hdrop (by simp) rest)]

/-- Behind an opening brace in front of the last directive. -/
theorem settles_opened (hclose : Braced close) {i begin : Nat} (str : Text) {t : Text} {n : Nat}
    (hbegin : begin < n) (hdrop : left.drop n = t ++ close) :
    ∃ d, Settles left close i n (some begin) str d := by
  induction t generalizing n with
  | nil =>
    obtain ⟨name, fmt, ⟨hname, hfmt⟩, rfl⟩ := hclose
    obtain ⟨b, rfl, hb⟩ := known_letter hname
    have hbrace := alpha_ne hb (by decide : isAlpha (byte '\x7d') = false)
    have hw : byte '\x7d' ∉ byte '%' :: b :: byte '\x7b' :: fmt := by
      simp only [List.mem_cons, not_or]
      exact ⟨by decide, hbrace.symm, by decide, hfmt fmt rfl⟩
    exact settles_inside hw hbegin hdrop
  | cons b t ih =>
    obtain ⟨hat, hrest⟩ := drop_cons hdrop
    by_cases hb : b = byte '\x7d'
    · subst b
      exact Settles.close_brace hbegin hdrop (Or.inr ⟨t, rfl⟩)
    · obtain ⟨d, hd⟩ := ih (Nat.lt_succ_of_lt hbegin) hrest
      refine ⟨d, hd.goes_on hdrop ?_⟩
      intro rest f
      rw [scanDirective_opened (getElem?_left hat rest), if_neg hb,
        if_neg (not_last hdrop (by simp [hclose.ne_nil]) rest)]

/-- A byte that is no part of a name ends the directive. -/
theorem Settles.stop {i n : Nat} {b : UInt8} {str t u : Text} (hi : i < n)
    (hb : (!isAlpha b && b != byte '\x7b' && b != byte '\x7d') = true)
    (hbyte : left.drop n = b :: u) (hdrop : left.drop n = t ++ close) :
    ∃ d, Settles left close i n none str d := by
  have hat := (drop_cons hbyte).1
  have hlength := drop_length hbyte (List.cons_ne_nil b u)
  rw [List.length_cons] at hlength
  refine ⟨{ str := left.substr (i + 1) (n - i - 1), closed := true, n := n }, rfl, Nat.le_refl n,
    Or.inr ⟨t, hdrop⟩, ?_⟩
  intro rest f hf
  obtain ⟨f, rfl⟩ : ∃ k, f = k + 1 := ⟨f - 1, by omega⟩
  rw [scanDirective_unopened (getElem?_left hat rest), if_pos hb, substr_left (by omega)]

/-- In a name in front of the last directive. -/
theorem settles_name (hclose : Braced close) {i : Nat} (str : Text) {t : Text} {n : Nat} (hi : i < n)
    (hdrop : left.drop n = t ++ close) : ∃ d, Settles left close i n none str d := by
  induction t generalizing n with
  | nil =>
    have hpercent : (!isAlpha (byte '%') && byte '%' != byte '\x7b' && byte '%' != byte '\x7d') =
        true := by decide
    obtain ⟨name, fmt, -, rfl⟩ := hclose
    exact Settles.stop hi hpercent hdrop hdrop
  | cons b t ih =>
    obtain ⟨hat, hrest⟩ := drop_cons hdrop
    have hlength := drop_length hdrop (List.cons_ne_nil b _)
    by_cases hb : (!isAlpha b && b != byte '\x7b' && b != byte '\x7d') = true
    · exact Settles.stop hi hb hdrop hdrop
    · by_cases hopen : b = byte '\x7b'
      · obtain ⟨d, hd⟩ := settles_opened hclose (i := i) (left.substr (i + 1) (n - i - 1))
          (Nat.lt_succ_self n) hrest
        refine ⟨d, hd.goes_on hdrop ?_⟩
        intro rest f
        rw [scanDirective_unopened (getElem?_left hat rest), if_neg hb, if_pos hopen,
          substr_left (by omega)]
      · obtain ⟨d, hd⟩ := ih (Nat.lt_succ_of_lt hi) hrest
        refine ⟨d, hd.goes_on hdrop ?_⟩
        intro rest f
        rw [scanDirective_unopened (getElem?_left hat rest), if_neg hb, if_neg hopen,
          if_neg (not_last hdrop (by simp [hclose.ne_nil]) rest)]

/-- From one turn on the outer loop reads `left` up to its end, with no text waiting in `nstr`,
whatever follows. -/
def ReadsTo (left : Text) (i : Nat) (nstr : Text) (vec : List Token) (error : Bool)
    (vec' : List Token) (error' : Bool) : Prop :=
  ∀ rest f, left.length + rest.length < i + f →
    ∃ g, rest.length ≤ g ∧
      scan (left ++ rest) f i nstr vec error = scan (left ++ rest) g left.length [] vec' error'

theorem ReadsTo.end {vec : List Token} {error : Bool} :
    ReadsTo left left.length [] vec error vec error := by
  intro rest f hf
  exact ⟨f, by omega, rfl⟩

theorem ReadsTo.turn {i i' : Nat} {nstr nstr' : Text} {vec vec' vec'' : List Token}
    {error error' error'' : Bool} (h : ReadsTo left i' nstr' vec' error' vec'' error'')
    (hi : i < i') (hend : i ≤ left.length)
    (hturn : ∀ rest f, scan (left ++ rest) (f + 1) i nstr vec error =
      scan (left ++ rest) f i' nstr' vec' error') :
    ReadsTo left i nstr vec error vec'' error'' := by
  intro rest f hf
  obtain ⟨f, rfl⟩ : ∃ k, f = k + 1 := ⟨f - 1, by omega⟩
  rw [hturn]
  exact h rest f (by omega)

/-- The outer loop reads a text that ends with a directive in braces. -/
theorem readsTo_braced (hclose : Braced close) {t : Text} {i : Nat} (nstr : Text) (vec : List Token)
    (error : Bool) (hdrop : left.drop i = t ++ close) :
    ∃ vec' error', ReadsTo left i nstr vec error vec' error' := by
  induction hlen : t.length using Nat.strongRecOn generalizing t i nstr vec error with
  | ind len ih =>
    have hlength := drop_length hdrop (by simp [hclose.ne_nil])
    rw [List.length_append] at hlength
    have hpos := List.length_pos_of_ne_nil hclose.ne_nil
    cases t with
    | nil =>
      obtain ⟨name, fmt, hwell, rfl⟩ := hclose
      rw [List.nil_append] at hdrop
      have hbehind : i + (directive name (some fmt)).render.length = left.length := by
        rw [hlength, List.length_nil, Nat.zero_add]
      refine ⟨vec ++ flush nstr ++ [(directive name (some fmt)).scanned], error,
        ReadsTo.end.turn (by omega) (by omega) ?_⟩
      intro rest f
      have hdrop' : (left ++ rest).drop i = (directive name (some fmt)).render ++ rest := by
        rw [List.drop_append_of_le_length (by omega), hdrop]
      rw [scan_directive hwell (fun h => by cases h) hdrop', hbehind]
    | cons b t =>
      obtain ⟨hat, hrest⟩ := drop_cons hdrop
      rw [List.length_cons] at hlength hlen
      by_cases hb : b = byte '%'
      · subst b
        obtain ⟨c, u, hnext⟩ := List.exists_cons_of_ne_nil (l := t ++ close) (by simp [hclose.ne_nil])
        have hat' := (drop_cons (hrest.trans hnext)).1
        by_cases hc : c = byte '%'
        · subst c
          obtain ⟨vec', error', h⟩ := ih t.length (by omega) (nstr ++ [byte '%']) vec error hrest rfl
          refine ⟨vec', error', h.turn (Nat.lt_succ_self i) (by omega) ?_⟩
          intro rest f
          exact scan_percent (getElem?_left hat rest) (getElem?_left hat' rest)
        · obtain ⟨d, hd⟩ := settles_name hclose [] (Nat.lt_succ_self i) hrest
          have hturn : ∀ rest f, scan (left ++ rest) (f + 1) i nstr vec error =
              scan (left ++ rest) f d.n [] (vec ++ flush nstr ++ [.directive d.str d.fmt]) error := by
            intro rest f
            have hother : (left ++ rest)[i + 1]? ≠ some (byte '%') := by
              rw [getElem?_left hat' rest]
              simpa using hc
            have hread : directiveAt (left ++ rest) i = d :=
              hd.reads rest (left ++ rest).length (by rw [List.length_append]; omega)
            rw [scan_single (getElem?_left hat rest) hother, hread, if_pos hd.closed]
          obtain hend | ⟨t', ht'⟩ := hd.stops
          · rw [hend] at hturn
            exact ⟨_, _, ReadsTo.end.turn (by omega) (by omega) hturn⟩
          · have hlength' := drop_length ht' (by simp [hclose.ne_nil])
            rw [List.length_append] at hlength'
            have hprogress := hd.progress
            obtain ⟨vec', error', h⟩ := ih t'.length (by omega) []
              (vec ++ flush nstr ++ [.directive d.str d.fmt]) error ht' rfl
            exact ⟨vec', error', h.turn hprogress (by omega) hturn⟩
      · obtain ⟨vec', error', h⟩ := ih t.length (by omega) (nstr ++ [b]) vec error hrest rfl
        refine ⟨vec', error', h.turn (Nat.lt_succ_self i) (by omega) ?_⟩
        intro rest f
        exact scan_other (getElem?_left hat rest) hb

end Local

theorem scan_append {left close rest : Text} (hclose : Braced close) (hleft : close <:+ left) :
    scan (left ++ rest) ((left ++ rest).length + 1) 0 [] [] false =
      ((scan left (left.length + 1) 0 [] [] false).1 ++ (scan rest (rest.length + 1) 0 [] [] false).1,
        (scan left (left.length + 1) 0 [] [] false).2 ||
          (scan rest (rest.length + 1) 0 [] [] false).2) := by
  obtain ⟨t, rfl⟩ := hleft
  have hdrop : (t ++ close).drop 0 = t ++ close := rfl
  obtain ⟨vec, error, h⟩ := readsTo_braced hclose [] [] false hdrop
  generalize t ++ close = left at h ⊢
  have halone : scan left (left.length + 1) 0 [] [] false = (vec, error) := by
    obtain ⟨g, -, hscan⟩ := h [] (left.length + 1) (by rw [List.length_nil]; omega)
    rw [List.append_nil] at hscan
    rw [hscan, scan_end (List.getElem?_eq_none (Nat.le_refl _))]
    simp [flush]
  obtain ⟨g, hg, hscan⟩ := h rest ((left ++ rest).length + 1) (by rw [List.length_append]; omega)
  have hshift : scan (left ++ rest) g left.length [] vec error =
      scan rest (rest.length + 1) 0 [] vec error :=
    scan_shift (i := 0) (by omega) (by omega)
  rw [hscan, hshift, scan_vec, halone]

/-- Behind a directive with a format in braces a pattern is read as if it began there. -/
theorem create_append {left close : Text} (hclose : Braced close) (hleft : close <:+ left)
    (rest : Text) :
    (create (left ++ rest)).items = (create left).items ++ (create rest).items ∧
      (create (left ++ rest)).isError = ((create left).isError || (create rest).isError) := by
  unfold create isError
  rw [scan_append hclose hleft]
  simp [Bool.or_assoc, Bool.or_left_comm]

end LogFormatter
end HxSylar
