import HxSylar.LogFormatter
import Mathlib.Data.List.Chain

namespace HxSylar
open Lib

/-- A token of the documented pattern language: literal text, or a directive with or without a
format in braces. -/
inductive PatternToken
  | literal (str : Text)
  | directive (name : Text) (fmt : Option Text)
  deriving DecidableEq, Repr

namespace PatternToken

/-- A token as it is written in a pattern. -/
def render : PatternToken → Text
  | literal str => str
  | directive name none => byte '%' :: name
  | directive name (some fmt) => byte '%' :: name ++ byte '\x7b' :: fmt ++ [byte '\x7d']

/-- The item that a token stands for, if its name is known. -/
def item? : PatternToken → Option FormatItem
  | literal str => some (.string str)
  | directive name fmt => (formatItems.lookup name).map fun cls => .item cls (fmt.getD [])

def WellFormed : PatternToken → Prop
  | literal str => str ≠ [] ∧ byte '%' ∉ str
  | directive name fmt => name ∈ formatItems.map Prod.fst ∧ ∀ f, fmt = some f → byte '\x7d' ∉ f

/-- A byte that would still belong to the directive in front of it. -/
def Extends (b : UInt8) : Prop := isAlpha b = true ∨ b = byte '\x7b' ∨ b = byte '\x7d'

/-- Which tokens may stand next to each other. -/
def Adjacent : PatternToken → PatternToken → Prop
  | literal _, literal _ => False
  | directive _ none, literal str => ∀ b, str.head? = some b → ¬ Extends b
  | _, _ => True

/-- A list of tokens that its concatenation is to be read back as. -/
structure Pattern (ts : List PatternToken) : Prop where
  wellFormed : ∀ t ∈ ts, t.WellFormed
  chain : ts.IsChain Adjacent

theorem Pattern.tail {t : PatternToken} {ts : List PatternToken} (h : Pattern (t :: ts)) :
    Pattern ts :=
  ⟨fun u hu => h.wellFormed u (List.mem_cons_of_mem t hu), h.chain.tail⟩

/-- The element of `vec` for a token. -/
def scanned : PatternToken → LogFormatter.Token
  | literal str => .literal str
  | directive name fmt => .directive name (fmt.getD [])

end PatternToken

namespace LogFormatter
open PatternToken

/-- Every known name is one letter. -/
theorem known_letter {name : Text} (h : name ∈ formatItems.map Prod.fst) :
    ∃ b, name = [b] ∧ isAlpha b = true := by
  have hall : ∀ n ∈ formatItems.map Prod.fst, n.length = 1 ∧ n.all isAlpha = true := by decide
  obtain ⟨hlen, halpha⟩ := hall name h
  obtain ⟨b, rfl⟩ := List.length_eq_one_iff.mp hlen
  exact ⟨b, rfl, by simpa using halpha⟩

theorem alpha_ne {b c : UInt8} (h : isAlpha b = true) (hc : isAlpha c = false) : b ≠ c := by
  intro hbc
  rw [hbc, hc] at h
  contradiction

/-- What the text from a position on says about the byte there and the text behind it. -/
theorem drop_cons {p rest : Text} {n : Nat} {b : UInt8} (h : p.drop n = b :: rest) :
    p[n]? = some b ∧ p.drop (n + 1) = rest := by
  constructor
  · rw [← List.head?_drop, h]
    rfl
  · rw [← List.tail_drop, h]
    rfl

theorem drop_length {p rest : Text} {n : Nat} (h : p.drop n = rest) (hr : rest ≠ []) :
    p.length = n + rest.length := by
  have := congrArg List.length h
  have hpos := List.length_pos_of_ne_nil hr
  rw [List.length_drop] at this
  omega

/-- The bytes up to the end of a stretch are a slice of the pattern. -/
theorem substr_drop {p s rest : Text} {n : Nat} (h : p.drop n = s ++ rest) :
    p.substr n s.length = s := by
  rw [Text.substr, h, List.take_left]

/-- Inside the braces the inner loop reads up to the first closing one. -/
theorem scanDirective_fmt {p post str : Text} (i begin : Nat) (hstr : str ≠ []) :
    ∀ (fmt : Text) (n fuel : Nat), byte '\x7d' ∉ fmt → p.drop n = fmt ++ byte '\x7d' :: post →
      fmt.length < fuel →
      scanDirective p i fuel n (some begin) str =
        { str := str
          fmt := p.substr (begin + 1) (n + fmt.length - begin - 1)
          closed := true
          n := n + fmt.length + 1 } := by
  intro fmt
  induction fmt with
  | nil =>
    intro n fuel _ hp hfuel
    obtain ⟨fuel, rfl⟩ := Nat.exists_eq_add_one.mpr (Nat.zero_lt_of_lt hfuel)
    simp [scanDirective, (drop_cons hp).1]
  | cons b fmt ih =>
    intro n fuel hfmt hp hfuel
    obtain ⟨fuel, rfl⟩ := Nat.exists_eq_add_one.mpr (Nat.zero_lt_of_lt hfuel)
    obtain ⟨hb, hnot⟩ := List.ne_and_not_mem_of_not_mem_cons hfmt
    obtain ⟨hat, hnext⟩ := drop_cons hp
    have hrun := ih (n + 1) fuel hnot hnext (Nat.lt_of_succ_lt_succ hfuel)
    simp only [scanDirective, hat, hb.symm, hstr, and_false, if_false, hrun, List.length_cons]
    rw [Nat.add_right_comm n 1, Nat.add_assoc n]

theorem name_substr {p rest : Text} {i : Nat} {b : UInt8} (hp : p.drop (i + 1) = b :: rest) :
    p.substr (i + 1) (i + 1 + 1 - i - 1) = [b] := by
  rw [show i + 1 + 1 - i - 1 = [b].length by rw [List.length_singleton]; omega]
  exact substr_drop hp

/-- One turn of the inner loop on a letter of the name. -/
theorem scanDirective_letter {p rest : Text} {i n fuel : Nat} {b : UInt8} (hb : isAlpha b = true)
    (hp : p.drop n = b :: rest) :
    scanDirective p i (fuel + 1) n none [] =
      scanDirective p i fuel (n + 1) none (if rest = [] then p.drop (i + 1) else []) := by
  have hlen := drop_length hp (List.cons_ne_nil b rest)
  have hend : n + 1 = p.length ↔ rest = [] := by
    rw [← List.length_eq_zero_iff]
    rw [List.length_cons] at hlen
    omega
  have hne := alpha_ne hb (by decide : isAlpha (byte '\x7b') = false)
  simp [scanDirective, (drop_cons hp).1, hb, hne, hend]

/-- The inner loop on a directive with a format. -/
theorem scanDirective_braced {p post fmt : Text} {i : Nat} {b : UInt8} (hb : isAlpha b = true)
    (hfmt : byte '\x7d' ∉ fmt)
    (hp : p.drop (i + 1) = b :: byte '\x7b' :: (fmt ++ byte '\x7d' :: post)) :
    scanDirective p i p.length (i + 1) none [] =
      { str := [b], fmt := fmt, closed := true, n := i + fmt.length + 4 } := by
  obtain ⟨-, hopen⟩ := drop_cons hp
  obtain ⟨hat, hrest⟩ := drop_cons hopen
  have hlen := drop_length hp (by simp)
  simp only [List.length_cons, List.length_append] at hlen
  obtain ⟨fuel, hfuel⟩ : ∃ fuel, p.length = fuel + 2 := ⟨p.length - 2, by omega⟩
  have hname := name_substr hp
  have hslice : p.substr (i + 3) (i + 3 + fmt.length - (i + 2) - 1) = fmt := by
    rw [show i + 3 + fmt.length - (i + 2) - 1 = fmt.length by omega]
    exact substr_drop hrest
  have hrun := scanDirective_fmt i (i + 2) (List.cons_ne_nil b []) fmt (i + 3) fuel hfmt hrest
    (by omega)
  rw [hfuel, scanDirective_letter hb hp, if_neg (List.cons_ne_nil _ _), scanDirective, hat]
  simp only [hname, hrun, hslice, bne_self_eq_false, Bool.and_false, Bool.false_and, if_true,
    Bool.false_eq_true, if_false]
  rw [show i + 3 + fmt.length + 1 = i + fmt.length + 4 by omega]

/-- The inner loop on a directive without a format: it stops at the first byte that is neither a
letter nor a brace, or at the end of the pattern. -/
theorem scanDirective_plain {p post : Text} {i : Nat} {b : UInt8} (hb : isAlpha b = true)
    (hpost : ∀ c, post.head? = some c → ¬ Extends c) (hp : p.drop (i + 1) = b :: post) :
    scanDirective p i p.length (i + 1) none [] =
      { str := [b], fmt := [], closed := true, n := i + 2 } := by
  have hlen := drop_length hp (List.cons_ne_nil b post)
  rw [List.length_cons] at hlen
  obtain ⟨fuel, hfuel⟩ : ∃ fuel, p.length = fuel + 1 := ⟨p.length - 1, by omega⟩
  obtain ⟨-, hrest⟩ := drop_cons hp
  rw [hfuel, scanDirective_letter hb hp]
  cases post with
  | nil =>
    have hend : p[i + 1 + 1]? = none := by
      rw [← List.head?_drop, hrest]
      rfl
    cases fuel with
    | zero => simp [scanDirective, hp]
    | succ fuel => simp [scanDirective, hp, hend]
  | cons c post =>
    have hc := hpost c rfl
    obtain ⟨hat, -⟩ := drop_cons hrest
    obtain ⟨fuel, rfl⟩ : ∃ k, fuel = k + 1 := ⟨fuel - 1, by rw [List.length_cons] at hlen; omega⟩
    have hname := name_substr hp
    simp only [Extends, not_or] at hc
    simp [scanDirective, hat, hname, hc]

/-- The outer loop collects literal text. -/
theorem scan_literal {p post : Text} {vec : List Token} {error : Bool} :
    ∀ (s : Text) (n fuel : Nat) (nstr : Text), byte '%' ∉ s → p.drop n = s ++ post →
      scan p (s.length + fuel) n nstr vec error =
        scan p fuel (n + s.length) (nstr ++ s) vec error := by
  intro s
  induction s with
  | nil =>
    intro n fuel nstr _ _
    simp
  | cons b s ih =>
    intro n fuel nstr hs hp
    obtain ⟨hb, hnot⟩ := List.ne_and_not_mem_of_not_mem_cons hs
    obtain ⟨hat, hnext⟩ := drop_cons hp
    rw [List.length_cons, Nat.add_right_comm, scan, hat]
    simp only [ne_eq, hb.symm, not_false_eq_true, if_true]
    rw [ih (n + 1) fuel (nstr ++ [b]) hnot hnext, List.append_assoc, Nat.add_right_comm n 1,
      Nat.add_assoc n]
    rfl

/-- The outer loop on a directive goes on behind it, with the text in front of it put down. -/
theorem scan_directive {p post name nstr : Text} {fmt : Option Text} {n fuel : Nat}
    {vec : List Token} {error : Bool} (ht : (directive name fmt).WellFormed)
    (hpost : fmt = none → ∀ c, post.head? = some c → ¬ Extends c)
    (hp : p.drop n = (directive name fmt).render ++ post) :
    scan p (fuel + 1) n nstr vec error =
      scan p fuel (n + (directive name fmt).render.length) []
        (vec ++ flush nstr ++ [(directive name fmt).scanned]) error := by
  obtain ⟨hname, hfmt⟩ := ht
  obtain ⟨b, rfl, hb⟩ := known_letter hname
  cases fmt with
  | none =>
    obtain ⟨hat, hnext⟩ := drop_cons hp
    have hat' := (drop_cons hnext).1
    have hpercent := alpha_ne hb (by decide : isAlpha (byte '%') = false)
    have hrun := scanDirective_plain hb (hpost rfl) hnext
    simp only [scan, hat, hat', ne_eq, not_true_eq_false, if_false, Option.some.injEq,
      hpercent, hrun, if_true, render, scanned, Option.getD_none, List.length_cons,
      List.length_nil]
  | some f =>
    have hp' : p.drop n = byte '%' :: b :: byte '\x7b' :: (f ++ byte '\x7d' :: post) := by
      rw [hp]
      simp [render]
    obtain ⟨hat, hnext⟩ := drop_cons hp'
    have hat' := (drop_cons hnext).1
    have hpercent := alpha_ne hb (by decide : isAlpha (byte '%') = false)
    have hrun := scanDirective_braced hb (hfmt f rfl) hnext
    have hend : n + f.length + 4 = n + (directive [b] (some f)).render.length := by
      simp only [render, List.length_append, List.length_cons, List.length_nil]
      omega
    simp only [scan, hat, hat', ne_eq, not_true_eq_false, if_false, Option.some.injEq,
      hpercent, hrun, if_true, hend, scanned, Option.getD_some]

/-- Behind a directive without a format nothing follows that would belong to it. -/
theorem directive_ends {name : Text} {ts : List PatternToken}
    (h : Pattern (directive name none :: ts)) :
    ∀ c, (ts.flatMap render).head? = some c → ¬ Extends c := by
  intro c hc
  cases ts with
  | nil => simp at hc
  | cons t ts =>
    have hadj := (List.isChain_cons_cons.mp h.chain).1
    cases t with
    | literal s =>
      have hs := (h.wellFormed (literal s) (by simp)).1
      apply hadj c
      obtain ⟨b, s, rfl⟩ := List.exists_cons_of_ne_nil hs
      simpa [render] using hc
    | directive other fmt =>
      have hpercent : c = byte '%' := by
        cases fmt <;> simp [render] at hc <;> exact hc.symm
      rw [hpercent]
      unfold Extends
      decide

/-- The outer loop on a whole pattern. Text can only be waiting in `nstr` where a literal has just
been read, and no second one follows it. -/
theorem scan_tokens {p : Text} {error : Bool} :
    ∀ (ts : List PatternToken) (n fuel : Nat) (nstr : Text) (vec : List Token), Pattern ts →
      (nstr ≠ [] → ∀ s, ts.head? ≠ some (literal s)) → p.drop n = ts.flatMap render →
      (ts.flatMap render).length < fuel →
      scan p fuel n nstr vec error = (vec ++ flush nstr ++ ts.map scanned, error) := by
  intro ts
  induction ts with
  | nil =>
    intro n fuel nstr vec _ _ hp hfuel
    obtain ⟨fuel, rfl⟩ := Nat.exists_eq_add_one.mpr (Nat.zero_lt_of_lt hfuel)
    have hend : p[n]? = none := by
      rw [← List.head?_drop, hp]
      rfl
    simp [scan, hend]
  | cons t ts ih =>
    intro n fuel nstr vec hts hnstr hp hfuel
    have ht := hts.wellFormed t (List.mem_cons_self)
    rw [List.flatMap_cons] at hp hfuel
    rw [List.length_append] at hfuel
    have hnext : p.drop (n + t.render.length) = ts.flatMap render := by
      rw [← List.drop_drop, hp, List.drop_left]
    cases t with
    | literal s =>
      have hempty : nstr = [] := by
        by_contra hne
        exact hnstr hne s rfl
      have hlone : ∀ u, ts.head? ≠ some (literal u) := by
        intro u hu
        cases ts with
        | nil => simp at hu
        | cons t ts =>
          obtain rfl : t = literal u := by simpa using hu
          exact (List.isChain_cons_cons.mp hts.chain).1
      obtain ⟨hne, hpercent⟩ := ht
      obtain ⟨k, rfl⟩ := Nat.exists_eq_add_of_le (Nat.le_of_lt (Nat.lt_of_le_of_lt
        (Nat.le_add_right s.length _) hfuel))
      rw [scan_literal s n k nstr hpercent hp, hempty,
        ih (n + s.length) k ([] ++ s) vec hts.tail (fun _ => hlone) hnext
          (Nat.lt_of_add_lt_add_left hfuel)]
      simp [flush, hne, scanned]
    | directive name fmt =>
      obtain ⟨fuel, rfl⟩ := Nat.exists_eq_add_one.mpr (Nat.zero_lt_of_lt hfuel)
      have hends : fmt = none → ∀ c, (ts.flatMap render).head? = some c → ¬ Extends c := by
        rintro rfl
        exact directive_ends hts
      have hpos : 0 < (directive name fmt).render.length := by
        cases fmt <;> simp [render]
      rw [scan_directive ht hends hp, ih _ fuel [] _ hts.tail (fun h => absurd rfl h) hnext (by omega)]
      simp [flush]

/-- What becomes of a scanned token is the item it stands for, without an error. -/
theorem item_scanned {t : PatternToken} (ht : t.WellFormed) :
    some (item t.scanned).1 = t.item? ∧ (item t.scanned).2 = false := by
  cases t with
  | literal s => exact ⟨rfl, rfl⟩
  | directive name fmt =>
    have hfound : ∀ n ∈ formatItems.map Prod.fst, (formatItems.lookup n).isSome = true := by decide
    obtain ⟨cls, hcls⟩ := Option.isSome_iff_exists.mp (hfound name ht.1)
    simp [item, scanned, item?, hcls]

/-- What a pattern is read as. -/
theorem create_tokens {ts : List PatternToken} (h : Pattern ts) :
    (create (ts.flatMap render)).isError = false ∧
      (create (ts.flatMap render)).items = ts.map fun t => (item t.scanned).1 := by
  have hscan : scan (ts.flatMap render) ((ts.flatMap render).length + 1) 0 [] [] false =
      (ts.map scanned, false) := by
    exact scan_tokens ts 0 _ [] [] h (fun hne => absurd rfl hne) rfl (Nat.lt_succ_self _)
  simp only [create, isError, hscan, List.map_map, Bool.false_or]
  constructor
  · rw [List.any_map, List.any_eq_false]
    intro t ht
    simp [(item_scanned (h.wellFormed t ht)).2]
  · rfl

/-- A pattern is read back as the tokens it is made of: no error, and one item for each token. -/
theorem create_pattern {ts : List PatternToken} (h : Pattern ts) :
    (create (ts.flatMap render)).isError = false ∧
      (create (ts.flatMap render)).items.map some = ts.map item? := by
  obtain ⟨herror, hitems⟩ := create_tokens h
  refine ⟨herror, ?_⟩
  rw [hitems, List.map_map]
  apply List.map_congr_left
  intro t ht
  exact (item_scanned (h.wellFormed t ht)).1

/-- `%d{%Y}[%p]%T%m`. -/
theorem create_pattern_default :
    (create (text "%d\x7b%Y\x7d[%p]%T%m")).isError = false ∧
      (create (text "%d\x7b%Y\x7d[%p]%T%m")).items.map some =
        [some (.item .dateTime (text "%Y")), some (.string (text "[")), some (.item .level []),
          some (.string (text "]")), some (.item .tab []), some (.item .message [])] := by
  have h : Pattern [directive (text "d") (some (text "%Y")), literal (text "["),
      directive (text "p") none, literal (text "]"), directive (text "T") none,
      directive (text "m") none] := by
    constructor
    · simp only [List.mem_cons, List.not_mem_nil, or_false, forall_eq_or_imp, forall_eq, WellFormed]
      decide
    · simp only [List.isChain_cons_cons, Adjacent, List.isChain_singleton, and_true, true_and]
      intro b hb
      cases hb
      unfold Extends
      decide
  exact create_pattern h

end LogFormatter
end HxSylar
