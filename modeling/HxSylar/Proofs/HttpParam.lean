import HxSylar.HttpParam
import HxSylar.Lib.Pieces
import HxSylar.Proofs.HttpElements

namespace HxSylar
open Lib

/-- The two ways `PARSE_PARAM` is used: for a query or a form body, and for a cookie header. -/
inductive ParamSyntax
  | form | cookie
  deriving DecidableEq, Repr

namespace ParamSyntax

def flag : ParamSyntax → UInt8
  | form => byte '&'
  | cookie => byte ';'

def trim : ParamSyntax → Text → Text
  | form => id
  | cookie => HxSylar.trim

/-- A piece of the grammar, cut at its first `=`. -/
def pair (s : ParamSyntax) (piece : Text) : Option (Text × Text) :=
  if byte '=' ∈ piece then
    some (s.trim (piece.takeWhile (· != byte '=')),
      urlDecode ((piece.dropWhile (· != byte '=')).drop 1))
  else none

/-- The grammar: split at every separator, drop the pieces without `=`. -/
def pairs (s : ParamSyntax) (str : Text) : List (Text × Text) :=
  (str.splitOn s.flag).filterMap s.pair

/-- What the loop makes of the pieces: one without `=` is put in front of the next key. -/
def merged (s : ParamSyntax) : Text → List Text → List (Text × Text)
  | _, [] => []
  | pending, p :: ps =>
    if byte '=' ∈ p then
      (s.trim (pending ++ p.takeWhile (· != byte '=')),
        urlDecode ((p.dropWhile (· != byte '=')).drop 1)) :: s.merged [] ps
    else s.merged (pending ++ p ++ [s.flag]) ps

/-- No piece without `=` stands before a piece with one. -/
def Ordered (s : ParamSyntax) (str : Text) : Prop :=
  (str.splitOn s.flag).Pairwise fun p q => byte '=' ∈ q → byte '=' ∈ p

end ParamSyntax

section Loop
variable {s : ParamSyntax} {str : Text}

/-- A byte is found behind the stretch that does not have it. -/
theorem findByte_eq {c : UInt8} {pos : Nat} {u v : Text} (hstr : str.drop pos = u ++ c :: v)
    (hu : c ∉ u) : findByte str c pos = some (pos + u.length) := by
  rw [findByte, hstr, Pieces.idxOf?_sep hu]
  rfl

theorem findByte_none {c : UInt8} {pos : Nat} (h : c ∉ str.drop pos) : findByte str c pos = none := by
  rw [findByte, List.idxOf?_eq_none_iff.mpr h]
  rfl

theorem drop_append {pos : Nat} {u v : Text} (h : str.drop pos = u ++ v) :
    str.substr pos u.length = u ∧ str.drop (pos + u.length) = v := by
  constructor
  · rw [Text.substr, h, List.take_left]
  · rw [← List.drop_drop, h, List.drop_left]

theorem merged_none {pending : Text} {ps : List Text} (h : ∀ p ∈ ps, byte '=' ∉ p) :
    s.merged pending ps = [] := by
  induction ps generalizing pending with
  | nil => rfl
  | cons p ps ih =>
    obtain ⟨hp, hps⟩ := List.forall_mem_cons.mp h
    rw [ParamSyntax.merged, if_neg hp, ih hps]

theorem flag_ne_equals (s : ParamSyntax) : s.flag ≠ byte '=' := by
  cases s <;> decide

/-- One turn of the loop takes the pieces up to the first one with `=`. -/
theorem merged_turn {v : Text} (ps : List Text) (hv : s.flag ∉ v) :
    ∀ (n : Nat) (u pending : Text), u.length = n → byte '=' ∉ u →
      s.merged pending ((u ++ byte '=' :: v).splitOn s.flag ++ ps) =
        (s.trim (pending ++ u), urlDecode v) :: s.merged [] ps := by
  intro n
  induction n using Nat.strongRecOn with
  | _ n ih =>
    intro u pending hn hu
    by_cases hflag : s.flag ∈ u
    · obtain ⟨u₁, u₂, rfl, hu₁⟩ := List.eq_append_cons_of_mem hflag
      simp only [List.mem_append, List.mem_cons, not_or] at hu
      rw [List.append_assoc, List.cons_append, List.splitOn_append_cons_self_of_not_mem hu₁,
        List.cons_append, ParamSyntax.merged, if_neg hu.1,
        ih u₂.length (by rw [← hn]; simp; omega) u₂ _ rfl hu.2.2]
      simp
    · have hpiece : s.flag ∉ u ++ byte '=' :: v := by
        simp [hflag, hv, flag_ne_equals s]
      rw [List.splitOn_eq_singleton hpiece, List.singleton_append, ParamSyntax.merged,
        if_pos (by simp), Pieces.takeWhile_sep hu, Pieces.dropWhile_sep hu]
      rfl

/-- The loop on the last pair: no separator behind its `=`. -/
theorem parseParamLoop_last {μ : Type*} {insert : μ → Text → Text → μ} {fuel pos : Nat} {m : μ}
    {u v : Text} (hstr : str.drop pos = u ++ byte '=' :: v) (hu : byte '=' ∉ u) (hv : s.flag ∉ v) :
    parseParamLoop insert str s.flag s.trim (fuel + 1) pos m =
      insert m (s.trim u) (urlDecode v) := by
  obtain ⟨hname, hrest⟩ := drop_append hstr
  obtain ⟨-, hvalue⟩ := drop_append (u := [byte '=']) hrest
  have hpos : findByte str s.flag (pos + u.length) = none := by
    apply findByte_none
    rw [hrest]
    simp [hv, flag_ne_equals s]
  have hlen : pos + u.length - pos = u.length := by omega
  rw [List.length_singleton] at hvalue
  simp only [parseParamLoop, findByte_eq hstr hu, hpos, hlen, hname, hvalue]

/-- One turn of the loop on a pair that is not the last. -/
theorem parseParamLoop_turn {μ : Type*} (insert : μ → Text → Text → μ) (fuel : Nat) (m : μ)
    {pos : Nat} {u v rest : Text} (hstr : str.drop pos = u ++ byte '=' :: (v ++ s.flag :: rest))
    (hu : byte '=' ∉ u) (hv : s.flag ∉ v) :
    parseParamLoop insert str s.flag s.trim (fuel + 1) pos m =
        parseParamLoop insert str s.flag s.trim fuel (pos + u.length + 1 + v.length + 1)
          (insert m (s.trim u) (urlDecode v)) ∧
      str.drop (pos + u.length + 1 + v.length + 1) = rest := by
  obtain ⟨hname, hrest⟩ := drop_append hstr
  obtain ⟨-, hafter⟩ := drop_append (u := [byte '=']) hrest
  rw [List.length_singleton] at hafter
  obtain ⟨hvalue, hflag⟩ := drop_append hafter
  obtain ⟨-, hnext⟩ := drop_append (u := [s.flag]) hflag
  refine ⟨?_, hnext⟩
  have hin : s.flag ∉ byte '=' :: v := by simp [hv, flag_ne_equals s]
  have hpos := findByte_eq (u := byte '=' :: v) hrest hin
  have hend : pos + u.length + (byte '=' :: v).length = pos + u.length + 1 + v.length := by
    rw [List.length_cons]
    omega
  have hlen : pos + u.length - pos = u.length := by omega
  have hwidth : pos + u.length + 1 + v.length - (pos + u.length) - 1 = v.length := by omega
  rw [hend] at hpos
  simp only [parseParamLoop, findByte_eq hstr hu, hpos, hlen, hwidth, hname, hvalue]

/-- The loop inserts what it makes of the pieces, in their order. -/
theorem parseParamLoop_eq {μ : Type*} (insert : μ → Text → Text → μ) (s : ParamSyntax) (str : Text) :
    ∀ (fuel pos : Nat) (m : μ), str.length < pos + fuel →
      parseParamLoop insert str s.flag s.trim fuel pos m =
        (s.merged [] ((str.drop pos).splitOn s.flag)).foldl (fun m p => insert m p.1 p.2) m := by
  intro fuel
  induction fuel with
  | zero =>
    intro pos m hfuel
    rw [List.drop_eq_nil_of_le (by omega), List.splitOn_nil]
    rfl
  | succ fuel ih =>
    intro pos m hfuel
    by_cases hmem : byte '=' ∈ str.drop pos
    · obtain ⟨u, w, hstr, hu⟩ := List.eq_append_cons_of_mem hmem
      by_cases hflag : s.flag ∈ w
      · obtain ⟨v, rest, rfl, hv⟩ := List.eq_append_cons_of_mem hflag
        obtain ⟨hturn, hnext⟩ := parseParamLoop_turn insert fuel m hstr hu hv
        have hpieces := merged_turn (rest.splitOn s.flag) hv u.length u [] rfl hu
        rw [← List.splitOn_append_cons_self, List.append_assoc, List.cons_append, ← hstr] at hpieces
        rw [hturn, ih _ _ (by omega), hnext, hpieces]
        rfl
      · have hpieces := merged_turn [] hflag u.length u [] rfl hu
        rw [List.append_nil, ← hstr] at hpieces
        rw [parseParamLoop_last hstr hu hflag, hpieces]
        rfl
    · rw [parseParamLoop, findByte_none hmem, merged_none]
      · rfl
      · intro p hp hin
        exact hmem ((Pieces.splitOn_piece hp).2 hin)

theorem parseParam_eq {μ : Type*} (insert : μ → Text → Text → μ) (s : ParamSyntax) (str : Text)
    (m : μ) : parseParam insert str s.flag s.trim m =
      (s.merged [] (str.splitOn s.flag)).foldl (fun m p => insert m p.1 p.2) m :=
  parseParamLoop_eq insert s str _ 0 m (by omega)

end Loop

section Grammar
variable {s : ParamSyntax}

theorem trim_subset (t : Text) : trim t ⊆ t := by
  intro b hb
  simp only [trim, List.mem_reverse] at hb
  have h := (List.dropWhile_sublist _).subset hb
  rw [List.mem_reverse] at h
  exact (List.dropWhile_sublist _).subset h

/-- What is dropped from the front was dropped for a reason. -/
theorem mem_dropWhile_of_not {p : UInt8 → Bool} {b : UInt8} {t : Text} (hb : b ∈ t)
    (hp : p b = false) : b ∈ t.dropWhile p := by
  induction t with
  | nil => exact hb
  | cons c t ih =>
    rw [List.dropWhile_cons]
    split
    · rename_i hc
      rcases List.mem_cons.mp hb with rfl | hb
      · rw [hp] at hc
        contradiction
      · exact ih hb
    · exact hb

/-- Trimming keeps the separator and brings none. -/
theorem flag_mem_trim (s : ParamSyntax) (t : Text) : s.flag ∈ s.trim t ↔ s.flag ∈ t := by
  cases s with
  | form => exact Iff.rfl
  | cookie =>
    constructor
    · intro h
      exact trim_subset t h
    · intro h
      have hblank : ((text " \t\r\n").contains (byte ';')) = false := by decide
      simp only [ParamSyntax.flag, ParamSyntax.trim, trim, List.mem_reverse] at h ⊢
      apply mem_dropWhile_of_not _ hblank
      rw [List.mem_reverse]
      exact mem_dropWhile_of_not h hblank

theorem pair_of_mem {p : Text} (h : byte '=' ∈ p) :
    s.pair p = some (s.trim (p.takeWhile (· != byte '=')),
      urlDecode ((p.dropWhile (· != byte '=')).drop 1)) :=
  if_pos h

/-- A key of the grammar does not have the separator in it. -/
theorem pair_key {p : Text} {kv : Text × Text} (hp : s.flag ∉ p) (h : s.pair p = some kv) :
    s.flag ∉ kv.1 := by
  unfold ParamSyntax.pair at h
  split at h
  · cases h
    rw [flag_mem_trim]
    intro hin
    exact hp ((List.takeWhile_sublist _).subset hin)
  · cases h

/-- A pending piece puts a separator into the next key. -/
theorem merged_pending (pending : Text) {ps : List Text} (hpending : s.flag ∈ pending)
    (hps : ∃ p ∈ ps, byte '=' ∈ p) :
    ∃ kv rest, s.merged pending ps = kv :: rest ∧ s.flag ∈ kv.1 := by
  induction ps generalizing pending with
  | nil =>
    obtain ⟨p, hp, -⟩ := hps
    cases hp
  | cons q ps ih =>
    rw [ParamSyntax.merged]
    split
    · refine ⟨_, _, rfl, ?_⟩
      rw [flag_mem_trim]
      exact List.mem_append_left _ hpending
    · rename_i hq
      apply ih
      · exact List.mem_append_right _ List.mem_cons_self
      · obtain ⟨p, hp, hin⟩ := hps
        rcases List.mem_cons.mp hp with rfl | hp
        · exact absurd hin hq
        · exact ⟨p, hp, hin⟩

/-- The loop finds the pairs of the grammar exactly when no piece is merged into a later one. -/
theorem merged_eq_iff {ps : List Text} (hfree : ∀ p ∈ ps, s.flag ∉ p) :
    s.merged [] ps = ps.filterMap s.pair ↔
      ps.Pairwise fun p q => byte '=' ∈ q → byte '=' ∈ p := by
  induction ps with
  | nil => simp [ParamSyntax.merged]
  | cons p ps ih =>
    obtain ⟨hp, hps⟩ := List.forall_mem_cons.mp hfree
    rw [ParamSyntax.merged, List.pairwise_cons]
    by_cases hin : byte '=' ∈ p
    · rw [if_pos hin, List.filterMap_cons_some (pair_of_mem hin), List.nil_append, List.cons.injEq,
        ih hps]
      simp [hin]
    · have hnone : s.pair p = none := if_neg hin
      rw [if_neg hin, List.filterMap_cons_none hnone]
      by_cases hlater : ∃ q ∈ ps, byte '=' ∈ q
      · -- the first key of the loop has a separator in it, and no key of the grammar has
        obtain ⟨kv, rest, hhead, hflag⟩ := merged_pending
          ([] ++ p ++ [s.flag]) (List.mem_append_right _ List.mem_cons_self) hlater
        constructor
        · intro heq
          rw [hhead] at heq
          have hmem : kv ∈ ps.filterMap s.pair := by
            rw [← heq]
            exact List.mem_cons_self
          obtain ⟨q, hq, hpair⟩ := List.mem_filterMap.mp hmem
          exact absurd hflag (pair_key (hps q hq) hpair)
        · intro hpairs
          obtain ⟨q, hq, hqin⟩ := hlater
          exact absurd (hpairs.1 q hq hqin) hin
      · have hall : ∀ q ∈ ps, byte '=' ∉ q := fun q hq hqin => hlater ⟨q, hq, hqin⟩
        rw [merged_none hall]
        have hempty : ps.filterMap s.pair = [] := by
          rw [List.filterMap_eq_nil_iff]
          exact fun q hq => if_neg (hall q hq)
        rw [hempty]
        refine iff_of_true rfl ⟨fun q hq hqin => absurd hqin (hall q hq), ?_⟩
        exact List.pairwise_of_forall_mem_list fun q _ q' hq' hqin => absurd hqin (hall q' hq')

end Grammar

section FirstWins

/-- An entry is added unless its key is there in some case. -/
def keepFirst (m : List (Text × Text)) (p : Text × Text) : List (Text × Text) :=
  if m.any (fun e => CaseVariant e.1 p.1) then m else p :: m

/-- The calls of `insert` are those of the grammar, and of the keys that are the same up to case the
first one stays. -/
def MatchesGrammar (s : ParamSyntax) (str : Text) (m : Headers) : Prop :=
  parseParam (fun calls key val => calls ++ [(key, val)]) str s.flag s.trim [] = s.pairs str ∧
    (parseParam Headers.insert str s.flag s.trim m).Perm ((s.pairs str).foldl keepFirst m)

theorem foldl_calls (ps calls : List (Text × Text)) :
    ps.foldl (fun calls p => calls ++ [(p.1, p.2)]) calls = calls ++ ps := by
  induction ps generalizing calls with
  | nil => simp
  | cons p ps ih => simp [ih]

theorem cstr_toLower (t : Text) : Text.cstr (t.map toLower) = t.cstr.map toLower := by
  have hnull : ∀ b : UInt8, (toLower b != 0) = (b != 0) := forall_byte (by decide +kernel)
  rw [Text.cstr, List.takeWhile_map, Text.cstr]
  congr 2
  funext b
  exact hnull b

/-- `CaseInsensitiveLess` finds keys the same that agree up to case. -/
theorem same_of_variant {k k' : Text} (h : CaseVariant k k') :
    OrderedMap.same caseInsensitiveLess k k' = true := by
  rw [caseInsensitiveLess_compares.same_iff, ← cstr_toLower, ← cstr_toLower, h]

theorem sorted_insert {m : Headers} (hm : OrderedMap.Sorted caseInsensitiveLess m) (key val : Text) :
    OrderedMap.Sorted caseInsensitiveLess (m.insert key val) :=
  OrderedMap.Sorted.insert caseInsensitiveLess_compares hm key val

/-- Where the comparison tells all keys apart that differ otherwise than in case, the map is filled
as it should be. -/
theorem foldl_insert_perm (ps : List (Text × Text)) {m m' : Headers}
    (hm : OrderedMap.Sorted caseInsensitiveLess m) (hperm : m.Perm m')
    (hkeys : ∀ e ∈ m' ++ ps, ∀ e' ∈ m' ++ ps,
      OrderedMap.same caseInsensitiveLess e.1 e'.1 = true → CaseVariant e.1 e'.1) :
    (ps.foldl (fun m p => m.insert p.1 p.2) m).Perm (ps.foldl keepFirst m') := by
  induction ps generalizing m m' with
  | nil => exact hperm
  | cons p ps ih =>
    have hany : m.any (fun e => OrderedMap.same caseInsensitiveLess e.1 p.1) =
        m'.any (fun e => CaseVariant e.1 p.1) := by
      rw [hperm.any_eq, Bool.eq_iff_iff, List.any_eq_true, List.any_eq_true]
      refine exists_congr fun e => and_congr_right fun he => ?_
      rw [decide_eq_true_iff]
      exact ⟨hkeys e (by simp [he]) p (by simp), same_of_variant⟩
    have hstep : (m.insert p.1 p.2).Perm (keepFirst m' p) := by
      refine (caseInsensitiveLess_compares.insert_perm p.1 p.2 hm).trans ?_
      rw [hany, keepFirst]
      split
      · exact hperm
      · exact hperm.cons p
    refine ih (sorted_insert hm p.1 p.2) hstep ?_
    have hsub : ∀ e ∈ keepFirst m' p ++ ps, e ∈ m' ++ p :: ps := by
      intro e he
      unfold keepFirst at he
      split at he
      · rcases List.mem_append.mp he with he | he
        · exact List.mem_append_left _ he
        · exact List.mem_append_right _ (List.mem_cons_of_mem p he)
      · simp only [List.cons_append, List.mem_cons, List.mem_append] at he ⊢
        tauto
    exact fun e he e' he' => hkeys e (hsub e he) e' (hsub e' he')

/-- Every key is represented. -/
theorem foldl_keepFirst_covers (ps : List (Text × Text)) {m : List (Text × Text)} {e : Text × Text}
    (he : e ∈ m ++ ps) : ∃ e' ∈ ps.foldl keepFirst m, CaseVariant e'.1 e.1 := by
  induction ps generalizing m e with
  | nil => exact ⟨e, by simpa using he, rfl⟩
  | cons p ps ih =>
    have hnext : ∃ e₁ ∈ keepFirst m p ++ ps, CaseVariant e₁.1 e.1 := by
      unfold keepFirst
      split
      · rename_i hany
        obtain ⟨e₁, he₁, hvariant⟩ := List.any_eq_true.mp hany
        rw [List.mem_append, List.mem_cons] at he
        rcases he with he | rfl | he
        · exact ⟨e, List.mem_append_left _ he, rfl⟩
        · exact ⟨e₁, List.mem_append_left _ he₁, of_decide_eq_true hvariant⟩
        · exact ⟨e, List.mem_append_right _ he, rfl⟩
      · refine ⟨e, ?_, rfl⟩
        simp only [List.cons_append, List.mem_cons, List.mem_append] at he ⊢
        tauto
    obtain ⟨e₁, he₁, hvariant⟩ := hnext
    obtain ⟨e', he', hvariant'⟩ := ih he₁
    exact ⟨e', he', hvariant'.trans hvariant⟩

theorem sorted_foldl_insert (ps : List (Text × Text)) {m : Headers}
    (hm : OrderedMap.Sorted caseInsensitiveLess m) :
    OrderedMap.Sorted caseInsensitiveLess (ps.foldl (fun m p => Headers.insert m p.1 p.2) m) := by
  induction ps generalizing m with
  | nil => exact hm
  | cons p ps ih => exact ih (sorted_insert hm p.1 p.2)

/-- No two of the keys agree up to case before their first null byte and not as a whole. -/
def KeysTold (s : ParamSyntax) (str : Text) (m : Headers) : Prop :=
  ∀ e ∈ m ++ s.pairs str, ∀ e' ∈ m ++ s.pairs str,
    CaseVariant e.1.cstr e'.1.cstr → CaseVariant e.1 e'.1

theorem same_iff_cstr (k k' : Text) :
    OrderedMap.same caseInsensitiveLess k k' = true ↔ CaseVariant k.cstr k'.cstr :=
  caseInsensitiveLess_compares.same_iff k k'

/-- `PARSE_PARAM` follows the grammar exactly when no piece without `=` stands before one with `=`,
which it becomes part of, and no null byte hides how two keys differ. -/
theorem matchesGrammar_iff (s : ParamSyntax) (str : Text) {m : Headers}
    (hm : OrderedMap.Sorted caseInsensitiveLess m) :
    MatchesGrammar s str m ↔ s.Ordered str ∧ KeysTold s str m := by
  have hpieces : s.merged [] (str.splitOn s.flag) = s.pairs str ↔ s.Ordered str :=
    merged_eq_iff fun p hp => (Pieces.splitOn_piece hp).1
  have hcalls : parseParam (fun calls key val => calls ++ [(key, val)]) str s.flag s.trim [] =
      s.merged [] (str.splitOn s.flag) := by
    rw [parseParam_eq]
    exact foldl_calls _ []
  rw [MatchesGrammar, hcalls, hpieces]
  refine and_congr_right fun hordered => ?_
  rw [parseParam_eq, hpieces.mpr hordered]
  constructor
  · intro hperm e he e' he' hsame
    obtain ⟨e₁, he₁, hv₁⟩ := foldl_keepFirst_covers _ he
    obtain ⟨e₂, he₂, hv₂⟩ := foldl_keepFirst_covers _ he'
    have himage : CaseVariant e₁.1.cstr e₂.1.cstr :=
      calc e₁.1.cstr.map toLower
        _ = e.1.cstr.map toLower := (same_iff_cstr _ _).mp (same_of_variant hv₁)
        _ = e'.1.cstr.map toLower := hsame
        _ = e₂.1.cstr.map toLower := ((same_iff_cstr _ _).mp (same_of_variant hv₂)).symm
    have hone := (sorted_foldl_insert _ hm).unique caseInsensitiveLess_compares
      (hperm.mem_iff.mpr he₁) (hperm.mem_iff.mpr he₂) himage
    rw [hone] at hv₁
    exact hv₁.symm.trans hv₂
  · intro hkeys
    apply foldl_insert_perm _ hm (List.Perm.refl m)
    intro e he e' he' hsame
    exact hkeys e he e' he' ((same_iff_cstr _ _).mp hsame)

/-- `a=1&A=2&b=x%3Dy+z` with its second key dropped. -/
theorem matchesGrammar_query :
    ParamSyntax.form.pairs (text "a=1&A=2&b=x%3Dy+z") =
        [(text "a", text "1"), (text "A", text "2"), (text "b", text "x=y z")] ∧
      MatchesGrammar .form (text "a=1&A=2&b=x%3Dy+z") [] := by
  have hpairs : ParamSyntax.form.pairs (text "a=1&A=2&b=x%3Dy+z") =
      [(text "a", text "1"), (text "A", text "2"), (text "b", text "x=y z")] := by decide
  refine ⟨hpairs, (matchesGrammar_iff _ _ List.Pairwise.nil).mpr ⟨?_, ?_⟩⟩
  · unfold ParamSyntax.Ordered
    decide
  · unfold KeysTold
    rw [hpairs]
    decide

/-- In `a&b=1` the key is `a&b`. -/
theorem matchesGrammar_merges :
    ParamSyntax.form.pairs (text "a&b=1") = [(text "b", text "1")] ∧
      parseParam Headers.insert (text "a&b=1") (byte '&') id [] = [(text "a&b", text "1")] ∧
      ¬MatchesGrammar .form (text "a&b=1") [] := by
  refine ⟨by decide, by decide +kernel, ?_⟩
  intro h
  have hcalls := h.1
  revert hcalls
  decide

end FirstWins
end HxSylar
