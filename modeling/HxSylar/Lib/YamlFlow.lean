import HxSylar.Lib.Yaml
import Mathlib.Logic.Function.Defs

namespace HxSylar.Lib.Yaml

/-- A byte of a scalar in double quotes. -/
def escape (b : UInt8) : Text := if b = 34 ∨ b = 92 then [92, b] else [b]

def quote (t : Text) : Text := 34 :: (t.flatMap escape ++ [34])

-- The flow style: every scalar in quotes and a comma behind every item.
mutual
def flow : YamlNode → Text
  | .null => text "~"
  | .scalar t => quote t
  | .sequence items => 91 :: flowItems items
  | .map entries => 123 :: flowEntries entries

def flowItems : List YamlNode → Text
  | [] => [93]
  | n :: ns => flow n ++ (44 :: flowItems ns)

def flowEntries : List (YamlNode × YamlNode) → Text
  | [] => [125]
  | (k, v) :: es => flow k ++ (58 :: 32 :: (flow v ++ (44 :: flowEntries es)))
end

theorem escape_cons (b : UInt8) :
    ∃ c cs, escape b = c :: cs ∧ c ≠ 34 ∧ ∀ b' t t', escape b ++ t = escape b' ++ t' → b = b' := by
  by_cases hb : b = 34 ∨ b = 92
  · refine ⟨92, [b], if_pos hb, by decide, ?_⟩
    intro b' t t' heq
    by_cases hb' : b' = 34 ∨ b' = 92
    · rw [escape, escape, if_pos hb, if_pos hb'] at heq
      cases heq
      rfl
    · rw [escape, escape, if_pos hb, if_neg hb'] at heq
      cases heq
      exact absurd (Or.inr rfl) hb'
  · refine ⟨b, [], if_neg hb, fun h => hb (Or.inl h), ?_⟩
    intro b' t t' heq
    by_cases hb' : b' = 34 ∨ b' = 92
    · rw [escape, escape, if_neg hb, if_pos hb'] at heq
      cases heq
      exact absurd (Or.inr rfl) hb
    · rw [escape, escape, if_neg hb, if_neg hb'] at heq
      cases heq
      rfl

/-- The end of a quoted scalar is where it is, whatever follows. -/
theorem quoted_inj {t t' r r' : Text}
    (h : t.flatMap escape ++ 34 :: r = t'.flatMap escape ++ 34 :: r') : t = t' ∧ r = r' := by
  induction t generalizing t' with
  | nil =>
    cases t' with
    | nil =>
      cases h
      exact ⟨rfl, rfl⟩
    | cons b' t' =>
      obtain ⟨c, cs, hc, hne, -⟩ := escape_cons b'
      rw [List.flatMap_cons, hc] at h
      cases h
      exact absurd rfl hne
  | cons b t ih =>
    obtain ⟨c, cs, hc, hne, hinj⟩ := escape_cons b
    cases t' with
    | nil =>
      rw [List.flatMap_cons, hc] at h
      cases h
      exact absurd rfl hne
    | cons b' t' =>
      rw [List.flatMap_cons, List.flatMap_cons, List.append_assoc, List.append_assoc] at h
      obtain rfl := hinj b' _ _ h
      obtain ⟨rfl, hr⟩ := ih (List.append_cancel_left h)
      exact ⟨rfl, hr⟩

theorem quote_inj {t t' r r' : Text} (h : quote t ++ r = quote t' ++ r') : t = t' ∧ r = r' := by
  simp only [quote, List.cons_append, List.append_assoc, List.nil_append, List.cons.injEq,
    true_and] at h
  exact quoted_inj h

/-- The first byte of a node tells its kind. -/
def opening : YamlNode → UInt8
  | .null => 126
  | .scalar _ => 34
  | .sequence _ => 91
  | .map _ => 123

theorem flow_cons (n : YamlNode) : ∃ cs, flow n = opening n :: cs := by
  cases n with
  | null => exact ⟨[], rfl⟩
  | scalar t => exact ⟨_, by rw [flow, quote]; rfl⟩
  | sequence items => exact ⟨_, by rw [flow]; rfl⟩
  | map entries => exact ⟨_, by rw [flow]; rfl⟩

theorem opening_eq_of_flow {n m : YamlNode} {r s : Text} (h : flow n ++ r = flow m ++ s) :
    opening n = opening m := by
  obtain ⟨cs, hc⟩ := flow_cons n
  obtain ⟨cs', hc'⟩ := flow_cons m
  rw [hc, hc'] at h
  exact (List.cons.inj h).1

theorem opening_mem (n : YamlNode) : opening n ∈ [126, 34, 91, 123] := by
  cases n with
  | null => decide
  | scalar t => exact List.mem_of_elem_eq_true rfl
  | sequence items => exact List.mem_of_elem_eq_true rfl
  | map entries => exact List.mem_of_elem_eq_true rfl

/-- No node begins like the end of a list. -/
theorem flow_ne_cons {n : YamlNode} {r s : Text} {b : UInt8} (hb : b ∉ [126, 34, 91, 123]) :
    flow n ++ r ≠ b :: s := by
  obtain ⟨cs, hc⟩ := flow_cons n
  rw [hc]
  intro heq
  obtain ⟨rfl, -⟩ := List.cons.inj heq
  exact hb (opening_mem n)

-- The induction is over the node on the left; each list ends at its own bracket.
mutual
theorem flow_inj (n m : YamlNode) {r s : Text} (h : flow n ++ r = flow m ++ s) : n = m ∧ r = s := by
  have hkind := opening_eq_of_flow h
  match n, m with
  | .null, .null => exact ⟨rfl, List.append_cancel_left h⟩
  | .scalar t, .scalar t' =>
    rw [flow, flow] at h
    obtain ⟨rfl, hr⟩ := quote_inj h
    exact ⟨rfl, hr⟩
  | .sequence items, .sequence items' =>
    rw [flow, flow] at h
    obtain ⟨rfl, hr⟩ := flowItems_inj items items' (List.cons.inj h).2
    exact ⟨rfl, hr⟩
  | .map entries, .map entries' =>
    rw [flow, flow] at h
    obtain ⟨rfl, hr⟩ := flowEntries_inj entries entries' (List.cons.inj h).2
    exact ⟨rfl, hr⟩
  | .null, .scalar _ | .null, .sequence _ | .null, .map _ | .scalar _, .null
  | .scalar _, .sequence _ | .scalar _, .map _ | .sequence _, .null | .sequence _, .scalar _
  | .sequence _, .map _ | .map _, .null | .map _, .scalar _ | .map _, .sequence _ =>
    simp only [opening] at hkind
    contradiction

theorem flowItems_inj (ns ms : List YamlNode) {r s : Text}
    (h : flowItems ns ++ r = flowItems ms ++ s) : ns = ms ∧ r = s := by
  match ns, ms with
  | [], [] =>
    rw [flowItems] at h
    exact ⟨rfl, (List.cons.inj h).2⟩
  | [], m :: ms =>
    rw [flowItems, flowItems, List.append_assoc] at h
    exact absurd h.symm (flow_ne_cons (by decide))
  | n :: ns, [] =>
    rw [flowItems, flowItems, List.append_assoc] at h
    exact absurd h (flow_ne_cons (by decide))
  | n :: ns, m :: ms =>
    rw [flowItems, flowItems, List.append_assoc, List.append_assoc] at h
    obtain ⟨rfl, hrest⟩ := flow_inj n m h
    obtain ⟨rfl, hr⟩ := flowItems_inj ns ms (List.cons.inj hrest).2
    exact ⟨rfl, hr⟩

theorem flowEntries_inj (es fs : List (YamlNode × YamlNode)) {r s : Text}
    (h : flowEntries es ++ r = flowEntries fs ++ s) : es = fs ∧ r = s := by
  match es, fs with
  | [], [] =>
    rw [flowEntries] at h
    exact ⟨rfl, (List.cons.inj h).2⟩
  | [], (k, v) :: fs =>
    rw [flowEntries, flowEntries, List.append_assoc] at h
    exact absurd h.symm (flow_ne_cons (by decide))
  | (k, v) :: es, [] =>
    rw [flowEntries, flowEntries, List.append_assoc] at h
    exact absurd h (flow_ne_cons (by decide))
  | (k, v) :: es, (k', v') :: fs =>
    rw [flowEntries, flowEntries, List.append_assoc, List.append_assoc] at h
    obtain ⟨rfl, hvalue⟩ := flow_inj k k' h
    simp only [List.cons_append, List.append_assoc, List.cons.injEq, true_and] at hvalue
    obtain ⟨rfl, hrest⟩ := flow_inj v v' hvalue
    obtain ⟨rfl, hr⟩ := flowEntries_inj es fs (List.cons.inj hrest).2
    exact ⟨rfl, hr⟩
end

def isDecimal (t : Text) : Bool := (Text.parseDecimal t).any (fun i => Text.decimal i == t)

/-- A decimal scalar stands alone without quotes. -/
def plain : YamlNode → Text
  | .scalar t => if isDecimal t then t else quote t
  | n => flow n

theorem isDecimal_iff (t : Text) : isDecimal t = true ↔ ∃ i, t = .decimal i := by
  rw [isDecimal, Option.any_eq_true]
  constructor
  · rintro ⟨i, -, heq⟩
    exact ⟨i, (beq_iff_eq.mp heq).symm⟩
  · rintro ⟨i, rfl⟩
    exact ⟨i, Text.parseDecimal_decimal i, beq_self_eq_true _⟩

/-- A decimal begins with its sign or a digit. -/
theorem decimal_cons (i : Int) :
    ∃ c cs, Text.decimal i = c :: cs ∧ (c = 45 ∨ isDigit c = true) := by
  rw [Text.decimal]
  split
  · exact ⟨_, _, rfl, Or.inl rfl⟩
  · obtain ⟨c, cs, hc⟩ := List.exists_cons_of_ne_nil (Text.ofNat_ne_nil i.natAbs)
    have hdigit := Text.ofNat_all_isDigit i.natAbs
    rw [hc, List.all_cons, Bool.and_eq_true] at hdigit
    exact ⟨c, cs, hc, Or.inr hdigit.1⟩

theorem isDecimal_cons {c : UInt8} (cs : Text) (hsign : c ≠ 45) (hdigit : isDigit c = false) :
    isDecimal (c :: cs) = false := by
  rw [Bool.eq_false_iff]
  intro h
  obtain ⟨i, hi⟩ := (isDecimal_iff _).mp h
  obtain ⟨c', cs', hc', hfirst⟩ := decimal_cons i
  rw [hc'] at hi
  cases hi
  rcases hfirst with rfl | hfirst
  · exact hsign rfl
  · rw [hfirst] at hdigit
    cases hdigit

theorem plain_cases (n : YamlNode) :
    plain n = flow n ∨ ∃ i, n = .scalar (.decimal i) ∧ plain n = .decimal i := by
  cases n with
  | null => exact Or.inl rfl
  | sequence items => exact Or.inl rfl
  | map entries => exact Or.inl rfl
  | scalar t =>
    rw [plain]
    split
    · rename_i hdecimal
      obtain ⟨i, rfl⟩ := (isDecimal_iff t).mp hdecimal
      exact Or.inr ⟨i, rfl, rfl⟩
    · left
      rw [flow]

theorem plain_ne_nil (n : YamlNode) : plain n ≠ [] := by
  rcases plain_cases n with hflow | ⟨i, -, hdecimal⟩
  · obtain ⟨cs, hc⟩ := flow_cons n
    rw [hflow, hc]
    exact List.cons_ne_nil _ _
  · obtain ⟨c, cs, hc, -⟩ := decimal_cons i
    rw [hdecimal, hc]
    exact List.cons_ne_nil _ _

theorem flow_ne_decimal (n : YamlNode) (i : Int) : flow n ≠ .decimal i := by
  obtain ⟨c, cs, hc, hfirst⟩ := decimal_cons i
  rw [hc, ← List.append_nil (flow n)]
  apply flow_ne_cons
  intro hmem
  simp only [List.mem_cons, List.not_mem_nil, or_false] at hmem
  rcases hmem with rfl | rfl | rfl | rfl
  · exact absurd hfirst (by decide)
  · exact absurd hfirst (by decide)
  · exact absurd hfirst (by decide)
  · exact absurd hfirst (by decide)

theorem plain_injective : Function.Injective plain := by
  intro n m h
  rcases plain_cases n with hn | ⟨i, rfl, hn⟩
  · rcases plain_cases m with hm | ⟨j, rfl, hm⟩
    · rw [hn, hm] at h
      exact (flow_inj n m (congrArg (fun t => t ++ []) h)).1
    · rw [hn, hm] at h
      exact absurd h (flow_ne_decimal n j)
  · rcases plain_cases m with hm | ⟨j, rfl, hm⟩
    · rw [hn, hm] at h
      exact absurd h.symm (flow_ne_decimal m i)
    · rw [hn, hm] at h
      rw [h]

/-- The library that writes the flow style. -/
noncomputable def flowYaml : Yaml where
  emit := plain
  load t := open Classical in
    if t = [] then some .null
    else if h : ∃ n, plain n = t then some h.choose
    else none

theorem flowYaml_loadsEmitted : flowYaml.LoadsEmitted := by
  intro n
  have hex : ∃ m, plain m = plain n := ⟨n, rfl⟩
  simp only [flowYaml, if_neg (plain_ne_nil n), dif_pos hex]
  rw [plain_injective hex.choose_spec]

theorem flowYaml_loadsEmpty : flowYaml.LoadsEmpty := by
  simp only [LoadsEmpty, flowYaml, if_true]

theorem flowYaml_emitsNull : flowYaml.EmitsNull := rfl

theorem flowYaml_emitsDecimal : flowYaml.EmitsDecimal := by
  intro i
  exact if_pos ((isDecimal_iff _).mpr ⟨i, rfl⟩)

/-- The library changed to write one node as a given text. -/
noncomputable def writing (y : Yaml) (n : YamlNode) (t : Text) : Yaml where
  emit m := open Classical in if m = n then t else y.emit m
  load u := if u = t then some n else y.load u

/-- No node is written as the text. -/
def Fresh (y : Yaml) (t : Text) : Prop := ∀ m, y.emit m ≠ t

section Writing
variable {y : Yaml} {n : YamlNode} {t : Text}

theorem writing_emit_ne {m : YamlNode} (h : m ≠ n) : (y.writing n t).emit m = y.emit m := by
  simp only [writing, if_neg h]

theorem LoadsEmitted.writing (hy : y.LoadsEmitted) (ht : y.Fresh t) :
    (y.writing n t).LoadsEmitted := by
  intro m
  by_cases hm : m = n
  · simp only [Yaml.writing, if_true, hm]
  · rw [writing_emit_ne hm]
    simp only [Yaml.writing, if_neg (ht m), hy m]

theorem LoadsEmpty.writing (hy : y.LoadsEmpty) (ht : [] ≠ t) : (y.writing n t).LoadsEmpty := by
  simp only [LoadsEmpty, Yaml.writing, if_neg ht]
  exact hy

theorem EmitsNull.writing (hy : y.EmitsNull) (hn : .null ≠ n) : (y.writing n t).EmitsNull :=
  (writing_emit_ne hn).trans hy

theorem EmitsDecimal.writing (hy : y.EmitsDecimal) (hn : ∀ i, .scalar (.decimal i) ≠ n) :
    (y.writing n t).EmitsDecimal :=
  fun i => (writing_emit_ne (hn i)).trans (hy i)

theorem Fresh.writing {u : Text} (hu : y.Fresh u) (ht : t ≠ u) : (y.writing n t).Fresh u := by
  intro m
  by_cases hm : m = n
  · simp only [Yaml.writing, if_pos hm]
    exact ht
  · rw [writing_emit_ne hm]
    exact hu m

/-- A text that begins like no node in flow style and is no decimal. -/
theorem flowYaml_fresh {c : UInt8} {cs : Text} (hc : c ∉ [126, 34, 91, 123])
    (hdecimal : isDecimal (c :: cs) = false) : flowYaml.Fresh (c :: cs) := by
  intro m
  change plain m ≠ c :: cs
  rcases plain_cases m with hm | ⟨i, -, hm⟩
  · rw [hm, ← List.append_nil (flow m)]
    exact flow_ne_cons hc
  · rw [hm]
    intro heq
    rw [(isDecimal_iff _).mpr ⟨i, heq.symm⟩] at hdecimal
    cases hdecimal

end Writing
end HxSylar.Lib.Yaml
