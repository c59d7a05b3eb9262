import HxSylar.Lib.Decimal
import Mathlib.Logic.Basic

namespace HxSylar.Lib

/-- A YAML node that is defined. -/
inductive YamlNode
  | null
  | scalar (value : Text)
  | sequence (items : List YamlNode)
  | map (entries : List (YamlNode × YamlNode))
  deriving Repr

namespace YamlNode

/-- `Scalar()`, which is empty for every other kind of node. -/
def scalarText : YamlNode → Text
  | .scalar t => t
  | _ => []

def isKey (key : Text) : YamlNode → Bool
  | .scalar t => t == key
  | _ => false

/-- The value under a key. -/
def lookup (key : Text) (entries : List (YamlNode × YamlNode)) : Option YamlNode :=
  (entries.find? (fun e => e.1.isKey key)).map Prod.snd

/-- `n[key]`: the outer `none` is the exception, the inner one an undefined node. -/
def get (n : YamlNode) (key : Text) : Option (Option YamlNode) :=
  match n with
  | .scalar _ => none
  | .map entries => some (lookup key entries)
  | _ => some none

/-- `n[key]` where the exception shows as an undefined node. -/
def child (n : YamlNode) (key : Text) : Option YamlNode := (n.get key).join

/-- `n[key]` of a node that may be undefined. -/
def getIn (n : Option YamlNode) (key : Text) : Option (Option YamlNode) :=
  match n with
  | none => some none
  | some n => n.get key

def size : YamlNode → Nat
  | .sequence items => items.length
  | .map entries => entries.length
  | _ => 0

/-- `n[i]`. In a map it is the entry whose key reads as the number. -/
def item (n : YamlNode) (i : Nat) : Option (Option YamlNode) :=
  match n with
  | .scalar _ => none
  | .sequence items => some items[i]?
  | .map entries =>
    some ((entries.find? (fun e => e.1.scalarText.readInteger == some (i : Int))).map Prod.snd)
  | .null => some none

def assign (key : Text) (v : YamlNode) : List (YamlNode × YamlNode) → List (YamlNode × YamlNode)
  | [] => [(.scalar key, v)]
  | e :: es => if e.1.isKey key then (e.1, v) :: es else e :: assign key v es

/-- The entries of a node that is assigned to under a key; `none` is the exception. -/
def toEntries : YamlNode → Option (List (YamlNode × YamlNode))
  | .null => some []
  | .scalar _ => none
  | .sequence items => some (items.zipIdx.map (fun p => (.scalar (Text.ofNat p.2), p.1)))
  | .map entries => some entries

/-- `n[key] = v`. -/
def set (n : YamlNode) (key : Text) (v : YamlNode) : Option YamlNode :=
  n.toEntries.map (fun entries => .map (assign key v entries))

/-- `if (p) n[key] = v`. -/
def setIf (n : YamlNode) (p : Prop) [Decidable p] (key : Text) (v : YamlNode) : Option YamlNode :=
  if p then n.set key v else some n

/-- `n[key].push_back(v)`. -/
def pushBack (n : YamlNode) (key : Text) (v : YamlNode) : Option YamlNode :=
  match n.get key with
  | some none | some (some .null) => n.set key (.sequence [v])
  | some (some (.sequence items)) => n.set key (.sequence (items ++ [v]))
  | _ => none

/-- `as<std::string>()`; the node may be undefined. -/
def asString : Option YamlNode → Option Text
  | some (.scalar t) => some t
  | _ => none

/-- `n[key].IsDefined() ? n[key].as<std::string>() : dflt`. -/
def stringOr (n : Option YamlNode) (key dflt : Text) : Option Text :=
  (getIn n key).bind (fun v => if v.isSome then asString v else some dflt)

/-- `as<std::string>(fallback)`. -/
def asStringOr (n : Option YamlNode) (fallback : Text) : Text := (asString n).getD fallback

/-- `as<int>(fallback)`. -/
def asIntOr (n : Option YamlNode) (fallback : Int32) : Int32 :=
  match (asString n).bind Text.readInteger with
  | some i => if -2147483648 ≤ i ∧ i ≤ 2147483647 then Int32.ofInt i else fallback
  | none => fallback

end YamlNode

/-- A YAML library: reading a text, which may throw, and writing a node. -/
structure Yaml where
  load : Text → Option YamlNode
  emit : YamlNode → Text

namespace Yaml

/-- Loading an emitted node gives back the node. -/
def LoadsEmitted (y : Yaml) : Prop := ∀ n, y.load (y.emit n) = some n

/-- The empty text is a null node. -/
def LoadsEmpty (y : Yaml) : Prop := y.load [] = some .null

/-- A null node is written as a tilde. -/
def EmitsNull (y : Yaml) : Prop := y.emit .null = text "~"

/-- A decimal scalar is written as it is. -/
def EmitsDecimal (y : Yaml) : Prop := ∀ i, y.emit (.scalar (.decimal i)) = .decimal i

end Yaml

namespace YamlNode

/-- The entries of a map some of whose keys may be left out. -/
def fields (fs : List (Text × Option YamlNode)) : List (YamlNode × YamlNode) :=
  fs.filterMap (fun f => f.2.map (fun v => (.scalar f.1, v)))

theorem fields_append (fs gs : List (Text × Option YamlNode)) :
    fields (fs ++ gs) = fields fs ++ fields gs :=
  List.filterMap_append

theorem isKey_scalar (key key' : Text) : isKey key (.scalar key') = (key' == key) := rfl

/-- A key that no field has is looked for behind the fields. -/
theorem lookup_fields_append {fs : List (Text × Option YamlNode)} {key : Text}
    (h : key ∉ fs.map Prod.fst) (es : List (YamlNode × YamlNode)) :
    lookup key (fields fs ++ es) = lookup key es := by
  have hnone : (fields fs).find? (fun e => e.1.isKey key) = none := by
    rw [List.find?_eq_none]
    intro e he
    obtain ⟨f, hf, hfe⟩ := List.mem_filterMap.mp he
    obtain ⟨v, -, rfl⟩ := Option.map_eq_some_iff.mp hfe
    simp only [isKey_scalar, beq_iff_eq]
    rintro rfl
    exact h (List.mem_map_of_mem hf)
  rw [lookup, List.find?_append, hnone, Option.none_or, lookup]

theorem lookup_cons_self (key : Text) (v : YamlNode) (es : List (YamlNode × YamlNode)) :
    lookup key ((.scalar key, v) :: es) = some v := by
  simp only [lookup, List.find?_cons, isKey_scalar, beq_self_eq_true, Option.map_some]

/-- Every key finds its own field. -/
theorem lookup_fields {fs : List (Text × Option YamlNode)} (hkeys : (fs.map Prod.fst).Nodup)
    {key : Text} {v : Option YamlNode} (h : (key, v) ∈ fs) : lookup key (fields fs) = v := by
  obtain ⟨before, behind, rfl⟩ := List.append_of_mem h
  rw [List.map_append, List.map_cons, List.nodup_append, List.nodup_cons] at hkeys
  have hbefore : key ∉ before.map Prod.fst := by
    intro hmem
    exact hkeys.2.2 key hmem key (List.mem_cons_self ..) rfl
  rw [fields_append, lookup_fields_append hbefore]
  cases v with
  | none =>
    have hnil := lookup_fields_append hkeys.2.1.1 []
    rw [List.append_nil] at hnil
    exact hnil
  | some v => exact lookup_cons_self key v _

theorem get_fields {fs : List (Text × Option YamlNode)} (hkeys : (fs.map Prod.fst).Nodup)
    {key : Text} {v : Option YamlNode} (h : (key, v) ∈ fs) :
    (YamlNode.map (fields fs)).get key = some v :=
  congrArg some (lookup_fields hkeys h)

theorem child_fields {fs : List (Text × Option YamlNode)} (hkeys : (fs.map Prod.fst).Nodup)
    {key : Text} {v : Option YamlNode} (h : (key, v) ∈ fs) :
    (YamlNode.map (fields fs)).child key = v :=
  congrArg Option.join (get_fields hkeys h)

/-- Reading a field that may be left out. -/
theorem stringOr_fields {fs : List (Text × Option YamlNode)} (hkeys : (fs.map Prod.fst).Nodup)
    {key v : Text} (dflt : Text) {p : Prop} [Decidable p]
    (h : (key, if p then some (.scalar v) else none) ∈ fs) :
    stringOr (some (.map (fields fs))) key dflt = some (if p then v else dflt) := by
  rw [stringOr, getIn, get_fields hkeys h]
  split
  · rfl
  · rfl

/-- Reading a text that is left out when it is empty. -/
theorem stringOr_fields_nil {fs : List (Text × Option YamlNode)} (hkeys : (fs.map Prod.fst).Nodup)
    {key v : Text} (h : (key, if v ≠ [] then some (.scalar v) else none) ∈ fs) :
    stringOr (some (.map (fields fs))) key [] = some v := by
  rw [stringOr_fields hkeys [] h]
  split
  · rfl
  · rename_i hnil
    rw [not_not.mp hnil]

theorem asIntOr_decimal (i fallback : Int32) :
    asIntOr (some (.scalar (.decimal i.toInt))) fallback = i := by
  have hrange : -2147483648 ≤ i.toInt ∧ i.toInt ≤ 2147483647 := ⟨i.minValue_le_toInt, i.toInt_le⟩
  simp only [asIntOr, asString, Option.bind_some, Text.readInteger_decimal, if_pos hrange,
    Int32.ofInt_toInt]

/-- A key that no field has is assigned behind the fields. -/
theorem assign_fields_append {fs : List (Text × Option YamlNode)} {key : Text} (v : YamlNode)
    (h : key ∉ fs.map Prod.fst) (es : List (YamlNode × YamlNode)) :
    assign key v (fields fs ++ es) = fields fs ++ assign key v es := by
  induction fs with
  | nil => rfl
  | cons f fs ih =>
    obtain ⟨key', v'⟩ := f
    rw [List.map_cons, List.mem_cons, not_or] at h
    have hne : (key' == key) = false := beq_eq_false_iff_ne.mpr (Ne.symm h.1)
    cases v' with
    | none => exact ih h.2
    | some w =>
      have hrest := ih h.2
      simp only [fields] at hrest ⊢
      simp only [List.filterMap_cons, Option.map_some, List.cons_append, assign, isKey_scalar, hne,
        Bool.false_eq_true, if_false, hrest]

/-- A loop over the indices of a sequence is a loop over its items. -/
theorem mapM_item {β : Type} (items : List YamlNode) (f : Option YamlNode → Option β) :
    (List.range (YamlNode.sequence items).size).mapM (fun x =>
      ((YamlNode.sequence items).item x).bind f) = items.mapM (fun n => f (some n)) := by
  have hindices : (List.range items.length).map (fun x => items[x]?) = items.map some := by
    apply List.ext_getElem?
    intro i
    rw [List.getElem?_map, List.getElem?_map]
    by_cases hi : i < items.length
    · rw [List.getElem?_range hi, Option.map_some, List.getElem?_eq_getElem hi]
      rfl
    · rw [List.getElem?_eq_none (by rw [List.length_range]; omega),
        List.getElem?_eq_none (by omega)]
      rfl
  calc
    _ = ((List.range items.length).map (fun x => items[x]?)).mapM f := List.mapM_map.symm
    _ = (items.map some).mapM f := by rw [hindices]
    _ = items.mapM (fun n => f (some n)) := List.mapM_map

/-- Assigning under a new key. -/
theorem set_fields {fs : List (Text × Option YamlNode)} {key : Text} (v : YamlNode)
    (h : key ∉ fs.map Prod.fst) :
    (YamlNode.map (fields fs)).set key v = some (.map (fields (fs ++ [(key, some v)]))) := by
  have happend := assign_fields_append v h []
  rw [List.append_nil] at happend
  rw [fields_append, set, toEntries, Option.map_some, happend]
  rfl

/-- Assigning under new keys, one after the other. -/
theorem foldlM_set (fs : List (Text × Option YamlNode)) (es : List (Text × YamlNode))
    (hkeys : (fs.map Prod.fst ++ es.map Prod.fst).Nodup) :
    es.foldlM (fun n e => n.set e.1 e.2) (YamlNode.map (fields fs)) =
      some (.map (fields (fs ++ es.map (fun e => (e.1, some e.2))))) := by
  induction es generalizing fs with
  | nil => rw [List.map_nil, List.append_nil]; rfl
  | cons e es ih =>
    have hkey : e.1 ∉ fs.map Prod.fst := by
      intro hmem
      exact (List.nodup_append.mp hkeys).2.2 _ hmem _ (List.mem_cons_self ..) rfl
    have hrest : ((fs ++ [(e.1, some e.2)]).map Prod.fst ++ es.map Prod.fst).Nodup := by
      rw [List.map_append, List.append_assoc]
      exact hkeys
    rw [List.foldlM_cons, set_fields e.2 hkey]
    refine (ih _ hrest).trans ?_
    rw [List.append_assoc]
    rfl

/-- Assigning under a new key, or leaving it out. -/
theorem setIf_fields {fs : List (Text × Option YamlNode)} {key : Text} (p : Prop) [Decidable p]
    (v : YamlNode) (h : key ∉ fs.map Prod.fst) :
    (YamlNode.map (fields fs)).setIf p key v =
      some (.map (fields (fs ++ [(key, if p then some v else none)]))) := by
  rw [setIf]
  split
  · exact set_fields v h
  · rw [fields_append]
    exact congrArg (fun es => some (YamlNode.map es)) (List.append_nil _).symm

/-- Assigning under the last key. -/
theorem set_last {fs : List (Text × Option YamlNode)} {key : Text} (v w : YamlNode)
    (h : key ∉ fs.map Prod.fst) :
    (YamlNode.map (fields (fs ++ [(key, some v)]))).set key w =
      some (.map (fields (fs ++ [(key, some w)]))) := by
  rw [fields_append, set, toEntries, Option.map_some, assign_fields_append w h, fields_append]
  simp only [fields, List.filterMap_cons, Option.map_some, List.filterMap_nil, assign, isKey_scalar,
    beq_self_eq_true, if_true]

theorem get_last {fs : List (Text × Option YamlNode)} {key : Text} (v : Option YamlNode)
    (h : key ∉ fs.map Prod.fst) :
    (YamlNode.map (fields (fs ++ [(key, v)]))).get key = some v := by
  rw [get, fields_append, lookup_fields_append h]
  cases v with
  | none => rfl
  | some v => rw [fields, List.filterMap_cons, Option.map_some, lookup_cons_self]

/-- Pushing back behind what was pushed before. -/
theorem foldlM_pushBack_last {fs : List (Text × Option YamlNode)} {key : Text}
    (h : key ∉ fs.map Prod.fst) (pre items : List YamlNode) :
    items.foldlM (fun n v => n.pushBack key v)
      (YamlNode.map (fields (fs ++ [(key, some (.sequence pre))]))) =
      some (.map (fields (fs ++ [(key, some (.sequence (pre ++ items)))]))) := by
  induction items generalizing pre with
  | nil => rw [List.append_nil]; rfl
  | cons v items ih =>
    have hpush : (YamlNode.map (fields (fs ++ [(key, some (.sequence pre))]))).pushBack key v =
        some (.map (fields (fs ++ [(key, some (.sequence (pre ++ [v])))]))) := by
      rw [pushBack, get_last _ h]
      exact set_last _ _ h
    rw [List.foldlM_cons, hpush]
    refine (ih (pre ++ [v])).trans ?_
    rw [List.append_assoc]
    rfl

/-- A sequence pushed back node by node; the key is left out if there is none. -/
theorem foldlM_pushBack {fs : List (Text × Option YamlNode)} {key : Text}
    (h : key ∉ fs.map Prod.fst) (items : List YamlNode) :
    items.foldlM (fun n v => n.pushBack key v) (YamlNode.map (fields fs)) =
      some (.map (fields (fs ++ [(key, if items = [] then none else some (.sequence items))]))) := by
  cases items with
  | nil =>
    rw [fields_append]
    exact congrArg (fun es => some (YamlNode.map es)) (List.append_nil _).symm
  | cons v items =>
    have hpush : (YamlNode.map (fields fs)).pushBack key v =
        some (.map (fields (fs ++ [(key, some (.sequence [v]))]))) := by
      have hnone := lookup_fields_append h []
      rw [List.append_nil] at hnone
      rw [pushBack, get, hnone]
      exact set_fields _ h
    rw [List.foldlM_cons, hpush, if_neg (List.cons_ne_nil _ _)]
    exact foldlM_pushBack_last h [v] items

end YamlNode
end HxSylar.Lib
