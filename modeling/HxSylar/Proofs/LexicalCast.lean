import HxSylar.LexicalCast
import HxSylar.Lib.MapM
import HxSylar.Lib.YamlFlow

namespace HxSylar.LexicalCast
open Lib

section Containers
variable {y : Yaml} (hy : y.LoadsEmitted) {α β : Type}
  (toText : α → Option Text) (ofText : Text → Option β)

/-- What happens to one element on the way: it is loaded as YAML and emitted again. -/
def passing (y : Yaml) (toText : α → Option Text) (ofText : Text → Option β) (a : α) : Option β :=
  ((toText a).bind y.load).bind (fun n => ofText (y.emit n))

include hy in
/-- An emitted text is not changed by being loaded and emitted. -/
theorem bind_load_emit (n : Option YamlNode) (F : Text → Option β) :
    ((n.map y.emit).bind y.load).bind (fun n => F (y.emit n)) = (n.map y.emit).bind F := by
  cases n with
  | none => rfl
  | some n => simp only [Option.map_some, Option.bind_some, hy n]

theorem toSequence_eq (v : List α) : toSequence y toText v =
    ((v.mapM (fun a => (toText a).bind y.load)).map YamlNode.sequence).map y.emit := by
  rw [toSequence]
  cases v.mapM (fun a => (toText a).bind y.load) with
  | none => rfl
  | some items => rfl

include hy in
theorem toSequence_bind_fromSequence (v : List α) :
    (toSequence y toText v).bind (fromSequence y ofText) = v.mapM (passing y toText ofText) := by
  have hpass := mapM_bind_mapM (fun a => (toText a).bind y.load) (fun n => ofText (y.emit n)) v
  rw [toSequence_eq]
  refine Eq.trans ?_ hpass
  cases v.mapM (fun a => (toText a).bind y.load) with
  | none => rfl
  | some items =>
    rw [Option.map_some, Option.map_some, Option.bind_some, fromSequence, hy, Option.bind_some,
      Option.bind_some]
    exact List.mapM_map

/-- The texts of a map's values, loaded. -/
def loadEntries (y : Yaml) (toText : α → Option Text) (v : List (Text × α)) :
    Option (List (Text × YamlNode)) :=
  v.mapM (fun i => ((toText i.2).bind y.load).map (fun x => (i.1, x)))

/-- The map node is built with one entry for each key. -/
theorem foldlM_set (v : List (Text × α)) (fs : List (Text × Option YamlNode))
    (hkeys : ((fs.map Prod.fst) ++ (v.map Prod.fst)).Nodup) :
    v.foldlM (fun node i => ((toText i.2).bind y.load).bind (YamlNode.set node i.1))
        (.map (YamlNode.fields fs)) =
      (loadEntries y toText v).map (fun es =>
        .map (YamlNode.fields (fs ++ es.map (fun e => (e.1, some e.2))))) := by
  induction v generalizing fs with
  | nil =>
    simp only [loadEntries, List.mapM_nil, Option.pure_def, Option.map_some, List.map_nil,
      List.append_nil]
    rfl
  | cons i v ih =>
    rw [List.foldlM_cons, loadEntries, List.mapM_cons]
    cases (toText i.2).bind y.load with
    | none => rfl
    | some x =>
      have hkey : i.1 ∉ fs.map Prod.fst := by
        intro hmem
        exact (List.nodup_append.mp hkeys).2.2 _ hmem _ (List.mem_cons_self ..) rfl
      have hrest : (((fs ++ [(i.1, some x)]).map Prod.fst) ++ (v.map Prod.fst)).Nodup := by
        rw [List.map_append, List.append_assoc]
        exact hkeys
      rw [Option.bind_some, YamlNode.set_fields x hkey, Option.bind_eq_bind, Option.bind_some,
        ih _ hrest, loadEntries]
      cases v.mapM (fun i => ((toText i.2).bind y.load).map (fun x => (i.1, x))) with
      | none => rfl
      | some es =>
        exact congrArg (fun fs => some (YamlNode.map (YamlNode.fields fs))) (List.append_assoc ..)

theorem toMap_eq {v : List (Text × α)} (hkeys : (v.map Prod.fst).Nodup) : toMap y toText v =
    ((loadEntries y toText v).map (fun es => YamlNode.map (es.map (fun e => (.scalar e.1, e.2))))).map
      y.emit := by
  have hfold := foldlM_set (y := y) toText v [] hkeys
  have hfields : ∀ es : List (Text × YamlNode),
      YamlNode.fields (es.map (fun e => (e.1, some e.2))) = es.map (fun e => (.scalar e.1, e.2)) := by
    intro es
    rw [YamlNode.fields, List.filterMap_map]
    exact congrFun List.filterMap_eq_map es
  rw [toMap]
  refine (congrArg (fun n => Option.bind n _) hfold).trans ?_
  simp only [List.nil_append, hfields]
  cases loadEntries y toText v with
  | none => rfl
  | some es => rfl

include hy in
theorem toMap_bind_fromMap {v : List (Text × α)} (hkeys : (v.map Prod.fst).Nodup) :
    (toMap y toText v).bind (fromMap y ofText) =
      v.mapM (fun e => (passing y toText ofText e.2).map (fun x => ⟨e.1, x⟩)) := by
  have hpass := mapM_bind_mapM
    (fun e : Text × α => ((toText e.2).bind y.load).map (fun x => (e.1, x)))
    (fun e => (ofText (y.emit e.2)).map (fun x => (⟨e.1, x⟩ : Sigma (fun _ : Text => β)))) v
  have hstep : (fun e : Text × α => (((toText e.2).bind y.load).map (fun x => (e.1, x))).bind
      (fun e => (ofText (y.emit e.2)).map (fun x => (⟨e.1, x⟩ : Sigma (fun _ : Text => β))))) =
      (fun e => (passing y toText ofText e.2).map (fun x => ⟨e.1, x⟩)) := by
    funext e
    rw [passing]
    cases (toText e.2).bind y.load with
    | none => rfl
    | some n => rfl
  rw [hstep] at hpass
  rw [toMap_eq toText hkeys]
  refine Eq.trans ?_ hpass
  rw [← loadEntries]
  cases loadEntries y toText v with
  | none => rfl
  | some es =>
    rw [Option.map_some, Option.map_some, Option.bind_some, fromMap, hy, Option.bind_some,
      entryTexts, Option.bind_some, Option.bind_some, List.map_map]
    exact List.mapM_map

end Containers

/-- Every text inside the containers is one that YAML reads and writes as itself. -/
def Kept (y : Yaml) : (t : Ty) → t.Obj → Prop
  | .int64, _ => True
  | .string, s => ∃ n, y.load s = some n ∧ y.emit n = s
  | .vector t, v | .list t, v | .set t, v | .unorderedSet t, v => List.Forall (Kept y t) v
  | .map t, v | .unorderedMap t, v => List.Forall (fun e => Kept y t e.2) v.1

section Casts
variable {y : Yaml} (hy : y.LoadsEmitted) (hdecimal : y.EmitsDecimal)

/-- What an element of a container comes back as. -/
def element (y : Yaml) (t : Ty) : t.Obj → Option t.Val := passing y (toString y t) (fromString y t)

theorem toInt64_decimal (i : Int64) : toInt64 (.decimal i.toInt) = some i := by
  have hrange : -9223372036854775808 ≤ i.toInt ∧ i.toInt ≤ 9223372036854775807 :=
    ⟨i.minValue_le_toInt, i.toInt_le⟩
  rw [toInt64, Text.parseDecimal_decimal, Option.bind_some, if_pos hrange, Int64.ofInt_toInt]

include hy hdecimal in
/-- Only a text comes back differently from inside a container. -/
theorem element_eq {t : Ty} (ht : t ≠ .string) (o : t.Obj) :
    element y t o = (toString y t o).bind (fromString y t) := by
  have hcontainer : ∀ n : Option YamlNode, toString y t o = n.map y.emit →
      element y t o = (toString y t o).bind (fromString y t) := by
    intro n hn
    rw [element, passing, hn]
    exact bind_load_emit hy n _
  match t with
  | .int64 =>
    have hload : y.load (.decimal (Int64.toInt o)) = some (.scalar (.decimal (Int64.toInt o))) := by
      have := hy (.scalar (.decimal (Int64.toInt o)))
      rwa [hdecimal] at this
    simp only [element, passing, toString, Option.bind_some, hload, hdecimal _]
  | .string => exact absurd rfl ht
  | .vector t | .list t | .set t | .unorderedSet t => exact hcontainer _ (toSequence_eq _ o)
  | .map t | .unorderedMap t => exact hcontainer _ (toMap_eq _ o.2)

include hy hdecimal in
/-- What comes back as the value of an object is an object whose texts are kept, and every such
object comes back. -/
theorem element_spec (t : Ty) :
    (∀ o o', element y t o = some (t.value o') → Kept y t o') ∧
      ∀ o, Kept y t o → element y t o = some (t.value o) := by
  induction t with
  | int64 =>
    refine ⟨fun _ _ _ => trivial, fun o _ => ?_⟩
    rw [element_eq hy hdecimal (by decide)]
    exact toInt64_decimal o
  | string =>
    constructor
    · intro o o' h
      obtain ⟨n, hn, hemit⟩ := Option.bind_eq_some_iff.mp h
      cases hemit
      exact ⟨n, hy n, rfl⟩
    · rintro o ⟨n, hn, hemit⟩
      have hstring : element y .string o = (y.load o).bind (fun n => some (y.emit n)) := rfl
      rw [hstring, hn]
      exact congrArg some hemit
  | vector t ih | list t ih =>
    have helement : ∀ v : List t.Obj, (toSequence y (toString y t) v).bind
        (fromSequence y (fromString y t)) = v.mapM (element y t) :=
      toSequence_bind_fromSequence hy _ _
    constructor
    · intro v v' h
      rw [element_eq hy hdecimal (by simp)] at h
      exact List.forall_iff_forall_mem.mpr (mapM_settles ih.1 ((helement v).symm.trans h))
    · intro v hv
      rw [element_eq hy hdecimal (by simp)]
      have hall := List.forall_iff_forall_mem.mp hv
      exact (helement v).trans (mapM_of_forall (fun o ho => ih.2 o (hall o ho)))
  | set t ih | unorderedSet t ih =>
    have helement : ∀ v : List t.Obj, (toSequence y (toString y t) v).bind
        (fun s => (fromSequence y (fromString y t) s).map List.toFinset) =
        (v.mapM (element y t)).map List.toFinset := by
      intro v
      exact Option.map_bind.symm.trans
        (congrArg (Option.map _) (toSequence_bind_fromSequence hy _ _ v))
    constructor
    · intro v v' h
      rw [element_eq hy hdecimal (by simp)] at h
      exact List.forall_iff_forall_mem.mpr (mapM_toFinset_settles ih.1 ((helement v).symm.trans h))
    · intro v hv
      rw [element_eq hy hdecimal (by simp)]
      have hall := List.forall_iff_forall_mem.mp hv
      exact (helement v).trans
        (congrArg (Option.map _) (mapM_of_forall (fun o ho => ih.2 o (hall o ho))))
  | map t ih | unorderedMap t ih =>
    have helement : ∀ v : List (Text × t.Obj), (v.map Prod.fst).Nodup →
        (toMap y (toString y t) v).bind
          (fun s => (fromMap y (fromString y t) s).map List.toFinmap) =
        (v.mapM (fun e => (element y t e.2).map (fun x =>
          (⟨e.1, x⟩ : Sigma (fun _ : Text => t.Val))))).map List.toFinmap := by
      intro v hkeys
      exact Option.map_bind.symm.trans (congrArg (Option.map _) (toMap_bind_fromMap hy _ _ hkeys))
    constructor
    · intro v v' h
      rw [element_eq hy hdecimal (by simp)] at h
      exact List.forall_iff_forall_mem.mpr
        (mapM_toFinmap_settles ih.1 v'.2 ((helement v.1 v.2).symm.trans h))
    · intro v hv
      rw [element_eq hy hdecimal (by simp)]
      have hall := List.forall_iff_forall_mem.mp hv
      refine (helement v.1 v.2).trans (congrArg (Option.map _) (mapM_of_forall (fun e he => ?_)))
      rw [ih.2 e.2 (hall e he)]
      rfl

include hy hdecimal in
theorem round_trip_of_ne_string {t : Ty} (ht : t ≠ .string) (o : t.Obj) :
    (toString y t o).bind (fromString y t) = some (t.value o) ↔ Kept y t o := by
  rw [← element_eq hy hdecimal ht]
  exact ⟨(element_spec hy hdecimal t).1 o o, (element_spec hy hdecimal t).2 o⟩

end Casts

/-- A value comes back from its text exactly when it is a text itself or every text inside its
containers is one that YAML reads and writes as itself. -/
theorem round_trip_iff_kept (y : Yaml) (hy : y.LoadsEmitted) (hdecimal : y.EmitsDecimal) (t : Ty)
    (o : t.Obj) :
    (toString y t o).bind (fromString y t) = some (t.value o) ↔ t = .string ∨ Kept y t o := by
  by_cases ht : t = .string
  · subst ht
    exact iff_of_true rfl (Or.inl rfl)
  · rw [round_trip_of_ne_string hy hdecimal ht]
    exact ⟨Or.inr, fun h => h.resolve_left ht⟩

/-- A map from a key to a text and the text of a number. -/
def hosts : (Ty.map (.vector .string)).Obj :=
  ⟨[(text "hosts", [text "x", text "12"])], List.nodup_singleton _⟩

def hostsNode : YamlNode := .sequence [.scalar (text "x"), .scalar (text "12")]

/-- What yaml-cpp writes for the map, for the vector in it and for the text in that. -/
noncomputable def hostsYaml : Yaml :=
  ((Yaml.flowYaml.writing (.scalar (text "x")) (text "x")).writing hostsNode
      (text "- x\n- 12")).writing (.map [(.scalar (text "hosts"), hostsNode)])
    (text "hosts:\n  - x\n  - 12")

theorem hostsYaml_laws : hostsYaml.LoadsEmitted ∧ hostsYaml.EmitsDecimal := by
  have hx : Yaml.flowYaml.Fresh (text "x") := Yaml.flowYaml_fresh (by decide) (by decide)
  have hsequence : Yaml.flowYaml.Fresh (text "- x\n- 12") :=
    Yaml.flowYaml_fresh (by decide) (by decide)
  have hmap : Yaml.flowYaml.Fresh (text "hosts:\n  - x\n  - 12") :=
    Yaml.flowYaml_fresh (by decide) (by decide)
  have hscalar : ∀ i, YamlNode.scalar (.decimal i) ≠ .scalar (text "x") := by
    intro i hi
    have hdecimal := (Yaml.isDecimal_iff _).mpr ⟨i, (YamlNode.scalar.inj hi).symm⟩
    exact absurd hdecimal (by decide)
  constructor
  · exact ((Yaml.flowYaml_loadsEmitted.writing hx).writing (hsequence.writing (by decide))).writing
      ((hmap.writing (by decide)).writing (by decide))
  · exact ((Yaml.flowYaml_emitsDecimal.writing hscalar).writing (by simp [hostsNode])).writing
      (by simp)

/-- Both texts in the map are kept. -/
theorem round_trip_hosts :
    (toString hostsYaml (.map (.vector .string)) hosts).bind
      (fromString hostsYaml (.map (.vector .string))) =
        some ((Ty.map (.vector .string)).value hosts) := by
  obtain ⟨hy, hdecimal⟩ := hostsYaml_laws
  have hkept : ∀ n t, hostsYaml.emit n = t → Kept hostsYaml .string t := by
    rintro n _ rfl
    exact ⟨n, hy n, rfl⟩
  have hx : hostsYaml.emit (.scalar (text "x")) = text "x" := by
    rw [hostsYaml, Yaml.writing_emit_ne (by simp), Yaml.writing_emit_ne (by simp [hostsNode])]
    exact if_pos rfl
  refine (round_trip_iff_kept hostsYaml hy hdecimal (.map (.vector .string)) hosts).mpr (.inr ?_)
  exact ⟨hkept _ _ hx, hkept _ _ (hdecimal 12)⟩

/-- What yaml-cpp writes for the sequence of one null node. -/
noncomputable def nullYaml : Yaml := Yaml.flowYaml.writing (.sequence [.null]) (text "- ~")

theorem nullYaml_laws :
    nullYaml.LoadsEmitted ∧ nullYaml.EmitsDecimal ∧ nullYaml.LoadsEmpty ∧ nullYaml.EmitsNull := by
  refine ⟨Yaml.flowYaml_loadsEmitted.writing ?_, Yaml.flowYaml_emitsDecimal.writing (by simp),
    Yaml.flowYaml_loadsEmpty.writing (by decide), Yaml.flowYaml_emitsNull.writing (by simp)⟩
  exact Yaml.flowYaml_fresh (by decide) (by decide)

/-- The vector of one empty text comes back as the vector of a tilde. -/
theorem round_trip_empty_text :
    (nullYaml.LoadsEmitted ∧ nullYaml.EmitsDecimal ∧ nullYaml.LoadsEmpty ∧ nullYaml.EmitsNull) ∧
      (toString nullYaml (.vector .string) ([[]] : List Text)).bind
        (fromString nullYaml (.vector .string)) = some ([text "~"] : List Text) ∧
      (some ([text "~"] : List Text) : Option (Ty.vector .string).Val) ≠
        some ((Ty.vector .string).value ([[]] : List Text)) := by
  obtain ⟨hy, hdecimal, hempty, hnull⟩ := nullYaml_laws
  refine ⟨nullYaml_laws, ?_, by decide⟩
  have hpass := toSequence_bind_fromSequence hy (toString nullYaml .string)
    (fromString nullYaml .string) ([[]] : List Text)
  refine hpass.trans (mapM_of_forall (g := fun _ => text "~") ?_)
  intro s hs
  obtain rfl := List.mem_singleton.mp hs
  have helement : passing nullYaml (toString nullYaml .string) (fromString nullYaml .string)
      ([] : Text) = (nullYaml.load []).bind (fun n => some (nullYaml.emit n)) := rfl
  rw [helement, hempty]
  exact congrArg some hnull

end HxSylar.LexicalCast
