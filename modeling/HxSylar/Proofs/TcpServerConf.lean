import HxSylar.Proofs.LexicalCast
import HxSylar.TcpServerConf

namespace HxSylar.TcpServerConf
open Lib

theorem eq_iff (c oth : TcpServerConf) : c.eq oth = true ↔ c = oth := by
  constructor
  · intro h
    simp only [eq, Bool.and_eq_true, beq_iff_eq, decide_eq_true_eq] at h
    cases c
    cases oth
    simp_all
  · rintro rfl
    simp [eq]

/-- The fields that the encoder writes. -/
def fields (c : TcpServerConf) (args : YamlNode) : List (Text × Option YamlNode) :=
  (c.assignments args).map (fun a => (a.1, some a.2)) ++
    [(text "address", if c.address = [] then none else some (.sequence (c.address.map .scalar)))]

theorem fields_keys (c : TcpServerConf) (args : YamlNode) :
    (c.fields args).map Prod.fst = [text "id", text "type", text "name", text "keepalive",
      text "timeout", text "ssl", text "cert_file", text "key_file", text "accept_worker",
      text "io_worker", text "process_worker", text "args", text "address"] := rfl

theorem fields_nodup (c : TcpServerConf) (args : YamlNode) :
    ((c.fields args).map Prod.fst).Nodup := by
  rw [fields_keys]
  decide

section RoundTrip
variable {y : Yaml} (hy : y.LoadsEmitted) (hempty : y.LoadsEmpty)

/-- The node of the arguments. -/
def argsNode (y : Yaml) (c : TcpServerConf) : Option YamlNode :=
  (LexicalCast.toString y (.map .string) (iterate c.args)).bind y.load

theorem toString_eq {c : TcpServerConf} {args : YamlNode} (h : argsNode y c = some args) :
    c.toString y = some (y.emit (.map (YamlNode.fields (c.fields args)))) := by
  have hkeys : (((c.assignments args).map (fun a => (a.1, some a.2))).map Prod.fst ++
      [text "address"]).Nodup := by
    have hnodup := fields_nodup c args
    rwa [fields, List.map_append] at hnodup
  obtain ⟨hassigned, -, haddress⟩ := List.nodup_append.mp hkeys
  have hassign : (c.assignments args).foldlM (fun node a => node.set a.1 a.2) YamlNode.null =
      some (.map (YamlNode.fields ((c.assignments args).map (fun a => (a.1, some a.2))))) :=
    YamlNode.foldlM_set [] (c.assignments args) (by rwa [List.map_map] at hassigned)
  have hnew : text "address" ∉ ((c.assignments args).map (fun a => (a.1, some a.2))).map Prod.fst :=
    fun hmem => haddress _ hmem _ (List.mem_cons_self ..) rfl
  have hpush := YamlNode.foldlM_pushBack hnew (c.address.map .scalar)
  rw [List.foldlM_map] at hpush
  simp only [List.map_eq_nil_iff] at hpush
  rw [argsNode] at h
  rw [toString, h]
  simp only [Option.bind_eq_bind, Option.bind_some, hassign]
  exact congrArg (fun n => Option.bind n _) hpush

include hy in
/-- The arguments are written as a map. -/
theorem argsNode_map {c : TcpServerConf} {args : YamlNode} (h : argsNode y c = some args) :
    ∃ entries, args = .map entries := by
  have heq := LexicalCast.toMap_eq (y := y) (LexicalCast.toString y .string)
    (sortedEntries_nodup c.args)
  obtain ⟨s, hs, hload⟩ := Option.bind_eq_some_iff.mp h
  rw [show LexicalCast.toString y (.map .string) (iterate c.args) =
    LexicalCast.toMap y (LexicalCast.toString y .string) (sortedEntries c.args) from rfl] at hs
  rw [heq] at hs
  obtain ⟨n, hn, rfl⟩ := Option.map_eq_some_iff.mp hs
  obtain ⟨es, -, rfl⟩ := Option.map_eq_some_iff.mp hn
  rw [hy] at hload
  cases hload
  exact ⟨_, rfl⟩

theorem readAddress_scalars (address : List Text) :
    readAddress (if address = [] then none else some (.sequence (address.map .scalar))) =
      some address := by
  split
  · rename_i hnil
    rw [hnil]
    rfl
  · rw [readAddress, YamlNode.mapM_item, List.mapM_map]
    have hall : address.mapM (fun t => YamlNode.asString (some (.scalar t))) =
        some (address.map (fun t => t)) :=
      mapM_of_forall (fun t _ => rfl)
    rw [List.map_id'] at hall
    exact hall

include hempty in
theorem readArgs_nil : readArgs y [] = some ∅ := by
  rw [readArgs, LexicalCast.fromString, LexicalCast.fromMap, hempty]
  rfl

include hy hempty in
/-- What comes back: everything but the arguments. -/
theorem fromString_toString {c : TcpServerConf} {args : YamlNode} (h : argsNode y c = some args) :
    (c.toString y).bind (fromString y) = some { c with args := ∅ } := by
  obtain ⟨entries, rfl⟩ := argsNode_map hy h
  have hchild : ∀ a ∈ c.assignments (.map entries),
      (YamlNode.map (YamlNode.fields (c.fields (.map entries)))).child a.1 = some a.2 := by
    intro a ha
    apply YamlNode.child_fields (fields_nodup c _)
    exact List.mem_append_left _ (List.mem_map.mpr ⟨a, ha, rfl⟩)
  have haddress :
      (YamlNode.map (YamlNode.fields (c.fields (.map entries)))).child (text "address") =
        if c.address = [] then none else some (.sequence (c.address.map .scalar)) := by
    apply YamlNode.child_fields (fields_nodup c _)
    exact List.mem_append_right _ (List.mem_cons_self ..)
  simp only [assignments, List.forall_mem_cons] at hchild
  obtain ⟨hid, htype, hname, hkeepalive, htimeout, hssl, hcert, hkey, haccept, hio, hprocess, hargs,
    -⟩ := hchild
  rw [toString_eq h, Option.bind_some, fromString, hy]
  simp only [Option.bind_eq_bind, Option.bind_some, hid, htype, hname, hkeepalive, htimeout, hssl,
    hcert, hkey, haccept, hio, hprocess, hargs, haddress, YamlNode.asString, YamlNode.asStringOr,
    YamlNode.asIntOr_decimal, Option.getD_some, Option.getD_none, readArgs_nil hempty,
    readAddress_scalars, Option.pure_def]

include hy hempty in
theorem args_empty_of_round_trip {c : TcpServerConf}
    (h : (c.toString y).bind (fromString y) = some c) : c.args = ∅ := by
  cases hargs : argsNode y c with
  | none =>
    rw [argsNode] at hargs
    rw [toString, hargs] at h
    cases h
  | some args =>
    rw [fromString_toString hy hempty hargs] at h
    have hfield : ∅ = c.args := congrArg TcpServerConf.args (Option.some.inj h)
    exact hfield.symm

include hy hempty in
theorem round_trip_of_no_args {c : TcpServerConf} (h : c.args = ∅) :
    (c.toString y).bind (fromString y) = some c := by
  have hentries : sortedEntries ∅ = [] := by
    rw [sortedEntries, Finmap.keys_empty, Finset.sort_empty]
    rfl
  have hargs : argsNode y c = some (.map []) := by
    rw [argsNode, h, LexicalCast.toString, iterate]
    simp only [hentries]
    exact hy _
  rw [fromString_toString hy hempty hargs, ← h]

end RoundTrip

/-- A configuration is equal to what comes back exactly when it has no arguments: they are written
as a map, and a map read as a string gives the fallback (tcp_server.h:59-60). -/
theorem round_trip_iff_no_args (y : Yaml) (hy : y.LoadsEmitted) (hempty : y.LoadsEmpty)
    (c : TcpServerConf) :
    ((c.toString y).bind (fromString y)).any (fun c' => c'.eq c) = true ↔ c.args = ∅ := by
  simp only [Option.any_eq_true, eq_iff, exists_eq_right]
  exact ⟨args_empty_of_round_trip hy hempty, round_trip_of_no_args hy hempty⟩

/-- A server at one address. -/
def oneAddress (args : Finmap (fun _ : Text => Text)) : TcpServerConf where
  address := [text "0.0.0.0:80"]
  args := args

/-- What yaml-cpp writes for it, given what it writes for the arguments. -/
def oneAddressText (args : String) : Text :=
  text "id: \"\"\ntype: http\nname: \"\"\nkeepalive: 0\ntimeout: 120000\nssl: 0\n" ++
    text "cert_file: \"\"\nkey_file: \"\"\naccept_worker: \"\"\nio_worker: \"\"\n" ++
    text "process_worker: \"\"\nargs:" ++ text args ++ text "\naddress:\n  - 0.0.0.0:80"

theorem flowYaml_fresh_oneAddressText (args : String) :
    Yaml.flowYaml.Fresh (oneAddressText args) :=
  Yaml.flowYaml_fresh (by decide) (Yaml.isDecimal_cons _ (by decide) (by decide))

noncomputable def noArgsYaml : Yaml :=
  Yaml.flowYaml.writing (.map (YamlNode.fields ((oneAddress ∅).fields (.map []))))
    (oneAddressText " \x7b\x7d")

theorem round_trip_no_args :
    (((oneAddress ∅).toString noArgsYaml).bind (fromString noArgsYaml)).any
      (fun c' => c'.eq (oneAddress ∅)) = true :=
  (round_trip_iff_no_args noArgsYaml
    (Yaml.flowYaml_loadsEmitted.writing (flowYaml_fresh_oneAddressText _))
    (Yaml.flowYaml_loadsEmpty.writing (by decide)) (oneAddress ∅)).mpr rfl

/-- The argument `k` with the value `1`. -/
def oneArg : Finmap (fun _ : Text => Text) := Finmap.singleton (text "k") (text "1")

noncomputable def oneArgYaml : Yaml :=
  (Yaml.flowYaml.writing (.map [(.scalar (text "k"), .scalar (text "1"))]) (text "k: 1")).writing
    (.map (YamlNode.fields ((oneAddress oneArg).fields
      (.map [(.scalar (text "k"), .scalar (text "1"))])))) (oneAddressText "\n  k: 1")

theorem oneArgYaml_laws : oneArgYaml.LoadsEmitted ∧ oneArgYaml.LoadsEmpty := by
  constructor
  · refine (Yaml.flowYaml_loadsEmitted.writing (Yaml.flowYaml_fresh (by decide) ?_)).writing
      ((flowYaml_fresh_oneAddressText _).writing (by decide))
    exact Yaml.isDecimal_cons _ (by decide) (by decide)
  · exact (Yaml.flowYaml_loadsEmpty.writing (by decide)).writing (by decide)

/-- The argument is lost. -/
theorem round_trip_one_arg :
    (oneArgYaml.LoadsEmitted ∧ oneArgYaml.LoadsEmpty) ∧
      (((oneAddress oneArg).toString oneArgYaml).bind (fromString oneArgYaml)).any
        (fun c' => c'.eq (oneAddress oneArg)) ≠ true := by
  refine ⟨oneArgYaml_laws, ?_⟩
  intro hany
  obtain ⟨c', h, heq⟩ := (Option.any_eq_true _ _).mp hany
  rw [(eq_iff _ _).mp heq] at h
  have hargs : oneArg = ∅ := args_empty_of_round_trip oneArgYaml_laws.1 oneArgYaml_laws.2 h
  have hmem : text "k" ∈ oneArg := by
    rw [oneArg, Finmap.mem_singleton]
  rw [hargs] at hmem
  exact Finmap.notMem_empty hmem

end HxSylar.TcpServerConf
