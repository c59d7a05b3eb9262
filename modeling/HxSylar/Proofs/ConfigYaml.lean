import HxSylar.ConfigYaml
import HxSylar.Lib.YamlFlow
import Mathlib.Data.List.Infix

namespace HxSylar.Config
open Lib

/-- The documented alphabet `[0-9a-z_.]` (config.h:33). -/
def documentedByte (b : UInt8) : Bool :=
  isDigit b || (97 ≤ b && b ≤ 122) || b == byte '_' || b == byte '.'

def documented (name : Text) : Bool := name.all documentedByte

def lower (t : Text) : Text := t.map toLower

def isUpper (b : UInt8) : Bool := 65 ≤ b && b ≤ 90

/-- The keys of a path joined with dots. An empty beginning adds no dot. -/
def joinPath (path : List Text) : Text := path.foldl member []

-- The nodes of a tree of maps with the keys that lead to them, in the order of a traversal.
mutual
def nodes (node : YamlNode) : List (List Text × YamlNode) :=
  ([], node) :: (match node with
    | .map entries => memberNodes entries
    | _ => [])

def memberNodes : List (YamlNode × YamlNode) → List (List Text × YamlNode)
  | [] => []
  | (key, node) :: entries =>
    (nodes node).map (fun p => (key.scalarText :: p.1, p.2)) ++ memberNodes entries
end

/-- Every beginning of the path, joined, passes. -/
def throughout (ok : Text → Bool) (path : List Text) : Bool :=
  path.inits.all (fun q => ok (joinPath q))

/-- The nodes on the paths that match a name. -/
def matching (root : YamlNode) (name : Text) : List (List Text × YamlNode) :=
  (nodes root).filter (fun p => p.1 ≠ [] && decide (lower (joinPath p.1) = name) &&
    throughout (fun t => documented (lower t)) p.1)

/-- The bytes of the code's alphabet: the nine and the upper-case letters are missing. -/
theorem nameBytes_contains (b : UInt8) : nameBytes.contains b = true ↔
    documentedByte (toLower b) = true ∧ isUpper b = false ∧ b ≠ 57 := by
  have hall : ∀ b : Fin 256, nameBytes.contains (UInt8.ofFin b) = true ↔
      documentedByte (toLower (UInt8.ofFin b)) = true ∧ isUpper (UInt8.ofFin b) = false ∧
        UInt8.ofFin b ≠ 57 := by decide +kernel
  exact hall b.toFin

theorem validName_iff (t : Text) : validName t = true ↔
    documented (lower t) = true ∧ (∀ b ∈ t, isUpper b = false) ∧ 57 ∉ t := by
  simp only [validName, documented, lower, List.all_map, List.all_eq_true, nameBytes_contains,
    Function.comp_apply]
  constructor
  · intro h
    exact ⟨fun b hb => (h b hb).1, fun b hb => (h b hb).2.1, fun hmem => (h 57 hmem).2.2 rfl⟩
  · rintro ⟨hdocumented, hupper, hnine⟩ b hb
    exact ⟨hdocumented b hb, hupper b hb, fun heq => hnine (heq ▸ hb)⟩

section Listing

/-- Joining on from a name that is already there. -/
def joinFrom (pre : Text) (path : List Text) : Text := path.foldl member pre

/-- What the listing lets pass from a name on. -/
def passes (pre : Text) : List Text → Bool
  | [] => validName pre
  | key :: path => validName pre && passes (member pre key) path

theorem passes_of_not_valid {pre : Text} (h : validName pre = false) (path : List Text) :
    passes pre path = false := by
  cases path with
  | nil => exact h
  | cons key path => rw [passes, h, Bool.false_and]

def entriesOf : YamlNode → List (YamlNode × YamlNode)
  | .map entries => entries
  | _ => []

theorem nodes_eq (node : YamlNode) : nodes node = ([], node) :: memberNodes (entriesOf node) := by
  cases node with
  | map entries => rw [nodes]; rfl
  | null => rfl
  | scalar t => rfl
  | sequence items => rfl

theorem listAllMember_unfold (pre : Text) (node : YamlNode) : listAllMember pre node =
    if validName pre then (pre, node) :: listMembers pre (entriesOf node) else [] := by
  cases node with
  | map entries => rw [listAllMember]; rfl
  | null => rfl
  | scalar t => rfl
  | sequence items => rfl

theorem listAllMember_of_members {pre : Text} {node : YamlNode}
    (h : validName pre = true → listMembers pre (entriesOf node) =
      ((memberNodes (entriesOf node)).filter (fun p => passes pre p.1)).map
        (fun p => (joinFrom pre p.1, p.2))) :
    listAllMember pre node =
      ((nodes node).filter (fun p => passes pre p.1)).map (fun p => (joinFrom pre p.1, p.2)) := by
  rw [listAllMember_unfold, nodes_eq]
  cases hvalid : validName pre with
  | false =>
    rw [List.filter_eq_nil_iff.mpr]
    · rfl
    · intro p _
      rw [passes_of_not_valid hvalid]
      decide
  | true =>
    have hroot : passes pre [] = true := hvalid
    rw [if_pos rfl, h hvalid, List.filter_cons, if_pos hroot, List.map_cons]
    rfl

-- The listing is the traversal without the paths that have a beginning with a bad name.
mutual
theorem listAllMember_eq (pre : Text) (node : YamlNode) : listAllMember pre node =
    ((nodes node).filter (fun p => passes pre p.1)).map (fun p => (joinFrom pre p.1, p.2)) := by
  match node with
  | .map entries => exact listAllMember_of_members (listMembers_eq pre entries)
  | .null => exact listAllMember_of_members (fun _ => rfl)
  | .scalar _ => exact listAllMember_of_members (fun _ => rfl)
  | .sequence _ => exact listAllMember_of_members (fun _ => rfl)

theorem listMembers_eq (pre : Text) (entries : List (YamlNode × YamlNode))
    (hvalid : validName pre = true) :
    listMembers pre entries = ((memberNodes entries).filter (fun p => passes pre p.1)).map
      (fun p => (joinFrom pre p.1, p.2)) := by
  match entries with
  | [] =>
    rw [listMembers, memberNodes]
    rfl
  | (key, node) :: entries =>
    have hpasses : ∀ p : List Text × YamlNode,
        passes pre (key.scalarText :: p.1) = passes (member pre key.scalarText) p.1 := by
      intro p
      rw [passes, hvalid, Bool.true_and]
    rw [listMembers, memberNodes, listAllMember_eq _ node, listMembers_eq pre entries hvalid,
      List.filter_append, List.map_append, List.filter_map, List.map_map]
    simp only [Function.comp_def, hpasses]
    rfl
end

theorem passes_eq (pre : Text) (path : List Text) :
    passes pre path = path.inits.all (fun q => validName (joinFrom pre q)) := by
  induction path generalizing pre with
  | nil =>
    rw [passes, List.inits, List.all_cons, List.all_nil, Bool.and_true]
    rfl
  | cons key path ih =>
    rw [passes, ih, List.inits_cons, List.all_cons, List.all_map]
    rfl

/-- The members are the nodes whose paths pass throughout. -/
theorem listAllMember_nil (root : YamlNode) : listAllMember [] root =
    ((nodes root).filter (fun p => throughout validName p.1)).map
      (fun p => (joinPath p.1, p.2)) := by
  rw [listAllMember_eq]
  simp only [passes_eq]
  rfl

end Listing

section Loading
variable {V : Type} (y : Yaml) (fromString : V → Text → V)

theorem loadMember_apply (datas : Datas V) (i : Text × YamlNode) (name : Text) :
    loadMember y fromString datas i name = if i.1 ≠ [] ∧ lower i.1 = name then
      (datas name).map (fun var => fromString var (nodeText y i.2)) else datas name := by
  rw [loadMember]
  by_cases hnil : i.1 = []
  · rw [if_pos hnil, if_neg (fun h => h.1 hnil)]
  · rw [if_neg hnil]
    by_cases hname : lower i.1 = name
    · rw [if_pos ⟨hnil, hname⟩, show i.1.map toLower = name from hname]
      cases hvar : datas name with
      | none => simp only [hvar, Option.map_none]
      | some var => simp only [Function.update_self, Option.map_some]
    · rw [if_neg (fun h => hname h.2)]
      cases datas (i.1.map toLower) with
      | none => rfl
      | some var => exact Function.update_of_ne (Ne.symm hname) _ _

/-- What the loop does to one variable: a call for each member with its name. -/
theorem foldl_loadMember (members : List (Text × YamlNode)) (datas : Datas V) (name : Text) :
    members.foldl (loadMember y fromString) datas name = (datas name).map (fun var =>
      ((members.filter (fun i => i.1 ≠ [] ∧ lower i.1 = name)).map
        (fun i => nodeText y i.2)).foldl fromString var) := by
  induction members generalizing datas with
  | nil => exact (congrFun Option.map_id (datas name)).symm
  | cons i members ih =>
    rw [List.foldl_cons, ih, loadMember_apply, List.filter_cons]
    by_cases hmatch : i.1 ≠ [] ∧ lower i.1 = name
    · rw [if_pos hmatch, if_pos (decide_eq_true hmatch), Option.map_map]
      rfl
    · rw [if_neg hmatch, if_neg (by simpa using hmatch)]

end Loading

section Joining
variable {b : UInt8}

theorem mem_member {pre key : Text} (h : b ∈ member pre key) :
    b ∈ pre ∨ b = byte '.' ∨ b ∈ key := by
  rw [member] at h
  split at h
  · exact Or.inr (Or.inr h)
  · rcases List.mem_append.mp h with hpre | hkey
    · exact Or.inl hpre
    · exact Or.inr (List.mem_cons.mp hkey)

theorem mem_member_of_mem {pre key : Text} (h : b ∈ pre ∨ b ∈ key) : b ∈ member pre key := by
  rw [member]
  split
  · rename_i hnil
    rcases h with hpre | hkey
    · rw [hnil] at hpre
      cases hpre
    · exact hkey
  · rcases h with hpre | hkey
    · exact List.mem_append_left _ hpre
    · exact List.mem_append_right _ (List.mem_cons_of_mem _ hkey)

theorem mem_joinFrom {pre : Text} {path : List Text} (h : b ∈ joinFrom pre path) :
    b ∈ pre ∨ b = byte '.' ∨ ∃ key ∈ path, b ∈ key := by
  induction path generalizing pre with
  | nil => exact Or.inl h
  | cons key path ih =>
    rcases ih h with hmember | hdot | ⟨key', hkey', hb⟩
    · rcases mem_member hmember with hpre | hdot | hkey
      · exact Or.inl hpre
      · exact Or.inr (Or.inl hdot)
      · exact Or.inr (Or.inr ⟨key, List.mem_cons_self .., hkey⟩)
    · exact Or.inr (Or.inl hdot)
    · exact Or.inr (Or.inr ⟨key', List.mem_cons_of_mem _ hkey', hb⟩)

theorem mem_joinFrom_of_mem {pre : Text} {path : List Text}
    (h : b ∈ pre ∨ ∃ key ∈ path, b ∈ key) : b ∈ joinFrom pre path := by
  induction path generalizing pre with
  | nil =>
    rcases h with hpre | ⟨key, hkey, -⟩
    · exact hpre
    · cases hkey
  | cons key path ih =>
    apply ih
    rcases h with hpre | ⟨key', hkey', hb⟩
    · exact Or.inl (mem_member_of_mem (Or.inl hpre))
    · rcases List.mem_cons.mp hkey' with rfl | hrest
      · exact Or.inl (mem_member_of_mem (Or.inr hb))
      · exact Or.inr ⟨key', hrest, hb⟩

theorem mem_joinPath_of_isPrefix {q path : List Text} (hq : q <+: path) (h : b ∈ joinPath q) :
    b ∈ joinPath path := by
  obtain ⟨rest, rfl⟩ := hq
  rw [joinPath, List.foldl_append]
  exact mem_joinFrom_of_mem (Or.inl h)

theorem member_ne_nil {pre key : Text} (h : key ≠ []) : member pre key ≠ [] := by
  rw [member]
  split
  · exact h
  · simp

/-- Without empty keys a path is joined with exactly one dot between two keys. -/
theorem joinPath_eq_intercalate {path : List Text} (h : [] ∉ path) :
    joinPath path = List.intercalate [byte '.'] path := by
  have hfrom : ∀ pre path, pre ≠ [] → [] ∉ path →
      joinFrom pre path = List.intercalate [byte '.'] (pre :: path) := by
    intro pre path hpre hpath
    induction path generalizing pre with
    | nil => simp [joinFrom, List.intercalate]
    | cons key path ih =>
      rw [List.mem_cons, not_or] at hpath
      have hjoined := ih (member pre key) (member_ne_nil (Ne.symm hpath.1)) hpath.2
      rw [member, if_neg hpre] at hjoined
      refine Eq.trans ?_ (hjoined.trans ?_)
      · rw [joinFrom, List.foldl_cons, member, if_neg hpre]
        rfl
      · cases path with
        | nil => simp [List.intercalate]
        | cons key' path => simp [List.intercalate, List.intersperse]
  cases path with
  | nil => rfl
  | cons key path =>
    rw [List.mem_cons, not_or] at h
    exact hfrom key path (Ne.symm h.1) h.2

end Joining

/-- Every variable of the name is given the texts of the nodes on the matching paths, in the order
of the traversal, and is left alone if there are none. -/
def Reaches (y : Yaml) (root : YamlNode) (name : Text) : Prop :=
  ∀ (V : Type) (fromString : V → Text → V) (datas : Datas V) (var : V), datas name = some var →
    loadFromYaml y fromString datas root name =
      some (((matching root name).map (fun p => nodeText y p.2)).foldl fromString var)

/-- A new name can be registered. -/
def Registrable (name : Text) : Prop :=
  ∀ (V : Type) (sameType : V → Bool) (datas : Datas V) (v : V), datas name = none →
    ∃ datas', lookup sameType datas name v = some (some v, datas') ∧ datas' name = some v

/-- What the code asks of a matching path. -/
def visible (p : List Text × YamlNode) : Bool :=
  decide (joinPath p.1 ≠ []) && throughout validName p.1

theorem throughout_documented {path : List Text} (h : throughout validName path = true) :
    throughout (fun t => documented (lower t)) path = true := by
  rw [throughout, List.all_eq_true] at h ⊢
  intro q hq
  exact ((validName_iff _).mp (h q hq)).1

theorem loadFromYaml_apply (y : Yaml) {V : Type} (fromString : V → Text → V) (datas : Datas V)
    (root : YamlNode) (name : Text) :
    loadFromYaml y fromString datas root name = (datas name).map (fun var =>
      (((matching root name).filter visible).map (fun p => nodeText y p.2)).foldl fromString var) := by
  have hfilter : (nodes root).filter (fun p => throughout validName p.1 &&
        decide (joinPath p.1 ≠ [] ∧ lower (joinPath p.1) = name)) =
      (matching root name).filter visible := by
    rw [matching, List.filter_filter]
    apply List.filter_congr
    intro p _
    by_cases hvalid : throughout validName p.1 = true
    · have hdocumented := throughout_documented hvalid
      by_cases hnil : p.1 = []
      · simp [visible, hnil, joinPath]
      · simp [visible, hvalid, hdocumented, hnil]
    · simp [visible, hvalid]
  rw [loadFromYaml, foldl_loadMember, listAllMember_nil, List.filter_map, List.filter_filter,
    List.map_map, ← hfilter]
  simp only [Function.comp_def, Bool.and_comm]

/-- Exactly the calls for invisible paths are missing. -/
theorem reaches_iff (y : Yaml) (root : YamlNode) (name : Text) :
    Reaches y root name ↔ ∀ p ∈ matching root name, visible p = true := by
  constructor
  · intro h
    -- A variable that remembers the texts it was given tells which calls were made.
    have hcalls := h (List Text) (fun calls t => calls ++ [t]) (fun _ => some []) [] rfl
    rw [loadFromYaml_apply] at hcalls
    have hlist := Option.some.inj hcalls
    have hlog : ∀ (ts calls : List Text), ts.foldl (fun calls t => calls ++ [t]) calls = calls ++ ts := by
      intro ts calls
      induction ts generalizing calls with
      | nil => rw [List.foldl_nil, List.append_nil]
      | cons t ts ih => rw [List.foldl_cons, ih, List.append_assoc]; rfl
    simp only [hlog, List.nil_append] at hlist
    have hlength := congrArg List.length hlist
    rw [List.length_map, List.length_map] at hlength
    exact List.length_filter_eq_length_iff.mp hlength
  · intro h V fromString datas var hvar
    rw [loadFromYaml_apply, hvar, List.filter_eq_self.mpr h, Option.map_some]

theorem documentedByte_lower {b : UInt8} (h : documentedByte b = true) :
    toLower b = b ∧ isUpper b = false := by
  have hall : ∀ b : Fin 256, documentedByte (UInt8.ofFin b) = true →
      toLower (UInt8.ofFin b) = UInt8.ofFin b ∧ isUpper (UInt8.ofFin b) = false := by decide +kernel
  exact hall b.toFin h

theorem registrable_iff {name : Text} (h : documented name = true) :
    Registrable name ↔ 57 ∉ name := by
  rw [documented, List.all_eq_true] at h
  have hvalid : validName name = true ↔ 57 ∉ name := by
    rw [validName_iff]
    refine ⟨fun h => h.2.2, fun hnine => ⟨?_, fun b hb => (documentedByte_lower (h b hb)).2, hnine⟩⟩
    rw [documented, lower, List.all_map, List.all_eq_true]
    intro b hb
    rw [Function.comp_apply, (documentedByte_lower (h b hb)).1]
    exact h b hb
  rw [← hvalid]
  constructor
  · intro hreg
    obtain ⟨datas', hlookup, -⟩ := hreg Unit (fun _ => true) (fun _ => none) () rfl
    by_contra hbad
    simp only [lookup, if_neg hbad] at hlookup
    cases hlookup
  · intro hname V sameType datas v hnone
    refine ⟨Function.update datas name (some v), ?_, Function.update_self ..⟩
    rw [lookup, hnone]
    simp only [hname, if_true]

/-- A matching path of a name without a nine is visible unless it is empty or has an upper-case
letter. -/
theorem visible_iff {root : YamlNode} {name : Text} (hnine : 57 ∉ name) {p : List Text × YamlNode}
    (hp : p ∈ matching root name) :
    visible p = true ↔ name ≠ [] ∧ ∀ key ∈ p.1, ∀ b ∈ key, isUpper b = false := by
  simp only [matching, List.mem_filter, Bool.and_eq_true, decide_eq_true_eq] at hp
  obtain ⟨-, ⟨-, hname⟩, hdocumented⟩ := hp
  have hempty : joinPath p.1 ≠ [] ↔ name ≠ [] := by
    rw [← hname, lower, ne_eq, ne_eq, List.map_eq_nil_iff]
  have hvalid : throughout validName p.1 = true ↔
      ∀ key ∈ p.1, ∀ b ∈ key, isUpper b = false := by
    rw [throughout, List.all_eq_true] at hdocumented ⊢
    constructor
    · intro h key hkey b hb
      have hwhole := h p.1 ((List.mem_inits _ _).mpr (List.prefix_refl _))
      exact ((validName_iff _).mp hwhole).2.1 b (mem_joinFrom_of_mem (Or.inr ⟨key, hkey, hb⟩))
    · intro h q hq
      have hbegins : q <+: p.1 := (List.mem_inits _ _).mp hq
      refine (validName_iff _).mpr ⟨hdocumented q hq, ?_, ?_⟩
      · intro b hb
        rcases mem_joinFrom hb with hnil | rfl | ⟨key, hkey, hbkey⟩
        · cases hnil
        · decide
        · exact h key (hbegins.subset hkey) b hbkey
      · intro hmem
        apply hnine
        rw [← hname]
        exact List.mem_map.mpr ⟨57, mem_joinPath_of_isPrefix hbegins hmem, by decide⟩
  rw [visible, Bool.and_eq_true, decide_eq_true_eq, hempty, hvalid]

/-- A variable is reached by all its paths, and its name can be registered, exactly when the name
has no nine and no matching path has an upper-case letter: the alphabet of config.cc:22 and
config.h:410 stops at eight and is applied before the letters are made lower case. (A name that is
empty is skipped.) -/
theorem reaches_and_registrable_iff (y : Yaml) (root : YamlNode) (name : Text)
    (h : documented name = true) :
    Reaches y root name ∧ Registrable name ↔
      57 ∉ name ∧ ∀ p ∈ matching root name,
        name ≠ [] ∧ ∀ key ∈ p.1, ∀ b ∈ key, isUpper b = false := by
  rw [registrable_iff h, reaches_iff, and_comm]
  apply and_congr_right
  intro hnine
  constructor
  · intro hvisible p hp
    exact (visible_iff hnine hp).mp (hvisible p hp)
  · intro hlower p hp
    exact (visible_iff hnine hp).mpr (hlower p hp)

/-- The configuration `system: (key: 8080)`. -/
def systemPort (key : String) : YamlNode :=
  .map [(.scalar (text "system"), .map [(.scalar (text key), .scalar (text "8080"))])]

theorem reaches_system_port :
    Reaches Yaml.flowYaml (systemPort "port") (text "system.port") ∧
      Registrable (text "system.port") :=
  (reaches_and_registrable_iff Yaml.flowYaml (systemPort "port") (text "system.port")
    (by decide +kernel)).mpr (by decide +kernel)

/-- The key `Port` is dropped, and a name with a nine is refused. -/
theorem not_reaches_upper_case :
    (documented (text "system.port") = true ∧
      ¬Reaches Yaml.flowYaml (systemPort "Port") (text "system.port")) ∧
      documented (text "port9") = true ∧ ¬Registrable (text "port9") := by
  refine ⟨⟨by decide, ?_⟩, by decide, ?_⟩
  · rw [reaches_iff]
    decide
  · rw [registrable_iff (by decide)]
    decide

end HxSylar.Config
