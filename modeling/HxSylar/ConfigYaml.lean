import HxSylar.Lib.Yaml
import Mathlib.Logic.Function.Basic

namespace HxSylar.Config
open Lib

/-- The bytes that `ListAllMember` (config.cc:22) and `Lookup` (config.h:410) let pass. -/
def nameBytes : Text := text "abcdefghikjlmnopqrstuvwxyz._012345678"

def validName (name : Text) : Bool := name.all (fun b => nameBytes.contains b)

def member (pre key : Text) : Text := if pre = [] then key else pre ++ byte '.' :: key

mutual
def listAllMember (pre : Text) (node : YamlNode) : List (Text × YamlNode) :=
  if validName pre then
    (pre, node) :: (match node with
      | .map entries => listMembers pre entries
      | _ => [])
  else []

def listMembers (pre : Text) : List (YamlNode × YamlNode) → List (Text × YamlNode)
  | [] => []
  | (key, node) :: entries =>
    listAllMember (member pre key.scalarText) node ++ listMembers pre entries
end

section Datas
variable {V : Type}

abbrev Datas (V : Type) := Text → Option V

/-- `Lookup` with a default value (config.h:392-421), of which the object `v` is made.
`dynamic_pointer_cast` asks for `sameType`; the outer `none` is the exception. -/
def lookup (sameType : V → Bool) (datas : Datas V) (name : Text) (v : V) :
    Option (Option V × Datas V) :=
  match datas name with
  | some var => some (if sameType var then some var else none, datas)
  | none => if validName name then some (some v, Function.update datas name (some v)) else none

def nodeText (y : Yaml) : YamlNode → Text
  | .scalar t => t
  | node => y.emit node

def loadMember (y : Yaml) (fromString : V → Text → V) (datas : Datas V) (i : Text × YamlNode) :
    Datas V :=
  if i.1 = [] then datas
  else
    let key := i.1.map toLower
    match datas key with
    | none => datas
    | some var => Function.update datas key (some (fromString var (nodeText y i.2)))

/-- `LoadFromYaml` (config.cc:38-61), where `fromString` is what a call does to a variable. -/
def loadFromYaml (y : Yaml) (fromString : V → Text → V) (datas : Datas V) (root : YamlNode) : Datas V :=
  (listAllMember [] root).foldl (loadMember y fromString) datas

end Datas
end HxSylar.Config
