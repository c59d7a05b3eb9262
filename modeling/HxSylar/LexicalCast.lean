import HxSylar.Lib.Yaml
import Mathlib.Data.Finmap
import Mathlib.Data.Finset.Dedup

namespace HxSylar
open Lib

/-- The types of configuration values that the casts of config.h are for. -/
inductive Ty
  | int64
  | string
  | vector (t : Ty)
  | list (t : Ty)
  | set (t : Ty)
  | unorderedSet (t : Ty)
  | map (t : Ty)
  | unorderedMap (t : Ty)
  deriving DecidableEq, Repr

namespace Ty

/-- The objects of a type: a container is the list of what a loop over it meets, in the order of
the loop. That the elements of a set are distinct is never used. -/
def Obj : Ty → Type
  | .int64 => Int64
  | .string => Text
  | .vector t | .list t | .set t | .unorderedSet t => List t.Obj
  | .map t | .unorderedMap t => { entries : List (Text × t.Obj) // (entries.map Prod.fst).Nodup }

def Val : Ty → Type
  | .int64 => Int64
  | .string => Text
  | .vector t | .list t => List t.Val
  | .set t | .unorderedSet t => Finset t.Val
  | .map t | .unorderedMap t => Finmap (fun _ : Text => t.Val)

instance decEq : (t : Ty) → DecidableEq t.Val
  | .int64 => inferInstanceAs (DecidableEq Int64)
  | .string => inferInstanceAs (DecidableEq Text)
  | .vector t | .list t =>
    have := decEq t
    inferInstanceAs (DecidableEq (List t.Val))
  | .set t | .unorderedSet t =>
    have := decEq t
    inferInstanceAs (DecidableEq (Finset t.Val))
  | .map t | .unorderedMap t =>
    have := decEq t
    inferInstanceAs (DecidableEq (Finmap (fun _ : Text => t.Val)))

def value : (t : Ty) → t.Obj → t.Val
  | .int64, i => i
  | .string, s => s
  | .vector t, v | .list t, v => List.map t.value v
  | .set t, v | .unorderedSet t, v => (List.map t.value v).toFinset
  | .map t, v | .unorderedMap t, v =>
    (List.map (fun e => (⟨e.1, t.value e.2⟩ : Sigma (fun _ : Text => t.Val))) v.1).toFinmap

end Ty

namespace LexicalCast
variable (y : Yaml)

def toInt64 (s : Text) : Option Int64 :=
  s.parseDecimal.bind (fun i =>
    if -9223372036854775808 ≤ i ∧ i ≤ 9223372036854775807 then some (Int64.ofInt i) else none)

/-- The texts of `ss << i`. Of the pair that the loop meets in a map nothing is written. -/
def itemTexts : YamlNode → List Text
  | .sequence items => items.map y.emit
  | .map entries => entries.map (fun _ => [])
  | _ => []

/-- In a sequence the `first` of an entry is no node, and `Scalar()` throws. -/
def entryTexts : YamlNode → Option (List (Text × Text))
  | .map entries => some (entries.map (fun e => (e.1.scalarText, y.emit e.2)))
  | .sequence (_ :: _) => none
  | _ => some []

section Generic
variable {α β : Type} (toText : α → Option Text) (ofText : Text → Option β)

/-- To a vector, list, set or unordered set (config.h:72-86, 105-119, 138-152, 174-188). -/
def fromSequence (v : Text) : Option (List β) :=
  (y.load v).bind (fun node => (itemTexts y node).mapM ofText)

/-- From one of these to a text (config.h:88-100, 121-133, 157-169, 193-205). -/
def toSequence (v : List α) : Option Text := do
  let items ← v.mapM (fun i => (toText i).bind y.load)
  return y.emit (.sequence items)

/-- To a map or unordered map (config.h:210-225, 248-263), in the order of insertion. -/
def fromMap (v : Text) : Option (List (Sigma (fun _ : Text => β))) :=
  (y.load v).bind (fun node => (entryTexts y node).bind (fun entries =>
    entries.mapM (fun e => (ofText e.2).map (fun x => ⟨e.1, x⟩))))

/-- From a map to a text (config.h:230-242, 269-281). -/
def toMap (v : List (Text × α)) : Option Text := do
  let node ← v.foldlM (fun node i => ((toText i.2).bind y.load).bind (YamlNode.set node i.1)) (.map [])
  return y.emit node

end Generic

def toString : (t : Ty) → t.Obj → Option Text
  | .int64, i => some (.decimal (Int64.toInt i))
  | .string, s => some s
  | .vector t, v | .list t, v | .set t, v | .unorderedSet t, v => toSequence y (toString t) v
  | .map t, v | .unorderedMap t, v => toMap y (toString t) v.1

/-- `LexicalCast<std::string, T>`. `insert` into a map keeps an entry that is there. -/
def fromString : (t : Ty) → Text → Option t.Val
  | .int64, s => toInt64 s
  | .string, s => some s
  | .vector t, s | .list t, s => fromSequence y (fromString t) s
  | .set t, s | .unorderedSet t, s => (fromSequence y (fromString t) s).map List.toFinset
  | .map t, s | .unorderedMap t, s => (fromMap y (fromString t) s).map List.toFinmap

end LexicalCast
end HxSylar
