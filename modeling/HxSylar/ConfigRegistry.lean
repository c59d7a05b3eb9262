import HxSylar.Config
import HxSylar.ConfigYaml

namespace HxSylar.Config
open Lib

section Registry
variable {τ : Type*}

/-- A `ConfigVar<T>` behind a `ConfigVarBase::ptr`. `V` gives the values of each type. -/
structure Object (V : τ → Type*) where
  name : Text
  description : Text
  type : τ
  var : ConfigVar (V type)

def Object.create {V : τ → Type*} (name : Text) (type : τ) (defaultValue : V type)
    (description : Text) : Object V :=
  { name := name.map toLower, description := description, type := type
    var := { val := defaultValue } }

/-- `GetDatas()`, with the objects that its pointers lead to. A pointer is the number of the object
in the order of their creation; the map keeps every one of them alive. -/
structure Registry (V : τ → Type*) where
  datas : List (Text × Nat) := []
  objects : List (Object V) := []

namespace Registry
variable [DecidableEq τ] {V : τ → Type*}

def dynamicPointerCast (r : Registry V) (type : τ) (ptr : Nat) : Option Nat :=
  (r.objects[ptr]?).bind fun o => if o.type = type then some ptr else none

/-- `Lookup<T>` with a default value (config.h:392-420); the error is what the exception says. -/
def lookupDefault (r : Registry V) (type : τ) (name : Text) (defaultValue : V type)
    (description : Text) : Except Text (Option Nat) × Registry V :=
  match r.datas.lookup name with
  | some ptr =>
    match r.dynamicPointerCast type ptr with
    | some tmp => (.ok (some tmp), r)
    | none => (.ok none, r)
  | none =>
    if !validName name then (.error name, r)
    else
      let ptr := r.objects.length
      (.ok (some ptr),
        { datas := (name, ptr) :: r.datas
          objects := r.objects ++ [Object.create name type defaultValue description] })

def lookup (r : Registry V) (type : τ) (name : Text) : Option Nat :=
  match r.datas.lookup name with
  | none => none
  | some ptr => r.dynamicPointerCast type ptr

def setValue [∀ t, BEq (V t)] (r : Registry V) (ptr : Nat) (type : τ) (v : V type) : Registry V :=
  { r with objects := r.objects.modify ptr fun o =>
      if h : type = o.type then { o with var := (o.var.setValue (h ▸ v)).1 } else o }

inductive Call (V : τ → Type*)
  | lookupDefault (type : τ) (name : Text) (defaultValue : V type) (description : Text)
  | lookup (type : τ) (name : Text)
  | setValue (ptr : Nat) (type : τ) (v : V type)

def call [∀ t, BEq (V t)] (r : Registry V) : Call V → Option (Except Text (Option Nat)) × Registry V
  | .lookupDefault type name defaultValue description =>
    let (result, r') := r.lookupDefault type name defaultValue description
    (some result, r')
  | .lookup type name => (some (.ok (r.lookup type name)), r)
  | .setValue ptr type v => (none, r.setValue ptr type v)

def machine [∀ t, BEq (V t)] : Lib.Machine (Registry V) (Call V) where
  init r := r = {}
  step r c := some (r.call c).2

end Registry
end Registry
end HxSylar.Config
