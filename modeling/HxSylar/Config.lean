import HxSylar.Lib.Machine
import HxSylar.Lib.Text

namespace HxSylar

/-- `ConfigVar` (config.h:293-), with the keys of `m_cbs` in the order of their registration. -/
structure ConfigVar (α : Type*) where
  val : α
  cbs : List Nat := []
  deriving DecidableEq, Repr

structure Notice (α : Type*) where
  key : Nat
  oldValue : α
  newValue : α
  deriving DecidableEq, Repr

namespace ConfigVar
variable {α : Type*} [BEq α]

def getValue (c : ConfigVar α) : α := c.val

/-- The read-locked section of `setValue` (config.h:336-344); `none` is the early return. -/
def notify (c : ConfigVar α) (v : α) : Option (List (Notice α)) :=
  if v == c.val then none else some (c.cbs.map (fun key => ⟨key, c.val, v⟩))

def assign (c : ConfigVar α) (v : α) : ConfigVar α := { c with val := v }

def setValue (c : ConfigVar α) (v : α) : ConfigVar α × List (Notice α) :=
  match c.notify v with
  | none => (c, [])
  | some notices => (c.assign v, notices)

/-- The loop over `m_cbs` (config.h:341-343) when listeners may throw. -/
def callListeners (throws : Notice α → Bool) : List (Notice α) → List (Notice α) × Bool
  | [] => ([], false)
  | n :: ns =>
    if throws n then ([], true)
    else
      let (returned, threw) := callListeners throws ns
      (n :: returned, threw)

/-- `setValue` when listeners may throw; an exception leaves it before the assignment. -/
def trySetValue (c : ConfigVar α) (throws : Notice α → Bool) (v : α) :
    ConfigVar α × List (Notice α) :=
  match c.notify v with
  | none => (c, [])
  | some notices =>
    let (returned, threw) := callListeners throws notices
    (if threw then c else c.assign v, returned)

/-- `fromString` (config.h:319-329) with the listeners' calls that returned. `fromStr` is
`FromStr()`, with `none` for an exception; the `catch` block only logs. -/
def fromString (c : ConfigVar α) (fromStr : Lib.Text → Option α) (throws : Notice α → Bool)
    (val : Lib.Text) : Bool × ConfigVar α × List (Notice α) :=
  match fromStr val with
  | none => (false, c, [])
  | some v =>
    let (c', returned) := c.trySetValue throws v
    (false, c', returned)

/-- `addListener` (config.h:353-359). Other variables of the same type advance `s_fun_id` too. -/
def addListener (c : ConfigVar α) (key : Nat) : ConfigVar α := { c with cbs := c.cbs ++ [key] }

def delListener (c : ConfigVar α) (key : Nat) : ConfigVar α := { c with cbs := c.cbs.erase key }

def clearListener (c : ConfigVar α) : ConfigVar α := { c with cbs := [] }

end ConfigVar

/-- A variable between several threads: `setting` are the values of the calls of `setValue`
between their two sections, `notices` the listeners' calls, the latest first. -/
structure SharedVar (α : Type*) where
  var : ConfigVar α
  setting : Nat → Option α := fun _ => none
  notices : List (Notice α) := []
  funId : Nat := 0

namespace SharedVar
variable {α : Type*} [BEq α]

inductive Act (α : Type*)
  | notify (thread : Nat) (v : α)
  | assign (thread : Nat)
  | addListener (key : Nat)
  | delListener (key : Nat)
  | clearListener

/-- A thread inside `setValue` does not enter it again. -/
def step (s : SharedVar α) : Act α → Option (SharedVar α)
  | .notify thread v =>
    if (s.setting thread).isNone then
      match s.var.notify v with
      | none => some s
      | some notices => some { s with
          setting := Function.update s.setting thread (some v)
          notices := notices.reverse ++ s.notices }
    else none
  | .assign thread =>
    (s.setting thread).map (fun v => { s with
      var := s.var.assign v
      setting := Function.update s.setting thread none })
  | .addListener key =>
    if s.funId < key then some { s with var := s.var.addListener key, funId := key } else none
  | .delListener key => some { s with var := s.var.delListener key }
  | .clearListener => some { s with var := s.var.clearListener }

def machine (α : Type*) [BEq α] : Lib.Machine (SharedVar α) (Act α) where
  init s := ∃ v, s = { var := { val := v } }
  step := step

def lastDelivered (s : SharedVar α) (key : Nat) : Option α :=
  (s.notices.find? (fun n => n.key == key)).map Notice.newValue

end SharedVar
end HxSylar
