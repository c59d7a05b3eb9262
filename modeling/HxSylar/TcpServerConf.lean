import HxSylar.LexicalCast
import Mathlib.Data.Finset.Sort

namespace HxSylar
open Lib

def sortedEntries (m : Finmap (fun _ : Text => Text)) : List (Text × Text) :=
  (m.keys.sort (· ≤ ·)).filterMap (fun k => (m.lookup k).map (fun v => (k, v)))

theorem sortedEntries_nodup (m : Finmap (fun _ : Text => Text)) :
    ((sortedEntries m).map Prod.fst).Nodup := by
  have hkeys : (sortedEntries m).map Prod.fst =
      (m.keys.sort (· ≤ ·)).filter (fun k => (m.lookup k).isSome) := by
    rw [sortedEntries, List.map_filterMap, ← List.filterMap_eq_filter]
    congr 1
    funext k
    cases hk : m.lookup k with
    | none => simp [Option.guard, hk]
    | some v => simp [Option.guard, hk]
  rw [hkeys]
  exact (Finset.sort_nodup _ _).filter _

def iterate (m : Finmap (fun _ : Text => Text)) : (Ty.map .string).Obj :=
  ⟨sortedEntries m, sortedEntries_nodup m⟩

structure TcpServerConf where
  address : List Text := []
  keepalive : Int32 := 0
  timeout : Int32 := 120000
  ssl : Int32 := 0
  id : Text := []
  type : Text := text "http"
  name : Text := []
  certFile : Text := []
  keyFile : Text := []
  acceptWorker : Text := []
  ioWorker : Text := []
  processWorker : Text := []
  args : Finmap (fun _ : Text => Text) := ∅
  deriving DecidableEq

namespace TcpServerConf

def eq (c oth : TcpServerConf) : Bool :=
  c.address == oth.address && c.keepalive == oth.keepalive && c.timeout == oth.timeout &&
    c.name == oth.name && c.ssl == oth.ssl && c.certFile == oth.certFile &&
    c.keyFile == oth.keyFile && c.acceptWorker == oth.acceptWorker &&
    c.ioWorker == oth.ioWorker && c.processWorker == oth.processWorker &&
    decide (c.args = oth.args) && c.id == oth.id && c.type == oth.type

def readAddress : Option YamlNode → Option (List Text)
  | none => some []
  | some address =>
    (List.range address.size).mapM (fun i => (address.item i).bind YamlNode.asString)

def readArgs (y : Yaml) (v : Text) : Option (Finmap (fun _ : Text => Text)) :=
  LexicalCast.fromString y (.map .string) v

/-- `LexicalCast<std::string, TcpServerConf>` (tcp_server.h:42-68). A node whose subscripts throw
has no `accept_worker` either, and that throws. -/
def fromString (y : Yaml) (v : Text) : Option TcpServerConf := do
  let node ← y.load v
  let conf : TcpServerConf := {}
  let acceptWorker ← YamlNode.asString (node.child (text "accept_worker"))
  let ioWorker ← YamlNode.asString (node.child (text "io_worker"))
  let processWorker ← YamlNode.asString (node.child (text "process_worker"))
  let args ← readArgs y (YamlNode.asStringOr (node.child (text "args")) [])
  let address ← readAddress (node.child (text "address"))
  return {
    id := YamlNode.asStringOr (node.child (text "id")) conf.id
    type := YamlNode.asStringOr (node.child (text "type")) conf.type
    keepalive := YamlNode.asIntOr (node.child (text "keepalive")) conf.keepalive
    timeout := YamlNode.asIntOr (node.child (text "timeout")) conf.timeout
    name := YamlNode.asStringOr (node.child (text "name")) conf.name
    ssl := YamlNode.asIntOr (node.child (text "ssl")) conf.ssl
    certFile := YamlNode.asStringOr (node.child (text "cert_file")) conf.certFile
    keyFile := YamlNode.asStringOr (node.child (text "key_file")) conf.keyFile
    acceptWorker := acceptWorker
    ioWorker := ioWorker
    processWorker := processWorker
    args := args
    address := address }

def assignments (conf : TcpServerConf) (args : YamlNode) : List (Text × YamlNode) :=
  [(text "id", .scalar conf.id),
    (text "type", .scalar conf.type),
    (text "name", .scalar conf.name),
    (text "keepalive", .scalar (.decimal conf.keepalive.toInt)),
    (text "timeout", .scalar (.decimal conf.timeout.toInt)),
    (text "ssl", .scalar (.decimal conf.ssl.toInt)),
    (text "cert_file", .scalar conf.certFile),
    (text "key_file", .scalar conf.keyFile),
    (text "accept_worker", .scalar conf.acceptWorker),
    (text "io_worker", .scalar conf.ioWorker),
    (text "process_worker", .scalar conf.processWorker),
    (text "args", args)]

def toString (y : Yaml) (conf : TcpServerConf) : Option Text := do
  let args ← (LexicalCast.toString y (.map .string) (iterate conf.args)).bind y.load
  let node ← (conf.assignments args).foldlM (fun node a => node.set a.1 a.2) .null
  let node ← conf.address.foldlM (fun node i => node.pushBack (text "address") (.scalar i)) node
  return y.emit node

end TcpServerConf
end HxSylar
