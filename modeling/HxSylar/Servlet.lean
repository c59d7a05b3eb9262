import HxSylar.Lib.Machine

namespace HxSylar

/-- A servlet: one that a caller made, a `FunctionServlet` that the dispatch made around a callback,
named by the number of its making, or the `NotFoundServlet` of the dispatch. -/
inductive Servlet (σ κ : Type*)
  | given (slt : σ)
  | function (n : Nat) (cb : κ)
  | notFound
  deriving DecidableEq, Repr

abbrev ServletPtr (σ κ : Type*) := Option (Servlet σ κ)

/-- `ServletDispatch` (servlet.h:77-111). Every function runs under the lock. -/
structure ServletDispatch (σ κ : Type*) where
  datas : String → Option (ServletPtr σ κ) := fun _ => none
  globs : List (String × ServletPtr σ κ) := []
  default : ServletPtr σ κ := some .notFound
  made : Nat := 0

namespace ServletDispatch
variable {σ κ : Type*}

def addServlet (d : ServletDispatch σ κ) (uri : String) (slt : ServletPtr σ κ) :
    ServletDispatch σ κ :=
  { d with datas := Function.update d.datas uri (some slt) }

/-- `addGlobServlet` (servlet.cc:38-47): an entry with the same uri goes first. -/
def addGlobServlet (d : ServletDispatch σ κ) (uri : String) (slt : ServletPtr σ κ) :
    ServletDispatch σ κ :=
  { d with globs := d.globs.eraseP (fun e => e.1 == uri) ++ [(uri, slt)] }

def functionServlet (d : ServletDispatch σ κ) (cb : κ) : ServletDispatch σ κ × ServletPtr σ κ :=
  ({ d with made := d.made + 1 }, some (.function d.made cb))

/-- `addServlet(uri, cb)` (servlet.cc:33-37) registers a glob. -/
def addServletCallback (d : ServletDispatch σ κ) (uri : String) (cb : κ) : ServletDispatch σ κ :=
  (d.functionServlet cb).1.addGlobServlet uri (d.functionServlet cb).2

def addGlobServletCallback (d : ServletDispatch σ κ) (uri : String) (cb : κ) :
    ServletDispatch σ κ :=
  (d.functionServlet cb).1.addGlobServlet uri (d.functionServlet cb).2

def delServlet (d : ServletDispatch σ κ) (uri : String) : ServletDispatch σ κ :=
  { d with datas := Function.update d.datas uri none }

def getServlet (d : ServletDispatch σ κ) (uri : String) : ServletPtr σ κ :=
  match d.datas uri with
  | none => none
  | some slt => slt

def findGlob (d : ServletDispatch σ κ) (uri : String) : Option (ServletPtr σ κ) :=
  (d.globs.find? (fun e => e.1 == uri)).map Prod.snd

def getGlobServlet (d : ServletDispatch σ κ) (uri : String) : ServletPtr σ κ :=
  match d.findGlob uri with
  | none => none
  | some slt => slt

def getMatchServlet (d : ServletDispatch σ κ) (uri : String) : ServletPtr σ κ :=
  match d.datas uri with
  | some slt => slt
  | none =>
    match d.findGlob uri with
    | some slt => slt
    | none => d.default

inductive Act (σ κ : Type*)
  | addServlet (uri : String) (slt : ServletPtr σ κ)
  | addServletCallback (uri : String) (cb : κ)
  | addGlobServlet (uri : String) (slt : ServletPtr σ κ)
  | addGlobServletCallback (uri : String) (cb : κ)
  | delServlet (uri : String)

/-- A caller cannot have a pointer to a servlet that has not been made. -/
def Exists (made : Nat) : ServletPtr σ κ → Prop
  | some (.function n _) => n < made
  | _ => True

instance (made : Nat) : DecidablePred (Exists (σ := σ) (κ := κ) made)
  | some (.function n _) => inferInstanceAs (Decidable (n < made))
  | some (.given _) | some .notFound | none => isTrue trivial

def step (d : ServletDispatch σ κ) : Act σ κ → Option (ServletDispatch σ κ)
  | .addServlet uri slt => if Exists d.made slt then some (d.addServlet uri slt) else none
  | .addServletCallback uri cb => some (d.addServletCallback uri cb)
  | .addGlobServlet uri slt => if Exists d.made slt then some (d.addGlobServlet uri slt) else none
  | .addGlobServletCallback uri cb => some (d.addGlobServletCallback uri cb)
  | .delServlet uri => some (d.delServlet uri)

def machine : Lib.Machine (ServletDispatch σ κ) (Act σ κ) where
  init d := d = {}
  step := step

end ServletDispatch
end HxSylar
