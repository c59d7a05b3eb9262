import HxSylar.Lib.OrderedMap
import HxSylar.Lib.Text

namespace HxSylar
open Lib

def stringLess (s t : Text) : Bool := decide (s < t)

/-- `Env` (env.h:12-46) without the help texts. -/
structure Env where
  args : OrderedMap Text Text := []
  program : Text := []
  exe : Text := []
  cwd : Text := []
  deriving DecidableEq, Repr

namespace Env

def add (e : Env) (key val : Text) : Env :=
  { e with args := OrderedMap.assign stringLess e.args key val }

def has (e : Env) (key : Text) : Bool := (OrderedMap.find stringLess e.args key).isSome

def get (e : Env) (key default_value : Text) : Text :=
  (OrderedMap.find stringLess e.args key).getD default_value

def flush (e : Env) : Option Text → Env
  | some now_key => e.add now_key []
  | none => e

/-- The loop of `init` over the arguments behind `argv[0]`, with what follows it (env.cc:31-55).
The first byte of an empty argument is its null byte. -/
def initLoop (e : Env) (now_key : Option Text) : List Text → Bool × Env
  | [] => (true, e.flush now_key)
  | arg :: rest =>
    if arg.headD 0 = byte '-' then
      if 1 < arg.length then initLoop (e.flush now_key) (some (arg.drop 1)) rest
      else (false, e)
    else
      match now_key with
      | some key => initLoop (e.add key arg) none rest
      | none => (false, e)

def findLastOf (str : Text) (c : UInt8) : Option Nat :=
  (str.reverse.idxOf? c).map (str.length - 1 - ·)

/-- `Env::init` (env.cc:17-56). `path` is where the link under `/proc` leads, `argv0` and `rest`
are the `argc` arguments, each of them up to its null byte. -/
def init (e : Env) (path argv0 : Text) (rest : List Text) : Bool × Env :=
  let pos := (findLastOf path (byte '/')).getD path.length
  initLoop { e with exe := path, cwd := path.substr 0 pos ++ [byte '/'], program := argv0 } none rest

end Env
end HxSylar
