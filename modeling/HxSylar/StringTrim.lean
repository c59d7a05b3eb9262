import HxSylar.HttpParam
import Mathlib.Algebra.Ring.Nat

namespace HxSylar.StringUtil
open Lib

def npos : Nat := 2 ^ 64 - 1

def findFirstNotOf (str delimit : Text) : Option Nat := str.findIdx? (· ∉ delimit)

def findLastNotOf (str delimit : Text) : Option Nat :=
  (str.reverse.findIdx? (· ∉ delimit)).map (str.length - 1 - ·)

/-- `StringUtil::Trim` (util.cc:627-635), for any `delimit`. Only `begin` is compared with `npos`. -/
def trim (str delimit : Text) : Text :=
  match findFirstNotOf str delimit with
  | none => []
  | some begin =>
    let last := (findLastNotOf str delimit).getD npos
    str.substr begin (last - begin + 1)

def trimLeft (str delimit : Text) : Text :=
  match findFirstNotOf str delimit with
  | none => []
  | some begin => str.drop begin

/-- `StringUtil::TrimRight` (util.cc:646-653), which passes a position as a number of bytes. -/
def trimRight (str delimit : Text) : Text :=
  match findLastNotOf str delimit with
  | none => []
  | some last => str.substr 0 last

end HxSylar.StringUtil
