import HxSylar.Lib.Text

namespace HxSylar
open Lib

/-- The classes of `s_format_items` (log.cc:512-533). -/
inductive ItemClass
  | message | level | elapse | name | threadId | newLine | dateTime | filename | line | tab
  | fiberId | threadName
  deriving DecidableEq, Repr

inductive FormatItem
  | string (str : Text)
  | item (cls : ItemClass) (fmt : Text)
  deriving DecidableEq, Repr

def formatItems : List (Text × ItemClass) :=
  [(text "m", .message), (text "p", .level), (text "r", .elapse), (text "c", .name),
    (text "t", .threadId), (text "n", .newLine), (text "d", .dateTime), (text "f", .filename),
    (text "l", .line), (text "T", .tab), (text "F", .fiberId), (text "N", .threadName)]

structure LogFormatter where
  pattern : Text
  items : List FormatItem
  error : Bool
  deriving DecidableEq, Repr

namespace LogFormatter

inductive Token
  | literal (str : Text)
  | directive (str fmt : Text)
  deriving DecidableEq, Repr

/-- What the inner loop ends with: `str`, `fmt`, whether `fmt_status` is zero, and `n`. -/
structure Directive where
  str : Text
  fmt : Text := []
  closed : Bool
  n : Nat

/-- The inner loop of `init` (log.cc:461-492) for the `%` at `i`. `opened` is `fmt_begin` once
`fmt_status` is 1; the fuel is the number of bytes left. -/
def scanDirective (p : Text) (i : Nat) : Nat → Nat → Option Nat → Text → Directive
  | 0, n, opened, str => { str := str, closed := opened.isNone, n := n }
  | fuel + 1, n, opened, str =>
    match p[n]? with
    | none => { str := str, closed := opened.isNone, n := n }
    | some ch =>
      let next := if n + 1 = p.length ∧ str = [] then p.drop (i + 1) else str
      match opened with
      | none =>
        if !isAlpha ch && ch != byte '\x7b' && ch != byte '\x7d' then
          { str := p.substr (i + 1) (n - i - 1), closed := true, n := n }
        else if ch = byte '\x7b' then
          scanDirective p i fuel (n + 1) (some n) (p.substr (i + 1) (n - i - 1))
        else scanDirective p i fuel (n + 1) none next
      | some fmtBegin =>
        if ch = byte '\x7d' then
          { str := str, fmt := p.substr (fmtBegin + 1) (n - fmtBegin - 1), closed := true, n := n + 1 }
        else scanDirective p i fuel (n + 1) (some fmtBegin) next

def flush (nstr : Text) : List Token := if nstr = [] then [] else [.literal nstr]

/-- The outer loop of `init` (log.cc:443-510). After `%%` it goes on at the second `%`. -/
def scan (p : Text) : Nat → Nat → Text → List Token → Bool → List Token × Bool
  | 0, _, nstr, vec, error => (vec ++ flush nstr, error)
  | fuel + 1, i, nstr, vec, error =>
    match p[i]? with
    | none => (vec ++ flush nstr, error)
    | some ch =>
      if ch ≠ byte '%' then scan p fuel (i + 1) (nstr ++ [ch]) vec error
      else if p[i + 1]? = some (byte '%') then scan p fuel (i + 1) (nstr ++ [byte '%']) vec error
      else
        let d := scanDirective p i p.length (i + 1) none []
        if d.closed then
          scan p fuel d.n [] (vec ++ flush nstr ++ [.directive d.str d.fmt]) error
        else scan p fuel (i + 1) nstr (vec ++ [.literal (text "<<pattern_error>>")]) true

/-- `log.cc:535-548`; the flag tells an unknown directive. -/
def item : Token → FormatItem × Bool
  | .literal str => (.string str, false)
  | .directive str fmt =>
    match formatItems.lookup str with
    | some cls => (.item cls fmt, false)
    | none => (.string (text "<<error_format %" ++ str ++ text ">>"), true)

/-- `LogFormatter::LogFormatter` with `init` (log.cc:415-417, 438-553). -/
def create (pattern : Text) : LogFormatter :=
  let (vec, error) := scan pattern (pattern.length + 1) 0 [] [] false
  { pattern := pattern
    items := vec.map (fun t => (item t).1)
    error := error || vec.any (fun t => (item t).2) }

def isError (f : LogFormatter) : Bool := f.error

end LogFormatter
end HxSylar
