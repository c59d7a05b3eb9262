import HxSylar.Lib.Decimal
import HxSylar.Lib.Ragel

namespace HxSylar
open Lib (Text Ragel Ways isAlpha isDigit text)

structure Uri where
  scheme : Text := []
  userinfo : Text := []
  host : Text := []
  port : Int := 0
  path : Text := []
  query : Text := []
  fragment : Text := []
  deriving DecidableEq, Repr

namespace Uri

-- The machine `uri_parser` (uri.rl:6-130), which the generated tables implement.
namespace Grammar
open Lib.Ragel

def char (c : Char) : Ragel := byte (fun b => b == Lib.byte c)

def oneOf (s : String) : Ragel := byte (fun b => (text s).contains b)

def isXdigit (b : UInt8) : Bool := isDigit b || (65 ≤ b && b ≤ 70) || (97 ≤ b && b ≤ 102)

def digit : Ragel := byte isDigit
def xdigit : Ragel := byte isXdigit
def subDelims : Ragel := oneOf "!$&'()*+,;="
def isUnreserved (b : UInt8) : Bool := isAlpha b || isDigit b || (text "-._~").contains b
def unreserved : Ragel := byte isUnreserved
def pctEncoded : Ragel := seq [char '%', xdigit, xdigit]

def schemeText : Ragel :=
  cat (byte isAlpha) (.star (byte (fun b => isAlpha b || isDigit b || (text "+-.").contains b)))

def scheme : Ragel := leave (enter 0 schemeText) 1

def userinfo : Ragel := .star (alt (alt (alt unreserved pctEncoded) subDelims) (char ':'))

/-- The bare `2` of the third line is the byte of that value, not the digit. -/
def decOctet : Ragel :=
  alt (alt (alt (alt digit (cat (oneOf "123456789") digit)) (seq [char '1', digit, digit]))
    (seq [byte (fun b => b == 2), oneOf "01234", digit])) (seq [char '2', char '5', oneOf "012345"])

def ipv4address : Ragel :=
  seq [decOctet, char '.', decOctet, char '.', decOctet, char '.', decOctet]

def h16 : Ragel := alt (alt (alt xdigit (rep 2 xdigit)) (rep 3 xdigit)) (rep 4 xdigit)
def ls32 : Ragel := alt (seq [h16, char ':', h16]) ipv4address

def h16s (n : Nat) : Ragel := rep n (cat h16 (char ':'))

def colons : Ragel := cat (char ':') (char ':')

def before (n : Nat) : Ragel := opt (cat (h16s n) h16)

def ipv6address : Ragel :=
  alt (alt (alt (alt (alt (alt (alt (alt
    (cat (h16s 6) ls32)
    (seq [colons, h16s 5, ls32]))
    (seq [opt h16, colons, h16s 4, ls32]))
    (seq [before 1, colons, h16s 3, ls32]))
    (seq [before 2, colons, h16s 2, ls32]))
    (seq [before 3, colons, h16s 1, ls32]))
    (seq [before 4, colons, ls32]))
    (seq [before 5, colons, h16]))
    (seq [before 6, colons])

def ipvFuture : Ragel :=
  seq [char 'v', plus xdigit, char '.', plus (alt (alt unreserved subDelims) (char ':'))]

def ipLiteral : Ragel := seq [char '[', alt ipv6address ipvFuture, char ']']
def regName : Ragel := .star (alt (alt unreserved pctEncoded) subDelims)
def host : Ragel := alt (alt ipLiteral ipv4address) regName
def port : Ragel := .star digit

/-- `authority`, its six actions numbered from `k` on. -/
def authority (k : Nat) : Ragel :=
  enter k (seq [opt (cat (leave userinfo (k + 1)) (char '@')),
    leave (enter (k + 2) host) (k + 3),
    opt (cat (char ':') (leave (enter (k + 4) port) (k + 5)))])

/-- `pchar` but for escapes; every byte outside ASCII is one. -/
def isPchar (b : UInt8) : Bool :=
  128 ≤ b || isUnreserved b || (text "!$&'()*+,;=:@").contains b

def pchar : Ragel := alt (byte isPchar) pctEncoded

def pcharNc : Ragel := alt (byte (fun b => isPchar b && b != Lib.byte ':')) pctEncoded

def segment : Ragel := .star pchar
def segmentNz : Ragel := plus pchar
def segmentNzNc : Ragel := plus pcharNc

def segments : Ragel := .star (cat (char '/') segment)

def pathAbempty : Ragel := cat (opt (cat (char '/') segment)) segments
def pathAbsolute : Ragel := cat (char '/') (opt (cat segmentNz segments))
def pathNoscheme : Ragel := cat segmentNzNc segments
def pathRootless : Ragel := cat segmentNz segments

def queryText : Ragel := .star (alt (alt pchar (char '/')) (char '?'))

def query (k : Nat) : Ragel := leave (enter k queryText) (k + 1)
def fragment (k : Nat) : Ragel := leave (enter k queryText) (k + 1)

def tail (k : Nat) : Ragel :=
  cat (opt (cat (char '?') (query k))) (opt (cat (char '#') (fragment (k + 2))))

def hierPart : Ragel :=
  alt (alt (alt (seq [char '/', char '/', authority 2, leave (enter 8 pathAbempty) 9]) pathAbsolute)
    pathRootless) eps

def relativePart : Ragel :=
  alt (alt (alt (seq [char '/', char '/', authority 14, pathAbempty]) pathAbsolute) pathNoscheme) eps

def relativeRef : Ragel := cat relativePart (tail 20)
def uri : Ragel := seq [scheme, char ':', hierPart, tail 10]
def uriReference : Ragel := alt uri relativeRef

end Grammar

inductive Action
  | marku
  | markh
  | saveScheme
  | savePort
  | saveUserinfo
  | saveHost
  | savePath
  | saveQuery
  | saveFragment
  deriving DecidableEq, Repr

def actions : List Action :=
  [.marku, .saveScheme, .markh, .saveUserinfo, .markh, .saveHost, .markh, .savePort, .markh,
    .savePath, .marku, .saveQuery, .marku, .saveFragment, .markh, .saveUserinfo, .markh, .saveHost,
    .markh, .savePort, .marku, .saveQuery, .marku, .saveFragment]

structure Scan where
  mark : Option Nat := none
  uri : Uri := {}
  deriving DecidableEq, Repr

/-- `std::string(mark, p - mark)`; a null pointer throws. -/
def slice (t : Text) (p : Nat) (s : Scan) : Option Text :=
  s.mark.map (fun mark => t.substr mark (p - mark))

def Action.exec (t : Text) (p : Nat) (s : Scan) : Action → Option Scan
  | .marku | .markh => some { s with mark := some p }
  | .saveScheme => (slice t p s).map (fun v => ⟨none, { s.uri with scheme := v }⟩)
  | .savePort =>
    if s.mark = some p then some { s with mark := none }
    else s.mark.map (fun mark => ⟨none, { s.uri with port := Text.atoi (t.drop mark) }⟩)
  | .saveUserinfo =>
    if s.mark.isSome then (slice t p s).map (fun v => ⟨none, { s.uri with userinfo := v }⟩)
    else some s
  | .saveHost =>
    if s.mark.isSome then (slice t p s).map (fun v => { s with uri := { s.uri with host := v } })
    else some s
  | .savePath => (slice t p s).map (fun v => ⟨none, { s.uri with path := v }⟩)
  | .saveQuery => (slice t p s).map (fun v => ⟨none, { s.uri with query := v }⟩)
  | .saveFragment => (slice t p s).map (fun v => ⟨none, { s.uri with fragment := v }⟩)

def execAll (t : Text) (p : Nat) (as : List Action) (s : Scan) : Option Scan :=
  as.foldlM (fun s a => a.exec t p s) s

/-- The generated loop over what is left of the text (uri.cc:893-1075). -/
def scan (t : Text) : Text → Nat → Ways → Scan → Option (Option Uri)
  | [], p, S, s => (execAll t p (Ways.executed actions S.leaving) s).map (fun s =>
      if S.isFinal then some s.uri else none)
  | c :: rest, p, S, s => (execAll t p (Ways.executed actions (S.fired c)) s).bind (fun s =>
      if (S.advance c).isEmpty then some none else scan t rest (p + 1) (S.advance c) s)

/-- `Uri::Create`. The inner `none` is the null pointer, the outer one an exception. -/
def create (t : Text) : Option (Option Uri) := scan t t 0 [[Grammar.uriReference]] {}

def isDefaultPort (u : Uri) : Bool :=
  if u.port = 0 then true
  else if u.scheme = text "http" ∨ u.scheme = text "ws" then u.port = 80
  else if u.scheme = text "https" ∨ u.scheme = text "wss" then u.port = 443
  else false

def getPath (u : Uri) : Text := if u.path = [] then text "/" else u.path

def getPort (u : Uri) : Int :=
  if u.port ≠ 0 then u.port
  else if u.scheme = text "http" ∨ u.scheme = text "ws" then 80
  else if u.scheme = text "https" ∨ u.scheme = text "wss" then 443
  else u.port

def toString (u : Uri) : Text :=
  u.scheme ++ text "://" ++ u.userinfo ++ (if u.userinfo = [] then [] else text "@") ++ u.host ++
    (if u.isDefaultPort then [] else text ":" ++ Text.decimal u.port) ++ u.getPath ++
    (if u.query = [] then [] else text "?") ++ u.query ++
    (if u.fragment = [] then [] else text "#") ++ u.fragment

end Uri
end HxSylar
