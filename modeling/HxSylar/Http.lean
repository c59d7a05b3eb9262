import HxSylar.Lib.OrderedMap
import HxSylar.Lib.Text

namespace HxSylar
open Lib

/-- The methods of `HTTP_METHOD_MAP` (http.h:18-60) by their numbers, and `INVALID_METHOD`. -/
inductive HttpMethod
  | method (num : Fin 34)
  | invalidMethod
  deriving DecidableEq, Repr

def httpMethodStrings : List String :=
  ["DELETE", "GET", "HEAD", "POST", "PUT", "CONNECT", "OPTIONS", "TRACE", "COPY", "LOCK", "MKCOL",
    "MOVE", "PROPFIND", "PROPPATCH", "SEARCH", "UNLOCK", "BIND", "REBIND", "UNBIND", "ACL",
    "REPORT", "MKACTIVITY", "CHECKOUT", "MERGE", "M - SEARCH", "NOTIFY", "SUBSCRIBE",
    "UNSUBSCRIBE", "PATCH", "PURGE", "MKCALENDAR", "LINK", "UNLINK", "SOURCE"]

def httpMethodToString (num : Fin 34) : Text := text (httpMethodStrings.getD num "")

def HttpMethod.get : HttpMethod := .method 1

/-- `StringToMethod` (http.cc:11-19). The line that should expand the map ends the macro's own
definition, so the function has no comparison in it. -/
def stringToMethod (_m : Text) : HttpMethod := .invalidMethod

/-- `CharsToHttpMethod` (http.cc:20-28), where the macro swallows the map as well. -/
def charsToHttpMethod (_m : Text) : HttpMethod := .invalidMethod

def caseInsensitiveLess (lhs rhs : Text) : Bool :=
  decide (lhs.cstr.map toLower < rhs.cstr.map toLower)

abbrev Headers := OrderedMap Text Text

def Headers.get (m : Headers) (key : Text) (dflt : Text) : Text :=
  (m.find caseInsensitiveLess key).getD dflt

def lexicalCastU64 (t : Text) : Option Nat :=
  let (negative, digits) := t.sign
  if digits = [] ∨ !digits.all isDigit then none
  else
    let n := Text.number 10 0 digits
    if 18446744073709551616 ≤ n then none
    else some (if negative then (18446744073709551616 - n) % 18446744073709551616 else n)

def Headers.getAsU64 (m : Headers) (key : Text) (dflt : Nat) : Nat :=
  ((m.find caseInsensitiveLess key).bind lexicalCastU64).getD dflt

structure HttpRequest where
  method : HttpMethod := .get
  version : UInt8 := 0x11
  close : Bool := true
  path : Text := text "/"
  query : Text := []
  fragment : Text := []
  body : Text := []
  headers : Headers := []
  deriving DecidableEq, Repr

structure HttpResponse where
  status : Int := 200
  version : UInt8 := 0x11
  close : Bool := true
  body : Text := []
  reason : Text := []
  headers : Headers := []
  deriving DecidableEq, Repr

def HttpRequest.getHeader (r : HttpRequest) (key : Text) : Text := r.headers.get key []

def HttpResponse.getHeader (r : HttpResponse) (key : Text) : Text := r.headers.get key []

def HttpRequest.setHeader (r : HttpRequest) (key val : Text) : HttpRequest :=
  { r with headers := r.headers.assign caseInsensitiveLess key val }

def HttpResponse.setHeader (r : HttpResponse) (key val : Text) : HttpResponse :=
  { r with headers := r.headers.assign caseInsensitiveLess key val }

end HxSylar
