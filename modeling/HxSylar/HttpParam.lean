import HxSylar.Http
import HxSylar.Lib.Machine

namespace HxSylar
open Lib

def isxdigit (b : UInt8) : Bool :=
  isDigit b || (65 ≤ b && b ≤ 70) || (97 ≤ b && b ≤ 102)

/-- `StringUtil::UrlDecode` with `space_as_plus` (util.cc:594-625). That the copy `ss` is made at
the first change only does not show in what is returned. -/
def urlDecode : Text → Text
  | c :: x :: y :: t =>
    if c = byte '+' then byte ' ' :: urlDecode (x :: y :: t)
    else if c = byte '%' ∧ isxdigit x ∧ isxdigit y then
      UInt8.ofNat (16 * digitValue x + digitValue y) :: urlDecode t
    else c :: urlDecode (x :: y :: t)
  | c :: t => (if c = byte '+' then byte ' ' else c) :: urlDecode t
  | [] => []

/-- `StringUtil::Trim` with the default delimiters (util.cc:627-635). -/
def trim (str : Text) : Text :=
  let blank := fun b : UInt8 => (text " \t\r\n").contains b
  ((str.dropWhile blank).reverse.dropWhile blank).reverse

def findByte (str : Text) (c : UInt8) (pos : Nat) : Option Nat :=
  ((str.drop pos).idxOf? c).map (pos + ·)

section ParseParam
variable {μ : Type*} (insert : μ → Text → Text → μ) (str : Text) (flag : UInt8) (trim : Text → Text)

/-- The loop of `PARSE_PARAM` (http.cc:147-166) from `pos` on, for any `(m).insert`. The fuel
bounds the number of turns; `pos` grows in each. -/
def parseParamLoop : Nat → Nat → μ → μ
  | 0, _, m => m
  | fuel + 1, last, m =>
    match findByte str (byte '=') last with
    | none => m
    | some key =>
      match findByte str flag key with
      | none => insert m (trim (str.substr last (key - last))) (urlDecode (str.drop (key + 1)))
      | some pos =>
        parseParamLoop fuel (pos + 1)
          (insert m (trim (str.substr last (key - last)))
            (urlDecode (str.substr (key + 1) (pos - key - 1))))

def parseParam (m : μ) : μ := parseParamLoop insert str flag trim (str.length + 1) 0 m

end ParseParam

def Headers.insert (m : Headers) (key val : Text) : Headers :=
  OrderedMap.insert caseInsensitiveLess m key val

def strcasestr (haystack needle : Text) : Bool :=
  haystack.cstr.tails.any fun t => (needle.map toLower).isPrefixOf (t.map toLower)

/-- `HttpRequest` with its parameters and cookies, as its constructor leaves them (http.cc:60-66). -/
structure ParamRequest extends HttpRequest where
  parserParamFlag : UInt8 := 0
  params : Headers := []
  cookies : Headers := []
  deriving DecidableEq, Repr

namespace ParamRequest

/-- `initQueryParam` (http.cc:146-168). The flag 0x1 is set and never looked at. -/
def initQueryParam (r : ParamRequest) : ParamRequest :=
  { r with
    params := parseParam Headers.insert r.query (byte '&') id r.params
    parserParamFlag := r.parserParamFlag ||| 0x1 }

def isForm (r : ParamRequest) : Bool :=
  strcasestr (r.getHeader (text "content-type")) (text "application/x-www-form-urlencoded")

def initBodyParam (r : ParamRequest) : ParamRequest :=
  if r.parserParamFlag &&& 0x2 ≠ 0 then r
  else if !r.isForm then { r with parserParamFlag := r.parserParamFlag ||| 0x2 }
  else
    { r with
      params := parseParam Headers.insert r.body (byte '&') id r.params
      parserParamFlag := r.parserParamFlag ||| 0x2 }

def initCookies (r : ParamRequest) : ParamRequest :=
  if r.parserParamFlag &&& 0x4 ≠ 0 then r
  else if r.getHeader (text "cookie") = [] then
    { r with parserParamFlag := r.parserParamFlag ||| 0x4 }
  else
    { r with
      cookies := parseParam Headers.insert (r.getHeader (text "cookie")) (byte ';') trim r.cookies
      parserParamFlag := r.parserParamFlag ||| 0x4 }

def getParam (r : ParamRequest) (key dflt : Text) : Text × ParamRequest :=
  let r := r.initQueryParam.initBodyParam
  (r.params.get key dflt, r)

/-- `hasParam` (http.cc:116-127): what it returns, and `*val` where it is set. -/
def hasParam (r : ParamRequest) (key : Text) : Option Text × ParamRequest :=
  let r := r.initQueryParam.initBodyParam
  (r.params.find caseInsensitiveLess key, r)

def getCookie (r : ParamRequest) (key dflt : Text) : Text × ParamRequest :=
  let r := r.initCookies
  (r.cookies.get key dflt, r)

def hasCookie (r : ParamRequest) (key : Text) : Option Text × ParamRequest :=
  let r := r.initCookies
  (r.cookies.find caseInsensitiveLess key, r)

def setParam (r : ParamRequest) (key val : Text) : ParamRequest :=
  { r with params := r.params.assign caseInsensitiveLess key val }

def setCookie (r : ParamRequest) (key val : Text) : ParamRequest :=
  { r with cookies := r.cookies.assign caseInsensitiveLess key val }

def delParam (r : ParamRequest) (key : Text) : ParamRequest :=
  { r with params := r.params.erase caseInsensitiveLess key }

def delCookie (r : ParamRequest) (key : Text) : ParamRequest :=
  { r with cookies := r.cookies.erase caseInsensitiveLess key }

inductive Call
  | getParam (key dflt : Text)
  | hasParam (key : Text)
  | setParam (key val : Text)
  | delParam (key : Text)
  | getCookie (key dflt : Text)
  | hasCookie (key : Text)
  | setCookie (key val : Text)
  | delCookie (key : Text)

def call (r : ParamRequest) : Call → ParamRequest
  | .getParam key dflt => (r.getParam key dflt).2
  | .hasParam key => (r.hasParam key).2
  | .setParam key val => r.setParam key val
  | .delParam key => r.delParam key
  | .getCookie key dflt => (r.getCookie key dflt).2
  | .hasCookie key => (r.hasCookie key).2
  | .setCookie key val => r.setCookie key val
  | .delCookie key => r.delCookie key

/-- A request with any query, body and headers whose parameters nobody has asked for yet. -/
def machine : Machine ParamRequest Call where
  init r := ∃ q : HttpRequest, r = { q with }
  step r c := some (r.call c)

end ParamRequest
end HxSylar
