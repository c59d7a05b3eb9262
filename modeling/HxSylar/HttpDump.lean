import HxSylar.Http
import HxSylar.Lib.Decimal
import HxSylar.Lib.Lines
import Mathlib.Algebra.Ring.Int.Defs

namespace HxSylar
open Lib

/-- `HTTP_STATUS_MAP` (http.h:63-124) with the texts as `#msg` writes them. -/
def httpStatusStrings : List (Int × String) :=
  [(100, "Continue"), (101, "Switching Protocols"), (102, "Processing"), (200, "OK"),
    (201, "Created"), (202, "Accepted"), (203, "Non - Authoritative Information"),
    (204, "No Content"), (205, "Reset Content"), (206, "Partial Content"),
    (207, "Multi - Status"), (208, "Already Reported"), (226, "IM Used"),
    (300, "Multiple Choices"), (301, "Moved Permanently"), (302, "Found"), (303, "See Other"),
    (304, "Not Modified"), (305, "Use Proxy"), (307, "Temporary Redirect"),
    (308, "Permanent Redirect"), (400, "Bad Request"), (401, "Unauthorized"),
    (402, "Payment Required"), (403, "Forbidden"), (404, "Not Found"),
    (405, "Method Not Allowed"), (406, "Not Acceptable"), (407, "Proxy Authentication Required"),
    (408, "Request Timeout"), (409, "Conflict"), (410, "Gone"), (411, "Length Required"),
    (412, "Precondition Failed"), (413, "Payload Too Large"), (414, "URI Too Long"),
    (415, "Unsupported Media Type"), (416, "Range Not Satisfiable"), (417, "Expectation Failed"),
    (421, "Misdirected Request"), (422, "Unprocessable Entity"), (423, "Locked"),
    (424, "Failed Dependency"), (426, "Upgrade Required"), (428, "Precondition Required"),
    (429, "Too Many Requests"), (431, "Request Header Fields Too Large"),
    (451, "Unavailable For Legal Reasons"), (500, "Internal Server Error"),
    (501, "Not Implemented"), (502, "Bad Gateway"), (503, "Service Unavailable"),
    (504, "Gateway Timeout"), (505, "HTTP Version Not Supported"),
    (506, "Variant Also Negotiates"), (507, "Insufficient Storage"), (508, "Loop Detected"),
    (510, "Not Extended"), (511, "Network Authentication Required")]

def httpStatusToString (s : Int) : Text :=
  text ((httpStatusStrings.lookup s).getD "<unknown>")

def HttpMethod.toText : HttpMethod → Text
  | .method num => httpMethodToString num
  | .invalidMethod => text "<unknow>"

def versionText (version : UInt8) : Text :=
  text "HTTP/" ++ Text.ofNat (version >>> 4).toNat ++ text "." ++
    Text.ofNat (version &&& 0x0f).toNat

def isConnection (key : Text) : Bool := key.cstr.map toLower == text "connection"

def headerLine (h : Text × Text) : Text := h.1 ++ text ": " ++ h.2

def dumpHeaders (headers : Headers) (websocket : Bool) : Text :=
  headers.flatMap fun h =>
    if !websocket && isConnection h.1 then [] else headerLine h ++ crlf

def connectionLine (close : Bool) : Text :=
  text "connection: " ++ text (if close then "close" else "keep-alive")

def dumpConnection (close websocket : Bool) : Text :=
  if websocket then [] else connectionLine close ++ crlf

def contentLengthLine (body : Text) : Text := text "content-length: " ++ Text.ofNat body.length

def dumpBody (body : Text) : Text :=
  if body = [] then crlf else contentLengthLine body ++ crlf ++ crlf ++ body

def HttpRequest.startLine (r : HttpRequest) : Text :=
  r.method.toText ++ text " " ++ r.path ++ (if r.query = [] then [] else text "?") ++ r.query ++
    (if r.fragment = [] then [] else text "#") ++ r.fragment ++ text " " ++ versionText r.version

def HttpRequest.dump (r : HttpRequest) (websocket : Bool) : Text :=
  r.startLine ++ crlf ++ dumpConnection r.close websocket ++ dumpHeaders r.headers websocket ++
    dumpBody r.body

/-- The start line of a response. The status is written as `uint32_t`. -/
def HttpResponse.startLine (r : HttpResponse) : Text :=
  versionText r.version ++ text " " ++ Text.ofNat (r.status % 2 ^ 32).toNat ++ text " " ++
    (if r.reason = [] then httpStatusToString r.status else r.reason)

def HttpResponse.dump (r : HttpResponse) (cookies : List Text) (websocket : Bool) : Text :=
  r.startLine ++ crlf ++ dumpHeaders r.headers websocket ++
    cookies.flatMap (fun c => text "Set-Cookie: " ++ c ++ crlf) ++
    dumpConnection r.close websocket ++ dumpBody r.body

end HxSylar
