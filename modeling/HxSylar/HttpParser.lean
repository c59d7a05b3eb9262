import HxSylar.Http
import HxSylar.Lib.Scanner

namespace HxSylar
open Lib

/-- The actions of http11_parser.rl:53-116. -/
inductive RequestAct
  | mark | startField | writeField | writeValue | requestMethod | requestUri | fragment
  | startQuery | queryString | httpVersion | requestPath | xml | json | done
  deriving DecidableEq, Repr

/-- The generated machine of http11_parser.cc. -/
abbrev RequestTable := Table RequestAct

def RequestAct.stops : RequestAct → Bool
  | .done => true
  | _ => false

structure HttpRequestParser where
  cs : Nat := 1
  mark : Nat := 0
  fieldStart : Nat := 0
  fieldLen : Nat := 0
  queryStart : Nat := 0
  data : HttpRequest := {}
  error : Int := 0
  deriving DecidableEq, Repr

namespace HttpRequestParser

def onRequestMethod (p : HttpRequestParser) (at_ : Text) : HttpRequestParser :=
  match charsToHttpMethod at_ with
  | .invalidMethod => { p with error := 1000 }
  | m => { p with data := { p.data with method := m } }

def onRequestUri (p : HttpRequestParser) (_value : Text) : HttpRequestParser := p

def onRequestFragment (p : HttpRequestParser) (value : Text) : HttpRequestParser :=
  { p with data := { p.data with fragment := value } }

def onRequestPath (p : HttpRequestParser) (value : Text) : HttpRequestParser :=
  { p with data := { p.data with path := value } }

def onRequestQuery (p : HttpRequestParser) (value : Text) : HttpRequestParser :=
  { p with data := { p.data with query := value } }

def onRequestVersion (p : HttpRequestParser) (_value : Text) : HttpRequestParser := p

def onRequestHeaderDone (p : HttpRequestParser) (_value : Text) : HttpRequestParser := p

def onRequestHttpField (p : HttpRequestParser) (_field _value : Text) : HttpRequestParser := p

def act (buffer : Text) (pos : Nat) (a : RequestAct) (p : HttpRequestParser) : HttpRequestParser :=
  let marked := buffer.substr p.mark (pos - p.mark)
  match a with
  | .mark => { p with mark := pos }
  | .startField => { p with fieldStart := pos }
  | .writeField => { p with fieldLen := pos - p.fieldStart }
  | .writeValue => p.onRequestHttpField (buffer.substr p.fieldStart p.fieldLen) marked
  | .requestMethod => p.onRequestMethod (buffer.drop p.mark)
  | .requestUri => p.onRequestUri marked
  | .fragment => p.onRequestFragment marked
  | .startQuery => { p with queryStart := pos }
  | .queryString => p.onRequestQuery (buffer.substr p.queryStart (pos - p.queryStart))
  | .httpVersion => p.onRequestVersion marked
  | .requestPath => p.onRequestPath marked
  | .xml | .json => p
  | .done => p.onRequestHeaderDone (buffer.drop (pos + 1))

/-- `http_parser_execute` under `HttpRequestParser::execute` (http11_parser.cc:87-108, 7106-7125,
http_parser.cc:133-137), with the number of bytes taken. -/
def execute (T : RequestTable) (p : HttpRequestParser) (data : Text) : HttpRequestParser × Nat :=
  if data = [] then (p, 0)
  else
    let r := T.run RequestAct.stops (act data) p.cs 0 data
      { p with mark := 0, fieldLen := 0, fieldStart := 0 }
    ({ r.out with cs := if p.cs = 0 then 0 else r.cs }, r.n)

/-- `http_parser_finish`, tested where there is no error. -/
def isFinished (p : HttpRequestParser) : Bool := 348 ≤ p.cs

def hasError (p : HttpRequestParser) : Bool := p.error != 0 || p.cs == 0

def getContentLength (p : HttpRequestParser) : Nat :=
  p.data.headers.getAsU64 (text "content-length") 0

end HttpRequestParser

/-- The actions of httpclient_parse.rl:54-124. -/
inductive ResponseAct
  | mark | startField | writeField | writeContentLen | writeConnectionClose | writeValue
  | reasonPhrase | statusCode | httpVersion | chunkSize | transChunked | done
  deriving DecidableEq, Repr

/-- The generated machine of httpclient_parser.cc. -/
abbrev ResponseTable := Table ResponseAct

def ResponseAct.stops : ResponseAct → Bool
  | .done => true
  | _ => false

structure HttpResponseParser where
  cs : Nat := 1
  contentLen : Int := -1
  chunked : Bool := false
  chunksDone : Bool := false
  closes : Bool := false
  mark : Nat := 0
  fieldStart : Nat := 0
  fieldLen : Nat := 0
  data : HttpResponse := {}
  error : Int := 0
  deriving DecidableEq, Repr

namespace HttpResponseParser

def init (p : HttpResponseParser) : HttpResponseParser :=
  { p with cs := 1, contentLen := -1, chunked := false, chunksDone := false, closes := false,
           mark := 0, fieldStart := 0, fieldLen := 0 }

def onResponseReason (p : HttpResponseParser) (value : Text) : HttpResponseParser :=
  { p with data := { p.data with reason := value } }

/-- `on_response_status` (http_parser.cc:150-154) reads as far as there are digits. -/
def onResponseStatus (p : HttpResponseParser) (at_ : Text) : HttpResponseParser :=
  { p with data := { p.data with status := at_.atoi } }

def onResponseChunk (p : HttpResponseParser) (_value : Text) : HttpResponseParser := p

def onResponseVersion (p : HttpResponseParser) (value : Text) : HttpResponseParser :=
  if value.agree (text "HTTP/1.1") value.length then
    { p with data := { p.data with version := 0x11 } }
  else if value.agree (text "HTTP/1.0") value.length then
    { p with data := { p.data with version := 0x10 } }
  else { p with error := 1001 }

def onResponseHeaderDone (p : HttpResponseParser) (_value : Text) : HttpResponseParser := p

def onResponseLastChunk (p : HttpResponseParser) (_value : Text) : HttpResponseParser := p

def onResponseHttpField (p : HttpResponseParser) (field value : Text) : HttpResponseParser :=
  if field.length = 0 then p else { p with data := p.data.setHeader field value }

/-- The actions on the buffer at the byte `pos`. What is read without a length ends at the buffer's
end, behind which the machine wants a null byte. -/
def act (buffer : Text) (pos : Nat) (a : ResponseAct) (p : HttpResponseParser) :
    HttpResponseParser :=
  let marked := buffer.substr p.mark (pos - p.mark)
  match a with
  | .mark => { p with mark := pos }
  | .startField => { p with fieldStart := pos }
  | .writeField => { p with fieldLen := pos - p.fieldStart }
  | .writeContentLen => { p with contentLen := Text.toInt32 (Text.strtol 10 (buffer.drop p.mark)) }
  | .writeConnectionClose => { p with closes := true }
  | .writeValue => p.onResponseHttpField (buffer.substr p.fieldStart p.fieldLen) marked
  | .reasonPhrase => p.onResponseReason marked
  | .statusCode => p.onResponseStatus (buffer.drop p.mark)
  | .httpVersion => p.onResponseVersion marked
  | .chunkSize =>
    let len := Text.toInt32 (Text.strtol 16 (buffer.drop p.mark))
    let p := { p with chunked := true, contentLen := len, chunksDone := decide (len ≤ 0) }
    if p.chunksDone then p.onResponseLastChunk marked else p.onResponseChunk marked
  | .transChunked => { p with chunked := true }
  | .done => p.onResponseHeaderDone (buffer.drop (pos + 1))

/-- `HttpResponseParser::execute` (http_parser.cc:202-210), with the number of bytes taken. -/
def execute (T : ResponseTable) (p : HttpResponseParser) (data : Text) (chunk : Bool) :
    HttpResponseParser × Nat :=
  let p := if chunk then p.init else p
  let r := T.run ResponseAct.stops (act data) p.cs 0 data
    { p with mark := 0, fieldLen := 0, fieldStart := 0 }
  ({ r.out with cs := r.cs }, r.n)

def isFinished (p : HttpResponseParser) : Bool := p.cs == 120

def hasError (p : HttpResponseParser) : Bool := p.error != 0 || p.cs == 0

def getContentLength (p : HttpResponseParser) : Nat :=
  p.data.headers.getAsU64 (text "content-length") 0

end HttpResponseParser
end HxSylar
