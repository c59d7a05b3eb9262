import Mathlib.Algebra.Group.Nat.Defs
import HxSylar.HttpParser
import HxSylar.Lib.Source

namespace HxSylar
open Lib

structure HeaderParser (P : Type*) where
  execute : P → Text → P × Nat
  hasError : P → Bool
  isFinished : P → Bool

def HttpRequestParser.header (T : RequestTable) : HeaderParser HttpRequestParser where
  execute := execute T
  hasError := hasError
  isFinished := isFinished

def HttpResponseParser.header (T : ResponseTable) (chunk : Bool) :
    HeaderParser HttpResponseParser where
  execute p data := execute T p data chunk
  hasError := hasError
  isFinished := isFinished

/-- How a reading loop ends; `stuck` is the end of the fuel. -/
inductive HeaderEnd (P : Type*)
  | finished (parser : P) (data : Text) (src : Source)
  | null (parser : P) (src : Source)
  | stuck
  deriving DecidableEq, Repr

/-- The loop of `recvRequest` and of `recvResponse` up to the end of the header
(http_session.cc:19-37, http_connection.cc:21-39), and the loop that reads the size of a chunk
(http_connection.cc:44-58). `data` is the unconsumed part of the buffer. Of buffers of 2^31 bytes and
more the conversions of `len`, `offset` and the size to `int` are left out. -/
def recvHeader {P : Type*} (H : HeaderParser P) (bufferSize : Nat) :
    Nat → P → Text → Source → HeaderEnd P
  | 0, _, _, _ => .stuck
  | fuel + 1, p, data, src =>
    let (r, src) := src.read (bufferSize - data.length)
    if r = [] then .null p src
    else
      let data := data ++ r
      let (p, nparse) := H.execute p data
      if H.hasError p then .null p src
      else
        let data := data.drop nparse
        if data.length = bufferSize then .null p src
        else if H.isFinished p then .finished p data src
        else recvHeader H bufferSize fuel p data src

/-- What `recvRequest` and `recvResponse` end with: a message, a null pointer, an exception of
`std::string`, a write behind the memory of the body, or nothing when the fuel is used up. -/
inductive Received (M : Type*)
  | message (m : M)
  | null
  | throws
  | overflow
  | stuck
  deriving DecidableEq, Repr

def overwrite (body : Text) (pos : Nat) (r : Text) : Text :=
  body.take pos ++ r.take (body.length - pos) ++ body.drop (pos + r.length)

/-- The body that `Content-Length` announces (http_session.cc:38-59, http_connection.cc:81-104).
`reserve` makes room for it without changing the size of the string. -/
def recvContent {M : Type*} (setBody : M → Text → M) (m : M) (length : Nat) (data : Text)
    (src : Source) : Received M × Source :=
  if length = 0 then (.message m, src)
  else if maxSize < length then (.throws, src)
  else
    let body := if data.length ≤ length then [] else data.take length
    let len := if data.length ≤ length then data.length else 0
    let left := (length + 2 ^ 64 - data.length) % 2 ^ 64
    if 0 < left then
      let (r, src) := src.read left
      if r = [] then (.null, src)
      else if length < len + r.length then (.overflow, src)
      else (.message (setBody m (overwrite body len r)), src)
    else (.message (setBody m body), src)

def HttpSession.recvRequest (T : RequestTable) (bufferSize : Nat) (src : Source) :
    Received HttpRequest × Source :=
  match recvHeader (HttpRequestParser.header T) bufferSize (src.size + 1) {} [] src with
  | .finished p data src =>
    recvContent (fun r body => { r with body := body }) p.data p.getContentLength data src
  | .null _ src => (.null, src)
  | .stuck => (.stuck, src)

def HttpSession.recvRequests (T : RequestTable) (bufferSize : Nat) :
    Nat → Source → List (Received HttpRequest)
  | 0, _ => []
  | n + 1, src =>
    let (r, src) := recvRequest T bufferSize src
    r :: recvRequests T bufferSize n src

namespace HttpConnection

inductive RestEnd
  | data (body : Text) (src : Source)
  | null (src : Source)
  | stuck

/-- The loop that reads the rest of a chunk (http_connection.cc:68-75). -/
def recvRest (bufferSize : Nat) : Nat → Nat → Text → Source → RestEnd
  | 0, _, _, _ => .stuck
  | fuel + 1, left, body, src =>
    if left = 0 then .data body src
    else
      let (r, src) := src.read (min bufferSize left)
      if r = [] then .null src
      else recvRest bufferSize fuel (left - r.length) (body ++ r) src

/-- The chunked branch of `recvResponse` (http_connection.cc:41-79). `len` is zero before `left` is
computed, and nothing passes `body` on. -/
def recvChunks (T : ResponseTable) (bufferSize : Nat) :
    Nat → HttpResponseParser → Text → Text → Source → Received HttpResponse × Source
  | 0, _, _, _, src => (.stuck, src)
  | fuel + 1, p, data, body, src =>
    match recvHeader (HttpResponseParser.header T true) bufferSize (src.size + 1) p data src with
    | .null _ src => (.null, src)
    | .stuck => (.stuck, src)
    | .finished p data src =>
      if p.contentLen ≤ data.length then
        if p.contentLen < 0 then (.throws, src)
        else
          let body := body ++ data.take p.contentLen.toNat
          if p.chunksDone then (.message p.data, src)
          else recvChunks T bufferSize fuel p (data.drop p.contentLen.toNat) body src
      else
        match recvRest bufferSize (src.size + 1) p.contentLen.toNat (body ++ data) src with
        | .null src => (.null, src)
        | .stuck => (.stuck, src)
        | .data body src =>
          if p.chunksDone then (.message p.data, src)
          else recvChunks T bufferSize fuel p [] body src

def recvBody (T : ResponseTable) (bufferSize : Nat) (p : HttpResponseParser) (data : Text)
    (src : Source) : Received HttpResponse × Source :=
  if p.chunked then recvChunks T bufferSize (src.size + 1) p data [] src
  else recvContent (fun r body => { r with body := body }) p.data p.getContentLength data src

/-- `HttpConnection::recvResponse` (http_connection.cc:14-107) without its memory, as where the calls of
the parser go on behind a failed assertion. -/
def recvResponse (T : ResponseTable) (bufferSize : Nat) (src : Source) :
    Received HttpResponse × Source :=
  match recvHeader (HttpResponseParser.header T false) bufferSize (src.size + 1) {} [] src with
  | .finished p data src => recvBody T bufferSize p data src
  | .null _ src => (.null, src)
  | .stuck => (.stuck, src)

end HttpConnection
end HxSylar
