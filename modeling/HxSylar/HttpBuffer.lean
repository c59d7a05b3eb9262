import HxSylar.HttpStream

namespace HxSylar.HttpBuffer
open Lib

abbrev Buffer (size : Nat) := { bytes : Text // bytes.length = size }

namespace Buffer
variable {size : Nat}

def store (m : Buffer size) (offset : Nat) (r : Text) : Buffer size :=
  ⟨overwrite m.1 offset r, by
    simp only [overwrite, List.length_append, List.length_take, List.length_drop, m.2]
    omega⟩

def filled (size : Nat) (b : UInt8) : Buffer size := ⟨List.replicate size b, List.length_replicate⟩

def memmove (m : Buffer size) (start len : Nat) : Buffer size := m.store 0 (m.1.substr start len)

end Buffer

structure ClientParser extends HttpResponseParser where
  bodyStart : Nat := 0

namespace ClientParser

def init (p : ClientParser) : ClientParser :=
  { toHttpResponseParser := p.toHttpResponseParser.init, bodyStart := 0 }

/-- The actions of the machine; `done` sets `body_start` as well. -/
def act (buffer : Text) (pos : Nat) (a : ResponseAct) (p : ClientParser) : ClientParser :=
  { toHttpResponseParser := p.toHttpResponseParser.act buffer pos a,
    bodyStart := if ResponseAct.stops a then pos + 1 else p.bodyStart }

/-- `httpclient_parser_execute` (httpclient_parser.cc:95-3802) up to the assertions at its exit,
with `nread`. `body_start` is left from the call before. -/
def execute (T : ResponseTable) (p : ClientParser) (data : Text) : ClientParser × Nat :=
  let r := T.run ResponseAct.stops (act data) p.cs 0 data
    { p with mark := 0, fieldLen := 0, fieldStart := 0 }
  ({ r.out with cs := r.cs }, r.n)

end ClientParser

/-- What ends the program in a call of the parser: a failed assertion, which the repository's build
compiles, or an access behind the buffer, of which nothing is known. -/
inductive Abort
  | assertion
  | outside
  deriving DecidableEq, Repr

/-- A call of `httpclient_parser_execute` by `recvResponse`: the parser that it finds, and the
buffer and `offset` before the read that brought the bytes `received`. -/
structure ParserCall (size : Nat) where
  parser : ClientParser
  before : Buffer size
  offset : Nat
  received : Text

namespace ParserCall
variable {size : Nat} (T : ResponseTable) (c : ParserCall size)

def buffer : Buffer size := c.before.store c.offset c.received

def len : Nat := c.offset + c.received.length

def result : ClientParser × Nat := c.parser.execute T (c.buffer.1.take c.len)

/-- What the call returns (httpclient_parser.cc:3807-3819): `nread`, or -1 where a check fails. -/
def returned : Int :=
  let p := (c.result T).1
  if p.mark < c.len ∧ p.fieldLen ≤ c.len ∧ p.fieldStart < c.len then (c.result T).2 else -1

/-- How the call ends. `off` is zero and `pe - p` is `len`, so that of the assertions at its entry
(httpclient_parser.cc:105-111) the one on `*pe` is left. Behind -1 the `memmove` of
`HttpResponseParser::execute` (http_parser.cc:208) leaves the buffer. -/
def outcome : Except Abort (ClientParser × Nat) :=
  match c.buffer.1[c.len]? with
  | none => .error .outside
  | some pe =>
    let (p, nread) := c.result T
    if pe ≠ 0 then .error .assertion
    else if c.len < nread ∨ c.len < p.bodyStart then .error .assertion
    else if c.returned T = -1 then .error .outside
    else .ok (p, nread)

end ParserCall

inductive BufferEnd (size : Nat)
  | finished (parser : ClientParser) (mem : Buffer size) (len : Nat) (src : Source)
  | null (parser : ClientParser) (src : Source)
  | stuck

section Reading
variable {size : Nat} (T : ResponseTable)

/-- The loops of `recvResponse` that call the parser (http_connection.cc:21-39, 44-58), with
`HttpResponseParser::execute` (http_parser.cc:202-210). Of buffers of 2^31 bytes and more the
conversions to `int` are left out. -/
def recvHeader (chunk : Bool) : Nat → ClientParser → Buffer size → Nat → Source →
    List (ParserCall size) × Except Abort (BufferEnd size)
  | 0, _, _, _, _ => ([], .ok .stuck)
  | fuel + 1, p, mem, offset, src =>
    let (r, src) := src.read (size - offset)
    if r = [] then ([], .ok (.null p src))
    else
      let c : ParserCall size := ⟨if chunk then p.init else p, mem, offset, r⟩
      match c.outcome T with
      | .error a => ([c], .error a)
      | .ok (p, nread) =>
        let mem := c.buffer.memmove nread (c.len - nread)
        if p.hasError then ([c], .ok (.null p src))
        else
          let offset := c.len - nread
          if offset = size then ([c], .ok (.null p src))
          else if p.isFinished then ([c], .ok (.finished p mem offset src))
          else
            let (calls, e) := recvHeader chunk fuel p mem offset src
            (c :: calls, e)

/-- The loop that reads the rest of a chunk (http_connection.cc:68-75). -/
def recvRest : Nat → Nat → Text → Buffer size → Source → Buffer size × HttpConnection.RestEnd
  | 0, _, _, mem, _ => (mem, .stuck)
  | fuel + 1, left, body, mem, src =>
    if left = 0 then (mem, .data body src)
    else
      let (r, src) := src.read (min size left)
      if r = [] then (mem, .null src)
      else
        let mem := mem.store 0 r
        recvRest fuel (left - r.length) (body ++ mem.1.take r.length) mem src

/-- The chunked branch of `recvResponse` (http_connection.cc:41-79). -/
def recvChunks : Nat → ClientParser → Buffer size → Nat → Text → Source →
    List (ParserCall size) × Except Abort (Received HttpResponse × Source)
  | 0, _, _, _, _, src => ([], .ok (.stuck, src))
  | fuel + 1, p, mem, len, body, src =>
    let (calls, e) := recvHeader T true (src.size + 1) p mem len src
    match e with
    | .error a => (calls, .error a)
    | .ok (.null _ src) => (calls, .ok (.null, src))
    | .ok .stuck => (calls, .ok (.stuck, src))
    | .ok (.finished p mem len src) =>
      if p.contentLen ≤ len then
        if p.contentLen < 0 then (calls, .ok (.throws, src))
        else
          let n := p.contentLen.toNat
          let body := body ++ mem.1.take n
          let mem := mem.memmove n (len - n)
          if p.chunksDone then (calls, .ok (.message p.data, src))
          else
            let (more, r) := recvChunks fuel p mem (len - n) body src
            (calls ++ more, r)
      else
        match recvRest (src.size + 1) p.contentLen.toNat (body ++ mem.1.take len) mem src with
        | (_, .null src) => (calls, .ok (.null, src))
        | (_, .stuck) => (calls, .ok (.stuck, src))
        | (mem, .data body src) =>
          if p.chunksDone then (calls, .ok (.message p.data, src))
          else
            let (more, r) := recvChunks fuel p mem 0 body src
            (calls ++ more, r)

/-- `HttpConnection::recvResponse` (http_connection.cc:14-107): its calls of the parser, and what it
ends with. `garbage` is what the allocated memory holds, which nothing sets to zero. -/
def recvResponse (garbage : Buffer size) (src : Source) :
    List (ParserCall size) × Except Abort (Received HttpResponse × Source) :=
  let (calls, e) := recvHeader T false (src.size + 1) {} garbage 0 src
  match e with
  | .error a => (calls, .error a)
  | .ok (.null _ src) => (calls, .ok (.null, src))
  | .ok .stuck => (calls, .ok (.stuck, src))
  | .ok (.finished p mem len src) =>
    if p.chunked then
      let (more, r) := recvChunks T (src.size + 1) p mem len [] src
      (calls ++ more, r)
    else
      (calls, .ok (recvContent (fun r body => { r with body := body }) p.data p.getContentLength
        (mem.1.take len) src))

end Reading
end HxSylar.HttpBuffer
