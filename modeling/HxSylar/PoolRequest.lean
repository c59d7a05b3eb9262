import HxSylar.HttpBuffer
import HxSylar.HttpConnectionPool
import HxSylar.HttpDump
import HxSylar.Socket
import HxSylar.Stream

namespace HxSylar
open Lib

inductive HttpResult.Error
  | ok | invalidUrl | invalidHost | connectFail | sendCloseByPeer | sendSocketError | timeout
  | createSocketError | poolGetConnection | poolInvalidConnection
  deriving DecidableEq, Repr

structure HttpResult where
  result : HttpResult.Error
  response : Option HttpResponse
  error : Text
  deriving DecidableEq, Repr

structure PoolHost where
  host : Text
  vhost : Text
  port : Nat

namespace PoolHost

/-- One turn of the loop over the headers (http_connection.cc:253-266), with `has_host`. -/
def addHeader (s : HttpRequest × Bool) (h : Text × Text) : HttpRequest × Bool :=
  if isConnection h.1 then
    if h.2.cstr.map toLower = text "keep-alive" then ({ s.1 with close := false }, s.2) else s
  else
    let hasHost := if !s.2 && h.1.cstr.map toLower == text "host" then h.2 != [] else s.2
    (s.1.setHeader h.1 h.2, hasHost)

/-- The request that `doRequest` makes (http_connection.cc:244-276), in the order of the map. -/
def makeRequest (pool : PoolHost) (method : HttpMethod) (url : Text) (headers : List (Text × Text))
    (body : Text) : HttpRequest :=
  let req : HttpRequest := { path := url, method := method, close := false }
  let (req, hasHost) := headers.foldl addHeader (req, false)
  let req :=
    if hasHost then req
    else req.setHeader (text "Host") (if pool.vhost = [] then pool.host else pool.vhost)
  { req with body := body }

def errorText (pool : PoolHost) : Text :=
  text "pool host:" ++ pool.host ++ text " port:" ++ Text.ofNat pool.port

end PoolHost

/-- A call of `doRequest`. Only `dump` reads `m_websocket`. -/
structure PoolRequest where
  request : HttpRequest
  websocket : Bool
  timeoutMs : Nat

def PoolRequest.data (req : PoolRequest) : Text := req.request.dump req.websocket

structure PooledConnection extends HttpConnection where
  socket : Option Socket

/-- A write: the bytes still to be written, those that `send` took, and how often it was called. -/
structure Outgoing where
  data : Text
  wire : Text := []
  calls : Nat := 0

namespace PooledConnection

def isConnected (conn : PooledConnection) : Bool := conn.socket.any Socket.isConnected

/-- `SocketStream::write(buffer, length)` with `Socket::send` (socket_stream.cc:32-37,
socket.cc:217-222), which makes the same test again. -/
def write (conn : PooledConnection) (send : Nat → (offered : Nat) → { rt : Int // rt ≤ offered })
    (length : Nat) : EStateM Failure Outgoing Int := fun s =>
  if !conn.isConnected then .ok (-1) s
  else
    let rt := (send s.calls length).1
    .ok rt ⟨s.data.drop rt.toNat, s.wire ++ s.data.take rt.toNat, s.calls + 1⟩

end PooledConnection

/-- What the system answers to a request on a connection: what each `send` returns, what arrives for
the bytes that it took, the memory of `recvResponse`, and the texts that errors have. -/
structure PoolPeer (size : Nat) where
  send : Nat → (offered : Nat) → { rt : Int // rt ≤ offered }
  answers : Text → Source
  memory : HttpBuffer.Buffer size
  remote : Text
  errno : Text
  errstr : Text

namespace PoolHost
variable {size : Nat}

/-- What `doRequest` makes of what `sendRequest` returned (http_connection.cc:305-323). `none` is an
exception of `recvResponse`, or the end of the program in it. -/
def answered (T : ResponseTable) (peer : PoolPeer size) (timeoutMs : Nat) (rt : Int) (wire : Text) :
    Option HttpResult :=
  if rt = 0 then
    some ⟨.sendCloseByPeer, none, text "send request closed by peer: " ++ peer.remote⟩
  else if rt < 0 then
    some ⟨.sendSocketError, none,
      text "send request socket error errno=" ++ peer.errno ++ text " errstr=" ++ peer.errstr⟩
  else
    match (HttpBuffer.recvResponse T peer.memory (peer.answers wire)).2 with
    | .ok (.null, _) =>
      some ⟨.timeout, none, text "recv response timeout: " ++ peer.remote ++
        text " timeout_ms:" ++ Text.ofNat timeoutMs⟩
    | .ok (.message rsp, _) => some ⟨.ok, some rsp, text "ok"⟩
    | _ => none

/-- `doRequest` behind `getConnection` (http_connection.cc:295-324), with the bytes that were taken.
The timeout matters to nothing here. A request that no string holds is an exception. -/
def doRequest (pool : PoolHost) (T : ResponseTable) (peer : PoolPeer size) (conn : PooledConnection)
    (req : PoolRequest) : Option HttpResult × Text :=
  if conn.socket.isNone then (some ⟨.poolInvalidConnection, none, pool.errorText⟩, [])
  else
    if maxSize < req.data.length then (none, [])
    else
      match Stream.fixSize (conn.write peer.send) req.data.length { data := req.data } with
      | .error _ s => (none, s.wire)
      | .ok rt s => (answered T peer req.timeoutMs rt s.wire, s.wire)

end PoolHost

/-- `HttpConnectionPool` with its idle connections. What it counts is left out. -/
structure ClientPool extends PoolHost where
  maxAliveTime : UInt32
  maxRequest : UInt32
  conns : List PooledConnection := []

/-- What the system answers to `getConnection`, besides the time. -/
structure Connecting where
  now : Nat
  addr : Option Address
  socket : Int
  rt : Int

namespace ClientPool

def invalid (pool : ClientPool) (now : Nat) (conn : PooledConnection) : Bool :=
  !conn.isConnected ||
    decide (HttpConnectionPool.addU64 conn.createTime pool.maxAliveTime.toNat > now)

/-- `HttpConnectionPool::getConnection` (http_connection.cc:139-188). `SSLSocket::CreateTCP` is the
function of `Socket`, so that a pool for https makes no other socket. -/
def getConnection (pool : ClientPool) (w : Connecting) : Option PooledConnection × ClientPool :=
  let (_, ptr, rest) := HttpConnectionPool.scan (pool.invalid w.now) pool.conns
  let pool := { pool with conns := rest }
  match ptr, w.addr with
  | some conn, _ => (some conn, pool)
  | none, none => (none, pool)
  | none, some addr =>
    let sock : Socket := { family := addr.family, type := Socket.tcp }
    let o := sock.connect addr Socket.noTimeout w.socket w.rt
    if o.returned then (some { socket := some o.socket }, pool) else (none, pool)

def releasePtr (pool : ClientPool) (now : Nat) (conn : PooledConnection) : ClientPool :=
  let conn := { conn with request := conn.request + 1 }
  if !conn.isConnected ||
      decide (HttpConnectionPool.addU64 conn.createTime pool.maxAliveTime.toNat ≥ now) ||
      decide (conn.request ≥ pool.maxRequest.toNat) then pool
  else { pool with conns := pool.conns ++ [conn] }

end ClientPool

/-- A pool among any number of threads that make requests: those that have their connection, what
`doRequest` returned for those that have ended, and the bytes that were sent. -/
structure PoolClients where
  pool : ClientPool
  busy : List (PooledConnection × PoolRequest) := []
  results : List (PoolRequest × Option HttpResult) := []
  wire : Text := []

namespace PoolClients

inductive Act (size : Nat)
  /-- A thread calls `doRequest`, up to where `getConnection` returns. -/
  | doRequest (req : PoolRequest) (w : Connecting)
  /-- The rest of a call that has a connection, with its release. -/
  | finish (call : Nat) (peer : PoolPeer size) (now : Nat)

variable {size : Nat}

def step (T : ResponseTable) (s : PoolClients) : Act size → Option PoolClients
  | .doRequest req w =>
    let (conn, pool) := s.pool.getConnection w
    match conn with
    | none =>
      let result : HttpResult := ⟨.poolGetConnection, none, pool.errorText⟩
      some { s with pool := pool, results := (req, some result) :: s.results }
    | some conn => some { s with pool := pool, busy := s.busy ++ [(conn, req)] }
  | .finish call peer now =>
    (s.busy[call]?).map (fun (conn, req) =>
      let (result, wire) := s.pool.doRequest T peer conn req
      { pool := s.pool.releasePtr now conn
        busy := s.busy.eraseIdx call
        results := (req, result) :: s.results
        wire := s.wire ++ wire })

def machine (T : ResponseTable) (size : Nat) : Machine PoolClients (Act size) where
  init s := ∃ host maxAliveTime maxRequest,
    s = { pool := { toPoolHost := host, maxAliveTime := maxAliveTime, maxRequest := maxRequest } }
  step := step T

end PoolClients
end HxSylar
