import HxSylar.FdManager

namespace HxSylar

structure Address where
  family : Int
  unixPath : Option String := none
  text : String := ""
  deriving DecidableEq, Repr

/-- `Socket` (socket.h:142-149). A closed or new socket has the descriptor -1. -/
structure Socket where
  sock : Int := -1
  family : Int
  type : Int
  protocol : Int := 0
  isConnected : Bool := false
  localAddress : Option Address := none
  remoteAddress : Option Address := none
  deriving DecidableEq, Repr

namespace Socket

def tcp : Int := 1

def unix : Int := 1

def isValid (s : Socket) : Bool := s.sock ≠ -1

/-- `newSock` with what `socket` returns. The options that `initSock` sets are not in the object. -/
def newSock (s : Socket) (socket : Int) : Socket := { s with sock := socket }

/-- How `bind` and `connect` begin (socket.cc:133-138, 163-168). -/
def openSock (s : Socket) (socket : Int) : Socket := if !s.isValid then s.newSock socket else s

def getLocalAddress (s : Socket) (sockname : Option Address) : Socket :=
  if s.localAddress.isSome then s else { s with localAddress := sockname }

def getRemoteAddress (s : Socket) (peername : Option Address) : Socket :=
  if s.remoteAddress.isSome then s else { s with remoteAddress := peername }

/-- `called` is what the system call of the same name returned, if the function came to it. -/
structure Outcome where
  socket : Socket
  returned : Bool
  called : Option Int := none
  deriving DecidableEq, Repr

def noTimeout : UInt64 := 0xffffffffffffffff

/-- `Socket::connect` (socket.cc:162-192). Both ways of calling log a failure; only one returns. -/
def connect (s : Socket) (addr : Address) (timeoutMs : UInt64) (socket rt : Int) : Outcome :=
  let s := s.openSock socket
  if !s.isValid then ⟨s, false, none⟩
  else if addr.family ≠ s.family then ⟨s, false, none⟩
  else if timeoutMs = noTimeout then
    if rt ≠ 0 then ⟨s, false, some rt⟩ else ⟨s, true, some rt⟩
  else ⟨s, true, some rt⟩

def reconnect (s : Socket) (timeoutMs : UInt64) (socket rt : Int) : Outcome :=
  match s.remoteAddress with
  | none => ⟨s, false, none⟩
  | some addr => ({ s with localAddress := none } : Socket).connect addr timeoutMs socket rt

/-- `Socket::bind` (socket.cc:128-161) connects another socket to a `UnixAddress` first. -/
def bind (s : Socket) (addr : Address) (socket : Int) (probe : Int × Int) (rt : Int)
    (sockname : Option Address) : Outcome :=
  let s := s.openSock socket
  if !s.isValid then ⟨s, false, none⟩
  else
    let other : Socket := { family := unix, type := tcp }
    if addr.unixPath.isSome && (other.connect addr noTimeout probe.1 probe.2).returned then
      ⟨s, false, none⟩
    else if addr.family ≠ s.family then ⟨s, false, none⟩
    else if rt ≠ 0 then ⟨s, false, some rt⟩
    else ⟨s.getLocalAddress sockname, true, some rt⟩

/-- `Socket::listen` (socket.cc:193-203). A failure is logged. -/
def listen (s : Socket) (rt : Int) : Outcome :=
  if !s.isValid then ⟨s, false, none⟩ else ⟨s, true, some rt⟩

def close (s : Socket) : Socket × Bool :=
  if !s.isConnected && s.sock = -1 then (s, true)
  else ({ s with isConnected := false, sock := -1 }, false)

def init (s : Socket) (sock : Int) (ctx : Option FdCtx) (sockname peername : Option Address) :
    Socket × Bool :=
  if ctx.any (fun ctx => ctx.isSocket && !ctx.isClosed) then
    (({ s with sock := sock, isConnected := true }.getLocalAddress sockname).getRemoteAddress
      peername, true)
  else (s, false)

def accept (s : Socket) (newsock : Int) (ctx : Option FdCtx) (sockname peername : Option Address) :
    Option Socket :=
  let sock : Socket := { family := s.family, type := s.type, protocol := s.protocol }
  if newsock = -1 then none
  else
    let (sock, ok) := sock.init newsock ctx sockname peername
    if ok then some sock else none

inductive Act
  | connect (addr : Address) (timeoutMs : UInt64) (socket rt : Int)
  | reconnect (timeoutMs : UInt64) (socket rt : Int)
  | bind (addr : Address) (socket : Int) (probe : Int × Int) (rt : Int) (sockname : Option Address)
  | listen (rt : Int)
  | close
  /-- From `accept`, which passes on every descriptor but -1. -/
  | init (sock : Int) (ctx : Option FdCtx) (sockname peername : Option Address)
  | getLocalAddress (sockname : Option Address)
  | getRemoteAddress (peername : Option Address)
  deriving DecidableEq, Repr

def step (s : Socket) : Act → Option Socket
  | .connect addr timeoutMs socket rt => some (s.connect addr timeoutMs socket rt).socket
  | .reconnect timeoutMs socket rt => some (s.reconnect timeoutMs socket rt).socket
  | .bind addr socket probe rt sockname => some (s.bind addr socket probe rt sockname).socket
  | .listen rt => some (s.listen rt).socket
  | .close => some s.close.1
  | .init sock ctx sockname peername =>
    if sock = -1 then none else some (s.init sock ctx sockname peername).1
  | .getLocalAddress sockname => some (s.getLocalAddress sockname)
  | .getRemoteAddress peername => some (s.getRemoteAddress peername)

def machine : Lib.Machine Socket Act where
  init s := ∃ family protocol, s = { family := family, type := tcp, protocol := protocol }
  step := step

end Socket
end HxSylar
