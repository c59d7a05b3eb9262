import HxSylar.Socket

namespace HxSylar

/-- `Socket::CreateTCP` (socket.cc:21-24), which is `SSLSocket::CreateTCP` as well. -/
def Socket.createTCP (address : Address) : Socket := { family := address.family, type := Socket.tcp }

/-- What the operating system answers when an address is bound: `socket`, the two calls by which a
`UnixAddress` is probed, `bind`, `getsockname` and `listen`. -/
structure BindAnswers where
  socket : Int
  probe : Int × Int := (-1, -1)
  bind : Int
  sockname : Option Address := none
  listen : Int
  deriving DecidableEq, Repr

structure TcpServer where
  mSocks : List Socket := []
  mSsl : Bool := false
  deriving DecidableEq, Repr

namespace TcpServer

def bound (a : Address × BindAnswers) : Socket.Outcome :=
  (Socket.createTCP a.1).bind a.1 a.2.socket a.2.probe a.2.bind a.2.sockname

def listening (a : Address × BindAnswers) : Socket.Outcome := (bound a).socket.listen a.2.listen

/-- One turn of the loop (tcp_server.cc:46-65), on `m_socks` and `fails`. -/
def bindAddress (st : List Socket × List Address) (a : Address × BindAnswers) :
    List Socket × List Address :=
  if !(bound a).returned then (st.1, st.2 ++ [a.1])
  else if !(listening a).returned then (st.1, st.2 ++ [a.1])
  else (st.1 ++ [(listening a).socket], st.2)

structure Bound where
  server : TcpServer
  fails : List Address
  returned : Bool
  deriving DecidableEq, Repr

def bind (s : TcpServer) (addrs : List (Address × BindAnswers)) (fails : List Address)
    (ssl : Bool) : Bound :=
  let (mSocks, fails) := addrs.foldl bindAddress (s.mSocks, fails)
  if !fails.isEmpty then ⟨{ mSocks := [], mSsl := ssl }, fails, false⟩
  else ⟨{ mSocks := mSocks, mSsl := ssl }, fails, true⟩

end TcpServer

end HxSylar
