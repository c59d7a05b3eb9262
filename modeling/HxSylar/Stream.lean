import HxSylar.ByteArray

namespace HxSylar

/-- What the socket of a stream does, call by call: whether it is connected, and what `send` or
`recv` returns for buffers of that many bytes, never more than these. -/
structure Link where
  connected : Nat → Bool
  result : Nat → (offered : Nat) → { rt : Int // rt ≤ offered }

def intOfSize (n : Nat) : Int := Int.bmod n 4294967296

def int64OfSize (n : Nat) : Int := Int.bmod n 18446744073709551616

namespace Stream
variable {σ : Type}

/-- The loop of `readFixSize` and `writeFixSize` (stream.cc:19-29, 44-54) around `read` or `write`:
what the call returned that ended it, `none` when nothing is left. -/
def fixSizeLoop (transfer : Nat → EStateM Failure σ Int) (left : Int) :
    EStateM Failure σ (Option Int) := fun s =>
  if _ : 0 < left then
    match transfer left.toNat s with
    | .error e t => .error e t
    | .ok len t => if _ : len ≤ 0 then .ok (some len) t else fixSizeLoop transfer (left - len) t
  else .ok none s
termination_by left.toNat

def fixSize (transfer : Nat → EStateM Failure σ Int) (length : Nat) : EStateM Failure σ Int :=
  (fun r => r.getD (intOfSize length)) <$> fixSizeLoop transfer (int64OfSize length)

end Stream

namespace SocketStream

structure Sending where
  ba : ByteArray
  wire : List UInt8 := []
  calls : Nat := 0

def advance (rt : Int) : Op Unit := fun b =>
  if 0 < rt then b.setPosition (b.position + rt.toNat) else .ok () b

def write (link : Link) (length : Nat) : EStateM Failure Sending Int := fun s =>
  if !link.connected s.calls then .ok (-1) { s with calls := s.calls + 1 }
  else
    match s.ba.getReadBuffers length with
    | .error e b => .error e { s with ba := b }
    | .ok (_, iovs) b =>
      let rt := (link.result s.calls (iovs.map Iovec.len).sum).1
      let wire := s.wire ++ (ByteArray.collect iovs b.nodes).take rt.toNat
      match advance rt b with
      | .error e b => .error e ⟨b, wire, s.calls + 1⟩
      | .ok _ b => .ok rt ⟨b, wire, s.calls + 1⟩

structure Receiving where
  ba : ByteArray
  incoming : List UInt8
  calls : Nat := 0

/-- `read(ba, length)` (socket_stream.cc:18-30). The socket has no more to give than is coming in. -/
def read (garbage : Garbage) (link : Link) (length : Nat) : EStateM Failure Receiving Int := fun s =>
  if !link.connected s.calls then .ok (-1) { s with calls := s.calls + 1 }
  else
    match s.ba.getWriteBuffers garbage length with
    | .error e b => .error e { s with ba := b }
    | .ok (_, iovs) b =>
      let result := (link.result s.calls (iovs.map Iovec.len).sum).1
      let data := s.incoming.take result.toNat
      let rt := if result ≤ 0 then result else data.length
      let incoming := s.incoming.drop data.length
      match advance rt { b with nodes := ByteArray.fill iovs data b.nodes } with
      | .error e b => .error e ⟨b, incoming, s.calls + 1⟩
      | .ok _ b => .ok rt ⟨b, incoming, s.calls + 1⟩

def writeFixSize (link : Link) (length : Nat) : EStateM Failure Sending Int :=
  Stream.fixSize (write link) length

def readFixSize (garbage : Garbage) (link : Link) (length : Nat) : EStateM Failure Receiving Int :=
  Stream.fixSize (read garbage link) length

end SocketStream
end HxSylar
