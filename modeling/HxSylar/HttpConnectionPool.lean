import HxSylar.Lib.Machine

namespace HxSylar

/-- `HttpConnection` (http_connection.h:56-130). Nothing assigns `m_createTime`. -/
structure HttpConnection where
  createTime : Nat := 0
  request : Nat := 0
  deriving DecidableEq, Repr

namespace HttpConnectionPool

/-- Where a call of `getConnection` or of `ReleasePtr` is. A connection is named by the number of
its making, so that one at the address of a deleted one is another. -/
inductive Call
  /-- Before the lock, with the time that was read. -/
  | lock (now : Nat)
  /-- Behind the lock: what is left to delete, how many there were, and the connection found. -/
  | delete (invalid : List Nat) (size : Nat) (ptr : Option Nat)
  | connect
  | count (ptr : Nat)
  | ret (ptr : Nat)
  | drop (ptr : Nat)
  | uncount
  | pushBack (ptr : Nat)
  deriving DecidableEq, Repr

end HttpConnectionPool

/-- `HttpConnectionPool` among threads. `held` are the connections behind a caller's shared pointer,
`deleted` those whose destructor has run; `born` says when each was made. -/
structure HttpConnectionPool where
  maxAliveTime : UInt32
  maxRequest : UInt32
  conns : List Nat := []
  total : Int32 := 0
  held : List Nat := []
  calls : List HttpConnectionPool.Call := []
  objects : Nat → HttpConnection := fun _ => {}
  next : Nat := 0
  deleted : List Nat := []
  clock : Nat := 0
  born : Nat → Nat := fun _ => 0

namespace HttpConnectionPool

def addU64 (a b : Nat) : Nat := (a + b) % 18446744073709551616

def invalid (p : HttpConnectionPool) (now : Nat) (connected : Nat → Bool) (conn : Nat) : Bool :=
  !connected conn || decide (addU64 (p.objects conn).createTime p.maxAliveTime.toNat > now)

/-- The loop of `getConnection` (http_connection.cc:146-159), with what it leaves. -/
def scan {α : Type*} (isInvalid : α → Bool) : List α → List α × Option α × List α
  | [] => ([], none, [])
  | conn :: conns =>
    if isInvalid conn then
      let (invalid, ptr, rest) := scan isInvalid conns
      (conn :: invalid, ptr, rest)
    else ([], some conn, conns)

/-- When `ReleasePtr` deletes (http_connection.cc:196-199), after `++ptr->m_request`. -/
def expended (p : HttpConnectionPool) (ptr : Nat) (connected : Bool) : Bool :=
  !connected || decide (addU64 (p.objects ptr).createTime p.maxAliveTime.toNat ≥ p.clock) ||
    decide ((p.objects ptr).request ≥ p.maxRequest.toNat)

/-- The next atomic step of a call, and where the call is then; `none` is its return. The
environment says which connections are connected and whether connecting succeeds. -/
def advance (p : HttpConnectionPool) (connected : Nat → Bool) (connects : Bool) :
    Call → HttpConnectionPool × Option Call
  | .lock now =>
    let (invalid, ptr, rest) := scan (p.invalid now connected) p.conns
    ({ p with conns := rest }, some (.delete invalid invalid.length ptr))
  | .delete (conn :: invalid) size ptr =>
    ({ p with deleted := conn :: p.deleted }, some (.delete invalid size ptr))
  | .delete [] size ptr =>
    ({ p with total := p.total - Int32.ofNat size },
      match ptr with
      | some ptr => some (.ret ptr)
      | none => some .connect)
  | .connect =>
    if connects then
      ({ p with
          objects := Function.update p.objects p.next {}
          born := Function.update p.born p.next p.clock
          next := p.next + 1 }, some (.count p.next))
    else (p, none)
  | .count ptr => ({ p with total := p.total + 1 }, some (.ret ptr))
  | .ret ptr => ({ p with held := ptr :: p.held }, none)
  | .drop ptr => ({ p with deleted := ptr :: p.deleted }, some .uncount)
  | .uncount => ({ p with total := p.total - 1 }, none)
  | .pushBack ptr => ({ p with conns := p.conns ++ [ptr] }, none)

inductive Act
  | tick (now : Nat)
  | getConnection
  | releasePtr (ptr : Nat) (connected : Bool)
  | resume (call : Nat) (connected : Nat → Bool) (connects : Bool)

def step (p : HttpConnectionPool) : Act → Option HttpConnectionPool
  | .tick now => if p.clock ≤ now then some { p with clock := now } else none
  | .getConnection => some { p with calls := p.calls ++ [.lock p.clock] }
  | .releasePtr ptr connected =>
    if ptr ∈ p.held then
      let conn := p.objects ptr
      let p := { p with
        held := p.held.erase ptr
        objects := Function.update p.objects ptr { conn with request := conn.request + 1 } }
      some { p with
        calls := p.calls ++ [if p.expended ptr connected then .drop ptr else .pushBack ptr] }
    else none
  | .resume call connected connects =>
    (p.calls[call]?).map (fun c =>
      let (p', c') := p.advance connected connects c
      match c' with
      | some c' => { p' with calls := p.calls.set call c' }
      | none => { p' with calls := p.calls.eraseIdx call })

def machine : Lib.Machine HttpConnectionPool Act where
  init p := ∃ maxAliveTime maxRequest clock,
    p = { maxAliveTime := maxAliveTime, maxRequest := maxRequest, clock := clock }
  step := step

end HttpConnectionPool
end HxSylar
