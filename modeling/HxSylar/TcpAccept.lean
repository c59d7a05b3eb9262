import HxSylar.Lib.Machine

namespace HxSylar.TcpServer

/-- Where a call of `startAccept` is (tcp_server.cc:78-90): scheduled, in front of the test of
`m_isStop`, in `accept`, with a client that is not scheduled yet, or at its end. -/
inductive AcceptPc
  | scheduled
  | test
  | accept
  | holds (client : Nat)
  | ended
  deriving DecidableEq, Repr

structure AcceptLoop where
  sock : Nat
  pc : AcceptPc := .scheduled
  deriving DecidableEq, Repr

/-- A server behind `bind`, which is not called again. `closing` counts the tasks of `stop` that have
not run; `clients` are those scheduled for `handleClient`, with the loop they come from. -/
structure Accepting where
  isStop : Bool := true
  socks : List Nat
  loops : List AcceptLoop := []
  closing : Nat := 0
  closed : List Nat := []
  clients : List (Nat × Nat) := []
  deriving DecidableEq, Repr

/-- What a loop does next. What `accept` returns is not known before. -/
inductive LoopAct
  | begins
  | tests
  | accepts (client : Nat)
  | fails
  | schedules
  deriving DecidableEq, Repr

inductive AcceptAct
  | start
  | stop
  | close
  | loop (i : Nat) (a : LoopAct)
  deriving DecidableEq, Repr

namespace Accepting

def setPc (s : Accepting) (i : Nat) (pc : AcceptPc) : Accepting :=
  { s with loops := s.loops.modify i (fun l => { l with pc := pc }) }

def start (s : Accepting) : Accepting :=
  if s.isStop then
    { s with isStop := false, loops := s.loops ++ s.socks.map (fun sock => { sock := sock }) }
  else s

def stop (s : Accepting) : Accepting := { s with isStop := true, closing := s.closing + 1 }

def close (s : Accepting) : Option Accepting :=
  if s.closing = 0 then none
  else some { s with closing := s.closing - 1, closed := s.socks ++ s.closed, socks := [] }

/-- One statement of a loop. A closed socket accepts nobody: its descriptor is taken not to be given
again while a loop waits for it. -/
def loopStep (s : Accepting) (i : Nat) (l : AcceptLoop) : LoopAct → Option Accepting
  | .begins => if l.pc = .scheduled then some (s.setPc i .test) else none
  | .tests =>
    if l.pc = .test then some (s.setPc i (if s.isStop then .ended else .accept)) else none
  | .accepts client =>
    if l.pc = .accept ∧ l.sock ∉ s.closed then some (s.setPc i (.holds client)) else none
  | .fails => if l.pc = .accept then some (s.setPc i .test) else none
  | .schedules =>
    match l.pc with
    | .holds client => some { s.setPc i .test with clients := s.clients ++ [(i, client)] }
    | _ => none

def step (s : Accepting) : AcceptAct → Option Accepting
  | .start => some s.start
  | .stop => some s.stop
  | .close => s.close
  | .loop i a => (s.loops[i]?).bind (fun l => s.loopStep i l a)

def machine : Lib.Machine Accepting AcceptAct where
  init s := ∃ socks : List Nat, socks.Nodup ∧ s = { socks := socks }
  step := step

end Accepting
end HxSylar.TcpServer
