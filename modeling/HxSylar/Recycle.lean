import HxSylar.Hook

namespace HxSylar

/-- The open files behind a descriptor number, in the order they were opened. -/
abbrev FileGen := Nat

/-- One do_io call on a descriptor number, and the number itself. `file` is what the
number stands for now and `ctx` says whether `m_datas[fd]` is set. The callers of close
are counted by how far they got: with a context in hand, past cancelAll, and about to
call `close_f`; those of socket and accept by whether they still have to create the
context. -/
structure Recycle where
  call : HookedCall.State := {}
  file : Option FileGen := some 0
  opened : FileGen := 1
  ctx : Bool := true
  found : Nat := 0
  swept : Nat := 0
  closing : Nat := 0
  creating : Nat := 0

namespace Recycle

/-- The steps of the call and of those who share its descriptor, then of close (hook.cc:360-374),
and of socket and accept when they get this number. `interrupted` is an EINTR. -/
inductive Label
  | call (l : HookedCall.Label)
  | interrupted
  | closeGet
  | closeCancelAll (iom : Bool) (rt : Bool)
  | closeDel
  | closeFile
  | reopen
  | create
  deriving DecidableEq, Repr

/-- On a closed number no system call ends in EAGAIN, and `epoll_ctl` does not add it. -/
def possible (file : Option FileGen) : HookedCall.Label → Bool
  | .syscall again => file.isSome || !again
  | .addEvent rt => file.isSome || !rt
  | _ => true

/-- `close_f(fd)`. The kernel takes a closed file out of the interest list. -/
def closeFile (s : Recycle) : Recycle :=
  match s.file with
  | none => s
  | some _ =>
    { s with file := none, call := { s.call with slot := { s.call.slot with kernel := none } } }

/-- Neither cancelAll nor `FdManager::del` writes `m_isClosed`, which do_io reads only at first. -/
def step (h : HookedCall) (s : Recycle) : Label → Option Recycle
  | .call l =>
    if possible s.file l then (h.step s.call l).map (fun c => { s with call := c }) else none
  | .interrupted => if s.call.pc = .syscall then some s else none
  | .closeGet =>
    if s.ctx then some { s with found := s.found + 1 }
    else some { s with closing := s.closing + 1 }
  | .closeCancelAll iom rt =>
    if 0 < s.found then
      let s := { s with found := s.found - 1, swept := s.swept + 1 }
      if iom then (h.enter s.call (.cancelAll rt)).map (fun o => { s with call := o.1 })
      else some s
    else none
  | .closeDel =>
    if 0 < s.swept then
      some { s with ctx := false, swept := s.swept - 1, closing := s.closing + 1 }
    else none
  | .closeFile =>
    if 0 < s.closing then some { s.closeFile with closing := s.closing - 1 } else none
  | .reopen =>
    match s.file with
    | none =>
      some { s with file := some s.opened, opened := s.opened + 1, creating := s.creating + 1 }
    | some _ => none
  | .create =>
    if 0 < s.creating then some { s with ctx := true, creating := s.creating - 1 } else none

def machine (h : HookedCall) : Lib.Machine Recycle Label where
  init s := s = {}
  step := step h

end Recycle
end HxSylar
