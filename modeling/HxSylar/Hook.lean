import HxSylar.FdContext

namespace HxSylar

/-- `do_io` (hook.cc:83-153) of read, write and their kin, and `connect_with_timeout` (218-292). -/
inductive HookedFun
  | doIo (event : Event)
  | connectWithTimeout
  deriving DecidableEq, Repr

structure HookedCall where
  fn : HookedFun
  fiber : FiberId
  iom : SchedulerId
  timed : Bool
  deriving DecidableEq, Repr

namespace HookedCall

def event (h : HookedCall) : Event :=
  match h.fn with
  | .doIo e => e
  | .connectWithTimeout => .write

def who (h : HookedCall) : CallingThread := ⟨some h.iom, h.fiber, true⟩

/-- Where the call stands: before the system call (the label `retry` in do_io),
before addConditionTimer, before addEvent, before YieldToHold, switched out, then
before `timer->cancel()` and before the test of `cancelled`. `failed` is the branch
where addEvent did not return 0. -/
inductive Pc
  | syscall | arm | register | yielding | suspended | resumed | test | failed | done
  deriving DecidableEq, Repr

/-- A call in progress. `armed` says that its timer sits in the TimerManager. Its
callbacks that listExpiredCb has taken out are counted by how far they got: not
started, past the test of `cancelled`, and past the write of ETIMEDOUT but not yet
through cancelEvent. A do_io that retries shares one `timer_info` with the callbacks
of its earlier timers. `queued` counts the fiber's entries in the scheduler. -/
structure State where
  pc : Pc := .syscall
  slot : Slot := {}
  pending : Int := 0
  queued : Nat := 0
  cancelled : Bool := false
  armed : Bool := false
  taken : Nat := 0
  tested : Nat := 0
  cancelling : Nat := 0

inductive Label
  | syscall (again : Bool)
  | addConditionTimer
  | addEvent (rt : Bool)
  | swapOut
  | resume
  | cancelTimer
  | testCancelled
  | expire
  | callbackTest
  | callbackSet
  | callbackCancel (rt : Bool)
  | other (c : SectionCall)
  deriving DecidableEq, Repr

def enter (h : HookedCall) (s : State) (c : SectionCall) : Option (State × Bool) :=
  match s.slot.call s.pending c with
  | .error _ => none
  | .ok out =>
    some ({ s with
      slot := out.slot
      pending := out.pending
      queued := s.queued + out.pushes.countP (fun p => p.task = .fiber h.fiber) }, out.ret)

/-- Sections entered on behalf of others: the fd's event firing, cancelEvent and
cancelAll (as close does), and addEvent for another waiter. delEvent has no caller. -/
def byOthers (h : HookedCall) : SectionCall → Bool
  | .addEvent _ cb who _ => cb.isSome || who.fiber != h.fiber
  | .delEvent _ _ => false
  | _ => true

/-- `winfo.lock()`: the call is not over yet, or a callback has locked the `timer_info`. -/
def infoAlive (s : State) : Bool := s.pc != .done || 0 < s.tested + s.cancelling

def step (h : HookedCall) (s : State) : Label → Option State
  | .syscall again =>
    if s.pc = .syscall then some { s with pc := if again then .arm else .done } else none
  | .addConditionTimer =>
    if s.pc = .arm then some { s with pc := .register, armed := h.timed } else none
  | .addEvent rt =>
    if s.pc = .register then
      (h.enter s (.addEvent h.event none h.who rt)).map
        (fun o => { o.1 with pc := if o.2 then .yielding else .failed })
    else none
  | .swapOut => if s.pc = .yielding then some { s with pc := .suspended } else none
  | .resume =>
    if s.pc = .suspended ∧ 0 < s.queued then some { s with pc := .resumed, queued := s.queued - 1 }
    else none
  | .cancelTimer =>
    if s.pc = .resumed then some { s with pc := .test, armed := false }
    else if s.pc = .failed then some { s with pc := .done, armed := false }
    else none
  | .testCancelled =>
    if s.pc = .test then
      some { s with pc := if s.cancelled then .done else
        match h.fn with
        | .doIo _ => .syscall
        | .connectWithTimeout => .done }
    else none
  | .expire => if s.armed then some { s with armed := false, taken := s.taken + 1 } else none
  | .callbackTest =>
    if 0 < s.taken then
      if infoAlive s && !s.cancelled then
        some { s with taken := s.taken - 1, tested := s.tested + 1 }
      else some { s with taken := s.taken - 1 }
    else none
  | .callbackSet =>
    if 0 < s.tested then
      some { s with cancelled := true, tested := s.tested - 1, cancelling := s.cancelling + 1 }
    else none
  | .callbackCancel rt =>
    if 0 < s.cancelling then
      (h.enter s (.cancelEvent h.event rt)).map
        (fun o => { o.1 with cancelling := s.cancelling - 1 })
    else none
  | .other c => if h.byOthers c then (h.enter s c).map Prod.fst else none

def machine (h : HookedCall) : Lib.Machine State Label where
  init s := s = {}
  step := h.step

end HookedCall
end HxSylar
