import HxSylar.Task
import HxSylar.Lib.Machine

namespace HxSylar

inductive Event
  | none | read | write
  deriving DecidableEq, Repr

/-- The two bits of an `Event` used as a mask: READ = EPOLLIN = 0x1, WRITE = EPOLLOUT = 0x4. -/
structure Mask where
  read : Bool
  write : Bool
  deriving DecidableEq, Repr

namespace Mask

def none : Mask := ⟨false, false⟩

def has (m : Mask) : Event → Bool
  | .none => false
  | .read => m.read
  | .write => m.write

def add (m : Mask) : Event → Mask
  | .none => m
  | .read => { m with read := true }
  | .write => { m with write := true }

def del (m : Mask) : Event → Mask
  | .none => m
  | .read => { m with read := false }
  | .write => { m with write := false }

def inter (m n : Mask) : Mask := ⟨m.read && n.read, m.write && n.write⟩

def diff (m n : Mask) : Mask := ⟨m.read && !n.read, m.write && !n.write⟩

def bits (m : Mask) : Nat := m.read.toNat + m.write.toNat

end Mask

structure EpollMask where
  epollin : Bool
  epollout : Bool
  epollerr : Bool
  epollhup : Bool
  deriving DecidableEq, Repr

structure EventContext where
  scheduler : Option SchedulerId := .none
  fiber : Option FiberId := .none
  cb : Option Callback := .none
  deriving DecidableEq, Repr

/-- `FdContext` (iomanager.h:21-42) without the mutex, which every section below holds. -/
structure FdContext where
  read : EventContext := {}
  write : EventContext := {}
  events : Mask := .none
  deriving DecidableEq, Repr

/-- A failed `HX_ASSERT`, named after its function, or a call through a null `Scheduler*`. -/
inductive Fault
  | getContext
  | triggerEvent (events : Mask) (event : Event)
  | addEventBusy
  | addEventContext
  | addEventState
  | cancelAll
  | nullScheduler
  deriving DecidableEq, Repr

namespace FdContext

def getContext (c : FdContext) : Event → Except Fault EventContext
  | .read => .ok c.read
  | .write => .ok c.write
  | .none => .error .getContext

def setContext (c : FdContext) (x : EventContext) : Event → FdContext
  | .read => { c with read := x }
  | .write => { c with write := x }
  | .none => c

end FdContext

structure Push where
  event : Event
  scheduler : SchedulerId
  task : Task
  deriving DecidableEq, Repr

/-- The end of `triggerEvent` (iomanager.cc:32-38). `schedule(&ctx.cb)` and `schedule(&ctx.fiber)`
swap with an empty one, and queue nothing if it was empty. -/
def EventContext.handOver (ctx : EventContext) (event : Event) :
    Except Fault (EventContext × List Push) :=
  match ctx.scheduler with
  | .none => .error .nullScheduler
  | some s =>
    match ctx.cb with
    | some cb => .ok ({ ctx with cb := .none, scheduler := .none }, [⟨event, s, .cb cb⟩])
    | .none =>
      .ok ({ ctx with fiber := .none, scheduler := .none },
        (ctx.fiber.map (fun f => ⟨event, s, .fiber f⟩)).toList)

def FdContext.triggerEvent (c : FdContext) (event : Event) : Except Fault (FdContext × List Push) :=
  if c.events.has event then do
    let ctx ← c.getContext event
    let (ctx, pushes) ← ctx.handOver event
    .ok ({ c with events := c.events.del event }.setContext ctx event, pushes)
  else .error (.triggerEvent c.events event)

/-- An `FdContext` and what `m_epfd` holds for its descriptor; `none` is absent. -/
structure Slot where
  ctx : FdContext := {}
  kernel : Option Mask := .none
  deriving DecidableEq, Repr

/-- `epoll_ctl(m_epfd, op, fd, ..)` when it returns 0; a call that fails changes nothing. -/
inductive CtlOp
  | add | mod | del
  deriving DecidableEq, Repr

def epollCtl (op : CtlOp) (m : Mask) : Option Mask :=
  match op with
  | .del => .none
  | _ => some m

/-- What a critical section leaves and returns (true for 0 and for true), and what it schedules. -/
structure Section where
  slot : Slot
  pending : Int
  ret : Bool
  pushes : List Push
  deriving DecidableEq, Repr

structure CallingThread where
  scheduler : Option SchedulerId
  fiber : FiberId
  exec : Bool
  deriving DecidableEq, Repr

namespace Slot

/-- The section of `addEvent` (iomanager.cc:99-136); `rt` is whether `epoll_ctl` returned 0. -/
def addEvent (s : Slot) (pending : Int) (event : Event) (cb : Option Callback)
    (who : CallingThread) (rt : Bool) : Except Fault Section :=
  if s.ctx.events.has event then .error .addEventBusy
  else
    let op := if s.ctx.events ≠ Mask.none then CtlOp.mod else .add
    if rt then do
      let kernel := epollCtl op (s.ctx.events.add event)
      let c := { s.ctx with events := s.ctx.events.add event }
      let ctx ← c.getContext event
      if ctx = {} then
        match cb with
        | some cb =>
          .ok ⟨⟨c.setContext { ctx with scheduler := who.scheduler, cb := some cb } event, kernel⟩,
            pending + 1, true, []⟩
        | .none =>
          if who.exec then
            .ok ⟨⟨c.setContext { ctx with scheduler := who.scheduler, fiber := some who.fiber } event,
              kernel⟩, pending + 1, true, []⟩
          else .error .addEventState
      else .error .addEventContext
    else .ok ⟨s, pending, false, []⟩

def delEvent (s : Slot) (pending : Int) (event : Event) (rt : Bool) : Except Fault Section :=
  if s.ctx.events.has event then
    let newEvents := s.ctx.events.del event
    let op := if newEvents ≠ Mask.none then CtlOp.mod else .del
    if rt then do
      let c := { s.ctx with events := newEvents }
      let _ ← c.getContext event
      .ok ⟨⟨c.setContext {} event, epollCtl op newEvents⟩, pending - 1, true, []⟩
    else .ok ⟨s, pending, false, []⟩
  else .ok ⟨s, pending, false, []⟩

def cancelEvent (s : Slot) (pending : Int) (event : Event) (rt : Bool) : Except Fault Section :=
  if s.ctx.events.has event then
    let newEvents := s.ctx.events.del event
    let op := if newEvents ≠ Mask.none then CtlOp.mod else .del
    if rt then do
      let (c, pushes) ← s.ctx.triggerEvent event
      .ok ⟨⟨c, epollCtl op newEvents⟩, pending - 1, true, pushes⟩
    else .ok ⟨s, pending, false, []⟩
  else .ok ⟨s, pending, false, []⟩

def triggerIf (on : Bool) (c : FdContext) (pending : Int) (event : Event) :
    Except Fault (FdContext × Int × List Push) :=
  if on then do
    let (c, pushes) ← c.triggerEvent event
    .ok (c, pending - 1, pushes)
  else .ok (c, pending, [])

/-- The section of `cancelAll` (iomanager.cc:215-245): two triggers, one after the other. -/
def cancelAll (s : Slot) (pending : Int) (rt : Bool) : Except Fault Section :=
  if s.ctx.events = Mask.none then .ok ⟨s, pending, false, []⟩
  else if rt then do
    let kernel := epollCtl .del Mask.none
    let (c, n, p) ← triggerIf s.ctx.events.read s.ctx pending .read
    let (c, n, q) ← triggerIf c.events.write c n .write
    if c.events = Mask.none then .ok ⟨⟨c, kernel⟩, n, true, p ++ q⟩
    else .error .cancelAll
  else .ok ⟨s, pending, false, []⟩

/-- `real_events` (iomanager.cc:317-326); an error or a hang-up adds the bits now registered. -/
def realEvents (events : Mask) (m : EpollMask) : Mask :=
  ⟨m.epollin || ((m.epollerr || m.epollhup) && events.read),
   m.epollout || ((m.epollerr || m.epollhup) && events.write)⟩

/-- The section idle() runs for one descriptor event (iomanager.cc:315-353). -/
def dispatch (s : Slot) (pending : Int) (m : EpollMask) (rt : Bool) : Except Fault Section :=
  let real := realEvents s.ctx.events m
  if s.ctx.events.inter real = Mask.none then .ok ⟨s, pending, false, []⟩
  else
    let left := s.ctx.events.diff real
    let op := if left ≠ Mask.none then CtlOp.mod else .del
    if rt then do
      let (c, n, p) ← triggerIf real.read s.ctx pending .read
      let (c, n, q) ← triggerIf real.write c n .write
      .ok ⟨⟨c, epollCtl op left⟩, n, true, p ++ q⟩
    else .ok ⟨s, pending, false, []⟩

end Slot

inductive SectionCall
  | addEvent (event : Event) (cb : Option Callback) (who : CallingThread) (rt : Bool)
  | delEvent (event : Event) (rt : Bool)
  | cancelEvent (event : Event) (rt : Bool)
  | cancelAll (rt : Bool)
  | dispatch (m : EpollMask) (rt : Bool)
  deriving DecidableEq, Repr

def Slot.call (s : Slot) (pending : Int) : SectionCall → Except Fault Section
  | .addEvent event cb who rt => s.addEvent pending event cb who rt
  | .delEvent event rt => s.delEvent pending event rt
  | .cancelEvent event rt => s.cancelEvent pending event rt
  | .cancelAll rt => s.cancelAll pending rt
  | .dispatch m rt => s.dispatch pending m rt

/-- The contexts of an IOManager and the kernel's interest list. `m_pendingEventCount` is an integer
here, so that a decrement below zero would show. -/
structure Registry (F : Type) where
  slot : F → Slot := fun _ => {}
  pending : Int := 0

namespace Registry
variable {F : Type} [DecidableEq F]

def call (r : Registry F) (i : F) (c : SectionCall) : Except Fault (Registry F × Section) :=
  match (r.slot i).call r.pending c with
  | .ok out => .ok (⟨Function.update r.slot i out.slot, out.pending⟩, out)
  | .error e => .error e

def machine (F : Type) [DecidableEq F] : Lib.Machine (Registry F) (F × SectionCall) where
  init r := r = {}
  step r l := (r.call l.1 l.2).toOption.map Prod.fst

end Registry

/-- idle() threads between epoll_wait and the fd mutex hold events that were reported earlier, while
others use the contexts. `fault` is what killed the process in idle()'s own section. -/
structure EventLoop (F : Type) where
  registry : Registry F := {}
  inHand : List (F × EpollMask) := []
  fault : Option Fault := none

namespace EventLoop
variable {F : Type} [DecidableEq F]

inductive Label (F : Type)
  | wait (i : F) (m : EpollMask)
  | other (i : F) (c : SectionCall)
  | handle (k : Nat) (rt : Bool)

/-- epoll_wait reports IN and OUT only to those who asked, ERR and HUP to everyone. -/
def reportable (interest : Option Mask) (m : EpollMask) : Bool :=
  match interest with
  | none => false
  | some k => (!m.epollin || k.read) && (!m.epollout || k.write)

def byOther : SectionCall → Bool
  | .dispatch _ _ => false
  | _ => true

def step (s : EventLoop F) (l : Label F) : Option (EventLoop F) :=
  if s.fault.isSome then none
  else
    match l with
    | .wait i m =>
      if reportable (s.registry.slot i).kernel m then some { s with inHand := s.inHand ++ [(i, m)] }
      else none
    | .other i c =>
      if byOther c then
        (s.registry.call i c).toOption.map (fun o => { s with registry := o.1 })
      else none
    | .handle k rt =>
      match s.inHand[k]? with
      | none => none
      | some (i, m) =>
        match s.registry.call i (.dispatch m rt) with
        | .ok o => some { s with registry := o.1, inHand := s.inHand.eraseIdx k }
        | .error e => some { s with fault := some e }

def machine (F : Type) [DecidableEq F] : Lib.Machine (EventLoop F) (Label F) where
  init s := s = {}
  step := step

end EventLoop
end HxSylar
