import HxSylar.Scheduler
import HxSylar.Timer
import HxSylar.FdContext

namespace HxSylar.IOManager

/-- Before the test of `hasIdleThreads()` in `tickle()`, or before the write. -/
inductive Tickling
  | no | guard | write
  deriving DecidableEq, Repr

/-- What a critical section still owes behind its change of the context: the `schedule` of each
triggerEvent, the `--m_pendingEventCount` behind it, and the release of the mutex. -/
inductive Todo (F : Type)
  | push (task : Task)
  | dec
  | unlock (fd : F)
  deriving DecidableEq, Repr

structure Hand (F : Type) where
  tickling : Tickling := .no
  todo : List (Todo F) := []
  deriving DecidableEq, Repr

def Hand.free {F : Type} (h : Hand F) : Bool := h.tickling == .no && h.todo.isEmpty

/-- The three reads of `stopping()` (iomanager.cc:258-261), by which is next. -/
inductive StopRead
  | timer | pending | queue
  deriving DecidableEq, Repr

inductive Reported (F : Type)
  | tickle
  | fd (i : F) (m : EpollMask)
  deriving DecidableEq, Repr

/-- Where a worker stands in `idle()` (iomanager.cc:267-361). `blocked` is inside epoll_wait,
`expired` behind listExpiredCb with its callbacks, `done` behind the loop. -/
inductive IdlePc (F : Type)
  | stopping (read : StopRead)
  | blocked
  | woken (events : List (Reported F))
  | expired (cbs : List (Option Callback)) (events : List (Reported F))
  | handling (events : List (Reported F))
  | done
  deriving DecidableEq, Repr

/-- Workers `W`, other threads `O`, descriptors `F`. The idle position counts while the worker is
inside `idle()`. A thread of `O` is evaluating `stopping()`, as stop() does, or free. -/
structure State (W O F : Type) where
  sched : Scheduler.State W := {}
  idlePc : W → IdlePc F := fun _ => .stopping .timer
  outside : O → Option StopRead := fun _ => none
  hand : W ⊕ O → Hand F := fun _ => {}
  pipe : Nat := 0
  timers : TimerManager := {}
  registry : Registry F := {}
  locked : F → Bool := fun _ => false

inductive FdCall
  | addEvent (event : Event) (cb : Option Callback) (rt : Bool)
  | delEvent (event : Event) (rt : Bool)
  | cancelEvent (event : Event) (rt : Bool)
  | cancelAll (rt : Bool)
  deriving DecidableEq, Repr

/-- What user code may ask for. `stopping` starts the evaluation in stop(). -/
inductive Act (F : Type)
  | schedule (fc : Option Task) (thread : Int)
  | scheduleRange (fcs : List (Option Task))
  | newFiber
  | setAutoStop
  | setStopping
  | stopping
  | tickle
  | addTimer (t : TimerId) (ms : UInt64) (cb : Option Callback) (recurring : Bool) (now : UInt64)
  | cancelTimer (t : TimerId)
  | refreshTimer (t : TimerId) (now : UInt64)
  | resetTimer (t : TimerId) (ms : UInt64) (fromNow : Bool) (now : UInt64)
  | fd (i : F) (c : FdCall)

inductive Label (W O F : Type)
  | run (w : W) (l : Scheduler.RunLabel)
  | wake (w : W) (events : List (Reported F))
  | expire (w : W) (now : UInt64) (addr : TimerId)
  | flush (w : W)
  | handle (w : W) (rt : Bool)
  | leave (w : W)
  | tickle (th : W ⊕ O)
  | section (th : W ⊕ O)
  | stopRead (th : W ⊕ O) (now : UInt64)
  | act (th : W ⊕ O) (a : Act F)

variable {W O F : Type} [DecidableEq W] [DecidableEq O] [DecidableEq F]

def setHand (s : State W O F) (th : W ⊕ O) (h : Hand F) : State W O F :=
  { s with hand := Function.update s.hand th h }

def setIdle (s : State W O F) (w : W) (p : IdlePc F) : State W O F :=
  { s with idlePc := Function.update s.idlePc w p }

def oweTickle (s : State W O F) (th : W ⊕ O) (tk : Bool) : State W O F :=
  if tk then setHand s th { s.hand th with tickling := .guard } else s

def schedStep (tid : W → Int) (s : State W O F) (th : W ⊕ O) (l : Scheduler.Label W) :
    Option (State W O F) :=
  (Scheduler.step tid s.sched l).map (fun o => oweTickle { s with sched := o.1 } th o.2)

def inIdle (s : State W O F) (w : W) : Bool := (s.sched.worker w).pc == .idle

def runStep (tid : W → Int) (s : State W O F) (w : W) (l : Scheduler.RunLabel) :
    Option (State W O F) :=
  match l with
  | .leaveIdle _ => none
  | l => (schedStep tid s (.inl w) (.run w l)).map (fun t =>
      if inIdle t w then setIdle t w (.stopping .timer) else t)

/-- The counter keeps what the triggers of the section have yet to take from it. -/
def sectionStep (s : State W O F) (th : W ⊕ O) (i : F) (c : SectionCall) : Option (State W O F) :=
  if s.locked i then none
  else
    match s.registry.call i c with
    | .error _ => none
    | .ok (r, out) =>
      some (setHand { s with
          registry := { r with pending := r.pending + out.pushes.length }
          locked := Function.update s.locked i true } th
        { s.hand th with
          todo := out.pushes.flatMap (fun p => [.push p.task, .dec]) ++ [.unlock i] })

def sectionNext (tid : W → Int) (s : State W O F) (th : W ⊕ O) : Option (State W O F) :=
  match (s.hand th).todo with
  | [] => none
  | x :: rest =>
    let s' := setHand s th { s.hand th with todo := rest }
    match x with
    | .push task => schedStep tid s' th (.schedule (some task) (-1))
    | .dec => some { s' with registry := { s'.registry with pending := s'.registry.pending - 1 } }
    | .unlock i => some { s' with locked := Function.update s'.locked i false }

def tickleStep (s : State W O F) (th : W ⊕ O) : Option (State W O F) :=
  match (s.hand th).tickling with
  | .no => none
  | .guard =>
    some (setHand s th { s.hand th with
      tickling := if 0 < s.sched.shared.idle then .no else .write })
  | .write => some { setHand s th { s.hand th with tickling := .no } with pipe := s.pipe + 1 }

/-- One read of `stopping()`: the manager after it, and the outcome if it is known.
`m_pendingEventCount` and the queue are read only if the earlier reads allow. -/
def readStop (s : State W O F) (now : UInt64) : StopRead → TimerManager × (StopRead ⊕ Bool)
  | .timer =>
    let r := s.timers.getNextTimer now
    (r.1, if r.2 = TimerManager.noTimer then .inl .pending else .inr false)
  | .pending => (s.timers, if s.registry.pending = 0 then .inl .queue else .inr false)
  | .queue => (s.timers, .inr s.sched.shared.isStopping)

def reading (s : State W O F) : W ⊕ O → Option StopRead
  | .inl w =>
    match s.idlePc w with
    | .stopping r => if inIdle s w then some r else none
    | _ => none
  | .inr o => s.outside o

def idleAfter : StopRead ⊕ Bool → IdlePc F
  | .inl r => .stopping r
  | .inr true => .done
  | .inr false => .blocked

def outsideAfter : StopRead ⊕ Bool → Option StopRead
  | .inl r => some r
  | .inr _ => none

def stopReadStep (s : State W O F) (th : W ⊕ O) (now : UInt64) : Option (State W O F) :=
  match reading s th with
  | none => none
  | some r =>
    let o := readStop s now r
    match th with
    | .inl w => some (setIdle { s with timers := o.1 } w (idleAfter o.2))
    | .inr x => some { s with timers := o.1, outside := Function.update s.outside x (outsideAfter o.2) }

def reportable (s : State W O F) : Reported F → Bool
  | .tickle => 0 < s.pipe
  | .fd i m => EventLoop.reportable (s.registry.slot i).kernel m

def idleStep (tid : W → Int) (s : State W O F) (w : W) : Label W O F → Option (State W O F)
  | .wake _ events =>
    match s.idlePc w with
    | .blocked => if events.all (reportable s) then some (setIdle s w (.woken events)) else none
    | _ => none
  | .expire _ now addr =>
    match s.idlePc w with
    | .woken events =>
      let r := s.timers.listExpiredCb now addr
      some (setIdle { s with timers := r.1 } w (.expired r.2 events))
    | _ => none
  | .flush _ =>
    match s.idlePc w with
    | .expired cbs events =>
      if cbs.isEmpty then some (setIdle s w (.handling events))
      else (schedStep tid s (.inl w) (.scheduleRange (cbs.map (Option.map .cb)))).map
        (fun t => setIdle t w (.handling events))
    | _ => none
  | .handle _ rt =>
    match s.idlePc w with
    | .handling (.tickle :: events) => some { setIdle s w (.handling events) with pipe := 0 }
    | .handling (.fd i m :: events) =>
      sectionStep (setIdle s w (.handling events)) (.inl w) i (.dispatch m rt)
    | _ => none
  | .leave _ =>
    match s.idlePc w with
    | .handling [] => schedStep tid s (.inl w) (.run w (.leaveIdle false))
    | .done => schedStep tid s (.inl w) (.run w (.leaveIdle true))
    | _ => none
  | _ => none

/-- The fiber whose code runs on a thread, if the thread may run user code now. A
thread outside the scheduler has no fiber of its own to register. -/
def user (s : State W O F) : W ⊕ O → Option (Option FiberId)
  | .inl w =>
    match (s.sched.worker w).pc with
    | .exec _ f => some (some f)
    | _ => none
  | .inr o => if s.outside o = none then some none else none

/-- `Scheduler::GetThis()` is this scheduler, called 0, on a worker and null elsewhere. -/
def sectionCall (s : State W O F) (f : Option FiberId) : FdCall → Option SectionCall
  | .addEvent event cb rt =>
    match f, cb with
    | some f, cb => some (.addEvent event cb ⟨some 0, f, s.sched.shared.state f == .exec⟩ rt)
    | none, some cb => some (.addEvent event (some cb) ⟨none, 0, true⟩ rt)
    | none, none => none
  | .delEvent event rt => some (.delEvent event rt)
  | .cancelEvent event rt => some (.cancelEvent event rt)
  | .cancelAll rt => some (.cancelAll rt)

/-- What user code does. A timer inserted at the front ends in `tickle()`. -/
def actStep (tid : W → Int) (s : State W O F) (th : W ⊕ O) (f : Option FiberId) :
    Act F → Option (State W O F)
  | .schedule fc thread => schedStep tid s th (.schedule fc thread)
  | .scheduleRange fcs => schedStep tid s th (.scheduleRange fcs)
  | .newFiber => schedStep tid s th .newFiber
  | .setAutoStop => schedStep tid s th .setAutoStop
  | .setStopping => schedStep tid s th .setStopping
  | .stopping =>
    match th with
    | .inl _ => none
    | .inr o => some { s with outside := Function.update s.outside o (some .timer) }
  | .tickle => some (oweTickle s th true)
  | .addTimer t ms cb recurring now =>
    (s.timers.addTimer t ms cb recurring now).map
      (fun r => oweTickle { s with timers := r.1 } th r.2)
  | .cancelTimer t => (s.timers.cancel t).map (fun r => { s with timers := r.1 })
  | .refreshTimer t now => (s.timers.refresh t now).map (fun r => { s with timers := r.1 })
  | .resetTimer t ms fromNow now =>
    (s.timers.reset t ms fromNow now).map (fun r => oweTickle { s with timers := r.1 } th r.2.2)
  | .fd i c => (sectionCall s f c).bind (sectionStep s th i)

/-- A thread goes on only with its hands free, except to free them. -/
def step (tid : W → Int) (s : State W O F) (l : Label W O F) : Option (State W O F) :=
  match l with
  | .tickle th => tickleStep s th
  | .section th => if (s.hand th).tickling = .no then sectionNext tid s th else none
  | .run w r => if (s.hand (.inl w)).free then runStep tid s w r else none
  | .stopRead th now => if (s.hand th).free then stopReadStep s th now else none
  | .act th a => if (s.hand th).free then (user s th).bind (fun f => actStep tid s th f a) else none
  | .wake w _ | .expire w _ _ | .flush w | .handle w _ | .leave w =>
    if (s.hand (.inl w)).free && inIdle s w then idleStep tid s w l else none

def machine (tid : W → Int) : Lib.Machine (State W O F) (Label W O F) where
  init s := ∃ now, s = { timers := { previouseTime := now } }
  step := step tid

end HxSylar.IOManager
