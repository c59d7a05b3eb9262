import HxSylar.Task
import HxSylar.Lib.Machine

namespace HxSylar.Scheduler

/-- Where a worker stands in `run()` (scheduler.cc:126-221). `dispatch` is past the
locked scan with what it took; `swapIn` is about to enter a fiber; `exec` runs it;
`swapOut` is inside a yield or past the fiber's end but not yet switched away;
`writeBack` is past `--m_active_thread_count_`. `idle` is inside the virtual `idle()`. -/
inductive Pc
  | start
  | scan
  | dispatch (ft : Option FiberAndThread)
  | swapIn (ft : FiberAndThread) (f : FiberId)
  | exec (ft : FiberAndThread) (f : FiberId)
  | swapOut (ft : FiberAndThread) (f : FiberId)
  | writeBack (ft : FiberAndThread) (f : FiberId)
  | idle
  | exited
  deriving DecidableEq, Repr

structure Worker where
  pc : Pc := .start
  cbFiber : Option FiberId := none
  idleTerm : Bool := false
  deriving DecidableEq, Repr

/-- What the threads share. The counters are integers, so that one decrement too
many would show. `state` is the `m_state` of every fiber up to `nextFiber`. -/
structure Shared where
  fibers : List FiberAndThread := []
  state : FiberId → FiberState := fun _ => .init
  nextFiber : FiberId := 0
  active : Int := 0
  idle : Int := 0
  autoStop : Bool := false
  stopping : Bool := false

namespace Shared

def setState (s : Shared) (f : FiberId) (st : FiberState) : Shared :=
  { s with state := Function.update s.state f st }

def newFiber (s : Shared) : Shared :=
  { s.setState s.nextFiber .init with nextFiber := s.nextFiber + 1 }

def valid (s : Shared) : Option Task → Bool
  | some (.fiber f) => f < s.nextFiber
  | _ => true

/-- `schedule(fc, thread)` (scheduler.h:26-36), with whether it goes on to tickle. -/
def schedule (s : Shared) (fc : Option Task) (thread : Int) : Shared × Bool :=
  let r := scheduleNoLock s.fibers fc thread
  ({ s with fibers := r.1 }, r.2)

def scheduleRange (s : Shared) (fcs : List (Option Task)) : Shared × Bool :=
  let r := HxSylar.scheduleRange s.fibers fcs
  ({ s with fibers := r.1 }, r.2)

/-- `Scheduler::stopping()` (scheduler.cc:225-229), under the queue's lock. -/
def isStopping (s : Shared) : Bool :=
  s.autoStop && s.stopping && s.fibers.isEmpty && decide (s.active = 0)

end Shared

structure Scan where
  taken : Option FiberAndThread
  rest : List FiberAndThread
  tickleMe : Bool
  deriving DecidableEq, Repr

/-- An entry for another thread, which the scan leaves and remembers. -/
def foreign (tid : Int) (ft : FiberAndThread) : Bool := ft.thread ≠ -1 && ft.thread ≠ tid

/-- An entry whose fiber is executing, which the scan leaves and forgets. -/
def executing (state : FiberId → FiberState) (ft : FiberAndThread) : Bool :=
  match ft.task with
  | .fiber f => state f == .exec
  | .cb _ => false

/-- The locked scan (scheduler.cc:143-165). -/
def scan (tid : Int) (state : FiberId → FiberState) : List FiberAndThread → Scan
  | [] => ⟨none, [], false⟩
  | ft :: rest =>
    if foreign tid ft then
      let r := scan tid state rest
      ⟨r.taken, ft :: r.rest, true⟩
    else if executing state ft then
      let r := scan tid state rest
      ⟨r.taken, ft :: r.rest, r.tickleMe⟩
    else ⟨some ft, rest, !rest.isEmpty⟩

/-- `finish` is the end of `MainFunc`, `leaveIdle` the return of `idle_fiber->swapIn()`. -/
inductive RunLabel
  | begin
  | dequeue
  | dispatch
  | swapIn
  | yieldToReady
  | yieldToHold
  | finish (except : Bool)
  | release
  | writeBack
  | leaveIdle (term : Bool)
  deriving DecidableEq, Repr

/-- The branches after the scan (scheduler.cc:171-213), up to the switch. Where
`Fiber::reset` finds a fiber that has not ended, its assertion stops the process. -/
def dispatch (s : Shared) (k : Worker) : Option FiberAndThread → Option (Shared × Worker)
  | none =>
    if k.idleTerm then some (s, { k with pc := .exited })
    else some ({ s with idle := s.idle + 1 }, { k with pc := .idle })
  | some ft =>
    match ft.task with
    | .fiber f =>
      if (s.state f).dead then some ({ s with active := s.active - 1 }, { k with pc := .scan })
      else some (s, { k with pc := .swapIn ft f })
    | .cb _ =>
      match k.cbFiber with
      | some f =>
        if (s.state f).dead || s.state f == .init then
          some (s.setState f .init, { k with pc := .swapIn ft f })
        else none
      | none => some (s.newFiber, { k with pc := .swapIn ft s.nextFiber, cbFiber := some s.nextFiber })

/-- The branches after `--m_active_thread_count_` (scheduler.cc:176-182, 192-201). The
state is read once; a callback's fiber is kept for the next callback only if it ended. -/
def writeBack (s : Shared) (k : Worker) (ft : FiberAndThread) (f : FiberId) :
    Shared × Worker × Bool :=
  match ft.task with
  | .fiber _ =>
    if s.state f = .ready then
      let r := s.schedule (some (.fiber f)) (-1)
      (r.1, { k with pc := .scan }, r.2)
    else if (s.state f).dead then (s, { k with pc := .scan }, false)
    else (s.setState f .hold, { k with pc := .scan }, false)
  | .cb _ =>
    if s.state f = .ready then
      let r := s.schedule (some (.fiber f)) (-1)
      (r.1, { k with pc := .scan, cbFiber := none }, r.2)
    else if (s.state f).dead then (s.setState f .init, { k with pc := .scan }, false)
    else (s.setState f .hold, { k with pc := .scan, cbFiber := none }, false)

/-- One step of a worker, with whether it now has to tickle. `none` is a step that
is not the worker's next one, or a failed assertion of swapIn or of a yield. -/
def runStep (tid : Int) (s : Shared) (k : Worker) (l : RunLabel) : Option (Shared × Worker × Bool) :=
  match l, k.pc with
  | .begin, .start => some (s, { k with pc := .scan }, false)
  | .dequeue, .scan =>
    let r := scan tid s.state s.fibers
    some ({ s with fibers := r.rest, active := s.active + r.taken.isSome.toNat },
      { k with pc := .dispatch r.taken }, r.tickleMe)
  | .dispatch, .dispatch ft => (dispatch s k ft).map (fun o => (o.1, o.2, false))
  | .swapIn, .swapIn ft f =>
    if s.state f = .exec then none
    else some (s.setState f .exec, { k with pc := .exec ft f }, false)
  | .yieldToReady, .exec ft f =>
    if s.state f = .exec then some (s.setState f .ready, { k with pc := .swapOut ft f }, false)
    else none
  | .yieldToHold, .exec ft f =>
    if s.state f = .exec then some (s, { k with pc := .swapOut ft f }, false) else none
  | .finish except, .exec ft f =>
    some (s.setState f (if except then .except else .term), { k with pc := .swapOut ft f }, false)
  | .release, .swapOut ft f =>
    some ({ s with active := s.active - 1 }, { k with pc := .writeBack ft f }, false)
  | .writeBack, .writeBack ft f => some (writeBack s k ft f)
  | .leaveIdle term, .idle =>
    some ({ s with idle := s.idle - 1 }, { k with pc := .scan, idleTerm := term }, false)
  | _, _ => none

structure State (W : Type) where
  shared : Shared := {}
  worker : W → Worker := fun _ => {}

/-- `stop()` sets its two flags one after the other. -/
inductive Label (W : Type)
  | schedule (fc : Option Task) (thread : Int)
  | scheduleRange (fcs : List (Option Task))
  | newFiber
  | setAutoStop
  | setStopping
  | run (w : W) (l : RunLabel)

variable {W : Type} [DecidableEq W]

def step (tid : W → Int) (s : State W) : Label W → Option (State W × Bool)
  | .schedule fc thread =>
    if s.shared.valid fc then
      some ({ s with shared := (s.shared.schedule fc thread).1 }, (s.shared.schedule fc thread).2)
    else none
  | .scheduleRange fcs =>
    if fcs.all s.shared.valid then
      some ({ s with shared := (s.shared.scheduleRange fcs).1 }, (s.shared.scheduleRange fcs).2)
    else none
  | .newFiber => some ({ s with shared := s.shared.newFiber }, false)
  | .setAutoStop => some ({ s with shared := { s.shared with autoStop := true } }, false)
  | .setStopping => some ({ s with shared := { s.shared with stopping := true } }, false)
  | .run w l =>
    (runStep (tid w) s.shared (s.worker w) l).map
      (fun o => (⟨o.1, Function.update s.worker w o.2.1⟩, o.2.2))

/-- The scheduler of `Scheduler`, whose own tickle does nothing. -/
def machine (tid : W → Int) : Lib.Machine (State W) (Label W) where
  init s := s = {}
  step s l := (step tid s l).map Prod.fst

end HxSylar.Scheduler
