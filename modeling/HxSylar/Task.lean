import Mathlib.Data.List.Basic

namespace HxSylar

/-- Not the `m_id` of a `Fiber`: two owners of one `Fiber::ptr` hold the same `FiberId`. -/
abbrev FiberId := Nat

abbrev Callback := Nat

abbrev SchedulerId := Nat

inductive FiberState
  | init | hold | exec | term | ready | except
  deriving DecidableEq, Repr

/-- The test run() makes before entering a fiber and after leaving it. -/
def FiberState.dead : FiberState → Bool
  | .term | .except => true
  | _ => false

/-- What a queue entry carries: the constructors of `FiberAndThread` fill either
the fiber or the callback, and an entry with neither is never queued. -/
inductive Task
  | fiber (f : FiberId)
  | cb (c : Callback)
  deriving DecidableEq, Repr

/-- `Scheduler::FiberAndThread` (scheduler.h:76-100); `thread = -1` is any thread. -/
structure FiberAndThread where
  task : Task
  thread : Int
  deriving DecidableEq, Repr

/-- `scheduleNoLock` (scheduler.h:65-73) of a null fiber or empty function if `none`, with
`need_tickle`, which tests the queue before the push, not after it. -/
def scheduleNoLock (fibers : List FiberAndThread) (fc : Option Task) (thread : Int) :
    List FiberAndThread × Bool :=
  (fibers ++ (fc.map (fun t => ⟨t, thread⟩)).toList, fibers.isEmpty)

/-- The loop of `schedule(begin, end)` (scheduler.h:38-51): every element goes in
under one lock with thread -1, and the tickle flags are or-ed together. -/
def scheduleRange (fibers : List FiberAndThread) : List (Option Task) → List FiberAndThread × Bool
  | [] => (fibers, false)
  | fc :: rest =>
    let first := scheduleNoLock fibers fc (-1)
    let others := scheduleRange first.1 rest
    (others.1, first.2 || others.2)

theorem scheduleRange_fibers (fibers : List FiberAndThread) (fcs : List (Option Task)) :
    (scheduleRange fibers fcs).1 =
      fibers ++ fcs.filterMap (fun fc => fc.map (fun t => ⟨t, -1⟩)) := by
  induction fcs generalizing fibers with
  | nil => simp [scheduleRange]
  | cons fc rest ih =>
    rw [scheduleRange, ih]
    cases fc <;> simp [scheduleNoLock]

theorem scheduleRange_tickle (fcs : List (Option Task)) (h : fcs ≠ []) :
    (scheduleRange [] fcs).2 = true := by
  cases fcs with
  | nil => exact absurd rfl h
  | cons fc rest => simp [scheduleRange, scheduleNoLock]

end HxSylar
