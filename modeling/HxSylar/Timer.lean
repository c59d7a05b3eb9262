import Mathlib.Logic.Function.Basic
import HxSylar.Task

namespace HxSylar

/-- An address is not used again while anything points to the object, so objects stay. -/
abbrev TimerId := Nat

/-- `Timer` (timer.h:65-75) without `m_manager`. Times are `uint64_t` milliseconds. -/
structure Timer where
  recurring : Bool := false
  ms : UInt64 := 0
  next : UInt64 := 0
  cb : Option Callback := none
  deriving DecidableEq, Repr

/-- `Timer::Comparator` (timer.cc:7-25) on pointers that are not null. -/
def Timer.comparator (lhs rhs : UInt64 × TimerId) : Bool :=
  if lhs.1 < rhs.1 then true
  else if rhs.1 < lhs.1 then false
  else lhs.2 < rhs.2

/-- `TimerManager` (timer.h:94-173) with all its objects, `m_timers` in the order of the set. -/
structure TimerManager where
  object : TimerId → Option Timer := fun _ => none
  timers : List TimerId := []
  tickled : Bool := false
  previouseTime : UInt64 := 0

namespace TimerManager

def nextOf (m : TimerManager) (t : TimerId) : UInt64 :=
  match m.object t with
  | some x => x.next
  | none => 0

def cbOf (m : TimerManager) (t : TimerId) : Option Callback := (m.object t).bind Timer.cb

def before (m : TimerManager) (t u : TimerId) : Bool :=
  Timer.comparator (m.nextOf t, t) (m.nextOf u, u)

def setInsert (m : TimerManager) (t : TimerId) : List TimerId → List TimerId
  | [] => [t]
  | u :: us =>
    if m.before t u then t :: u :: us
    else if m.before u t then u :: m.setInsert t us
    else u :: us

def setErase (m : TimerManager) (t : TimerId) : List TimerId → Option (List TimerId)
  | [] => none
  | u :: us =>
    if m.before u t then (m.setErase t us).map (u :: ·)
    else if m.before t u then none
    else some us

def setObject (m : TimerManager) (t : TimerId) (x : Timer) : TimerManager :=
  { m with object := Function.update m.object t (some x) }

/-- The locked part of `addTimer(val, lock)` (timer.cc:167-178), with `at_front`, on
which `onTimerInsertedAtFront()` is called after the lock is released. -/
def insertTimer (m : TimerManager) (t : TimerId) : TimerManager × Bool :=
  let timers := m.setInsert t m.timers
  let atFront := timers.head? == some t && !m.tickled
  ({ m with timers := timers, tickled := m.tickled || atFront }, atFront)

/-- `addTimer(ms, cb, recurring)` (timer.cc:91-97) at clock `now`, the object being
allocated at `t`. `addConditionTimer` is the same with a bound callback. -/
def addTimer (m : TimerManager) (t : TimerId) (ms : UInt64) (cb : Option Callback)
    (recurring : Bool) (now : UInt64) : Option (TimerManager × Bool) :=
  match m.object t with
  | some _ => none
  | none => some ((m.setObject t ⟨recurring, ms, now + ms, cb⟩).insertTimer t)

/-- `Timer::cancel` (timer.cc:35-44). `none` is `erase(end())`. -/
def cancel (m : TimerManager) (t : TimerId) : Option (TimerManager × Bool) :=
  match m.object t with
  | none => none
  | some x =>
    if x.cb.isSome then
      (m.setErase t m.timers).map (fun timers =>
        ({ m.setObject t { x with cb := none } with timers := timers }, true))
    else some (m, false)

def refresh (m : TimerManager) (t : TimerId) (now : UInt64) : Option (TimerManager × Bool) :=
  match m.object t with
  | none => none
  | some x =>
    if x.cb.isSome then
      match m.setErase t m.timers with
      | none => some (m, false)
      | some timers =>
        let m := m.setObject t { x with next := now + x.ms }
        some ({ m with timers := m.setInsert t timers }, true)
    else some (m, false)

def reset (m : TimerManager) (t : TimerId) (ms : UInt64) (fromNow : Bool) (now : UInt64) :
    Option (TimerManager × Bool × Bool) :=
  match m.object t with
  | none => none
  | some x =>
    if ms == x.ms && !fromNow then some (m, true, false)
    else if x.cb.isSome then
      match m.setErase t m.timers with
      | none => some (m, false, false)
      | some timers =>
        let start := if fromNow then now else x.next - x.ms
        let m := { m.setObject t { x with ms := ms, next := start + ms } with timers := timers }
        let r := m.insertTimer t
        some (r.1, true, r.2)
    else some (m, false, false)

def noTimer : UInt64 := 0xffffffffffffffff

def getNextTimer (m : TimerManager) (now : UInt64) : TimerManager × UInt64 :=
  let m := { m with tickled := false }
  match m.timers with
  | [] => (m, noTimer)
  | t :: _ => (m, if m.nextOf t ≤ now then 0 else m.nextOf t - now)

def detectClockRollover (m : TimerManager) (now : UInt64) : TimerManager × Bool :=
  ({ m with previouseTime := now },
    now < m.previouseTime && now < m.previouseTime - 60 * 60 * 1000)

/-- The body of the loop over `expired` (timer.cc:156-164). -/
def expireOne (m : TimerManager) (now : UInt64) (t : TimerId) : TimerManager :=
  match m.object t with
  | none => m
  | some x =>
    if x.recurring then
      let m := m.setObject t { x with next := now + x.ms }
      { m with timers := m.setInsert t m.timers }
    else m.setObject t { x with cb := none }

def expireAll (m : TimerManager) (now : UInt64) :
    List TimerId → TimerManager × List (Option Callback)
  | [] => (m, [])
  | t :: ts =>
    let r := (m.expireOne now t).expireAll now ts
    (r.1, m.cbOf t :: r.2)

/-- The write-locked part of `listExpiredCb` (timer.cc:138-164), with `now_timer` at `addr`. The
read-locked test before it only returns early when this part would do nothing. -/
def listExpiredCb (m : TimerManager) (now : UInt64) (addr : TimerId) :
    TimerManager × List (Option Callback) :=
  match m.timers with
  | [] => (m, [])
  | first :: _ =>
    let (m, rollover) := m.detectClockRollover now
    if !rollover && now < m.nextOf first then (m, [])
    else
      let earlier := if rollover then m.timers
        else m.timers.takeWhile (fun t => Timer.comparator (m.nextOf t, t) (now, addr))
      let later := m.timers.drop earlier.length
      let same := later.takeWhile (fun t => m.nextOf t = now)
      { m with timers := later.drop same.length }.expireAll now (earlier ++ same)

end TimerManager
end HxSylar
