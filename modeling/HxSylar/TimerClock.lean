import HxSylar.Timer
import HxSylar.Lib.Machine

namespace HxSylar

/-- The locked part of `reset` (timer.cc:65-84), with `at_front`. The test before it reads
`m_ms` without the lock, so what it found need not hold here. -/
def TimerManager.resetSection (m : TimerManager) (t : TimerId) (ms : UInt64) (fromNow : Bool)
    (now : UInt64) : Option (TimerManager × Bool) :=
  match m.object t with
  | none => none
  | some x =>
    if x.cb.isSome then
      match m.setErase t m.timers with
      | none => some (m, false)
      | some timers =>
        let start := if fromNow then now else x.next - x.ms
        let m := { m.setObject t { x with ms := ms, next := start + ms } with timers := timers }
        some (m.insertTimer t)
    else some (m, false)

namespace TimerClock

/-- A manager that several threads use under one clock. The constructor of a timer and
`listExpiredCb` read the clock before they take the lock: `reading` is what a
thread has read and not used yet. `notified` counts the sections that found their
timer at the front; `onTimerInsertedAtFront` is called after each of them. -/
structure State where
  manager : TimerManager
  clock : UInt64
  reading : Nat → Option UInt64 := fun _ => none
  notified : Nat := 0

inductive Label
  | tick (clock : UInt64)
  | read (th : Nat)
  | addTimer (th : Nat) (t : TimerId) (ms : UInt64) (cb : Option Callback) (recurring : Bool)
  | cancel (t : TimerId)
  | refresh (t : TimerId)
  | reset (t : TimerId) (ms : UInt64) (fromNow : Bool)
  | getNextTimer
  | listExpiredCb (th : Nat) (addr : TimerId)
  deriving DecidableEq, Repr

def State.inserted (s : State) (r : TimerManager × Bool) : State :=
  { s with manager := r.1, notified := s.notified + (if r.2 then 1 else 0) }

def State.used (s : State) (th : Nat) : State :=
  { s with reading := Function.update s.reading th none }

def step (s : State) : Label → Option State
  | .tick clock => if s.clock ≤ clock then some { s with clock := clock } else none
  | .read th => some { s with reading := Function.update s.reading th (some s.clock) }
  | .addTimer th t ms cb recurring =>
    (s.reading th).bind (fun now =>
      (s.manager.addTimer t ms cb recurring now).map (fun r => (s.inserted r).used th))
  | .cancel t => (s.manager.cancel t).map (fun r => { s with manager := r.1 })
  | .refresh t => (s.manager.refresh t s.clock).map (fun r => { s with manager := r.1 })
  | .reset t ms fromNow => (s.manager.resetSection t ms fromNow s.clock).map s.inserted
  | .getNextTimer => some { s with manager := (s.manager.getNextTimer s.clock).1 }
  | .listExpiredCb th addr =>
    (s.reading th).map (fun now =>
      { s with manager := (s.manager.listExpiredCb now addr).1 }.used th)

def machine : Lib.Machine State Label where
  init s := ∃ clock, s = { manager := { previouseTime := clock }, clock := clock }
  step := step

end TimerClock
end HxSylar
