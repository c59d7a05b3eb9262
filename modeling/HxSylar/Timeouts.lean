import Mathlib.Algebra.Ring.Int.Defs
import Mathlib.Algebra.Ring.Nat
import HxSylar.Timer

namespace HxSylar

namespace IOManager

/-- `MAX_TIMEOUT` (iomanager.cc:282), an `int`. -/
def maxTimeout : Int32 := 3000

def toInt (x : UInt64) : Int32 := x.toUInt32.toInt32

/-- One turn of the loop around `epoll_wait` (iomanager.cc:283-289). `MAX_TIMEOUT` is converted to
the `uint64_t` of the other branch. -/
def clampTimeout (nextTimeout : UInt64) : UInt64 :=
  if nextTimeout ≠ TimerManager.noTimer then
    if maxTimeout < toInt nextTimeout then maxTimeout.toInt64.toUInt64 else nextTimeout
  else maxTimeout.toInt64.toUInt64

/-- The timeouts passed to `epoll_wait` (iomanager.cc:281-296) when the first `interrupted` calls
return with EINTR. Each turn starts from what the turn before it left. -/
def epollTimeouts (nextTimeout : UInt64) : (interrupted : Nat) → List Int32
  | 0 => [toInt (clampTimeout nextTimeout)]
  | interrupted + 1 =>
    toInt (clampTimeout nextTimeout) :: epollTimeouts (clampTimeout nextTimeout) interrupted

end IOManager

structure Timespec where
  tvSec : Int64
  tvNsec : Int64
  deriving DecidableEq, Repr

/-- The hooked calls that sleep (hook.cc:160-204). -/
inductive SleepCall
  | sleep (seconds : UInt32)
  | usleep (usec : UInt32)
  | nanosleep (req : Timespec)
  deriving DecidableEq, Repr

namespace SleepCall

/-- A value of type `long`; the language leaves an overflow undefined. -/
def long (x : Int) : Option Int := if -2 ^ 63 ≤ x ∧ x < 2 ^ 63 then some x else none

def timeoutMs (req : Timespec) : Option Int32 :=
  (long (req.tvSec.toInt * 1000)).bind (fun s =>
    (long (s + (req.tvNsec.toInt.tdiv 1000).tdiv 1000)).map Int32.ofInt)

/-- The first argument of the call's `addTimer`, a `uint64_t`. `seconds * 1000` is
computed in `unsigned int`, and a negative `timeout_ms` is extended with its sign. -/
def delay : SleepCall → Option UInt64
  | .sleep seconds => some (seconds * 1000).toUInt64
  | .usleep usec => some (usec / 1000).toUInt64
  | .nanosleep req => (timeoutMs req).map (fun ms => ms.toInt64.toUInt64)

end SleepCall
end HxSylar
