import HxSylar.Timeouts

namespace HxSylar.IOManager

variable {x : UInt64}

theorem toInt_eq (x : UInt64) : (toInt x).toInt = ((x.toNat % 2 ^ 32 : Nat) : Int).bmod (2 ^ 32) := by
  change x.toUInt32.toBitVec.toInt = _
  rw [BitVec.toInt_eq_toNat_bmod]
  simp

theorem toInt_of_low (h : x.toNat % 2 ^ 32 < 2 ^ 31) : (toInt x).toInt = (x.toNat % 2 ^ 32 : Nat) := by
  rw [toInt_eq]
  apply Int.bmod_eq_of_le <;> omega

/-- A value with bit 31 set is a negative `int`. -/
theorem toInt_of_high (h : ¬x.toNat % 2 ^ 32 < 2 ^ 31) : (toInt x).toInt < 0 := by
  rw [toInt_eq, Int.bmod_def]
  split <;> omega

theorem clampTimeout_of_high (h : ¬x.toNat % 2 ^ 32 < 2 ^ 31) (hx : x ≠ TimerManager.noTimer) :
    clampTimeout x = x := by
  have hneg := toInt_of_high h
  have hmax : maxTimeout.toInt = 3000 := rfl
  unfold clampTimeout
  rw [if_pos hx, if_neg]
  rw [Int32.lt_iff_toInt_lt]
  omega

theorem clampTimeout_of_low (h : x.toNat % 2 ^ 32 < 2 ^ 31) :
    clampTimeout x = if 3000 < x.toNat % 2 ^ 32 then 3000 else x := by
  have hx : x ≠ TimerManager.noTimer := by
    intro he
    subst he
    exact absurd h (by decide)
  have hlow := toInt_of_low h
  have hmax : maxTimeout.toInt = 3000 := rfl
  have hiff : maxTimeout < toInt x ↔ 3000 < x.toNat % 2 ^ 32 := by
    rw [Int32.lt_iff_toInt_lt]
    omega
  unfold clampTimeout
  rw [if_pos hx]
  simp only [hiff]
  rfl

/-- A retry passes what the call before it passed. -/
theorem clampTimeout_idem (x : UInt64) : clampTimeout (clampTimeout x) = clampTimeout x := by
  by_cases hx : x = TimerManager.noTimer
  · subst hx
    rfl
  · by_cases h : x.toNat % 2 ^ 32 < 2 ^ 31
    · rw [clampTimeout_of_low h]
      split
      · rfl
      · rename_i hle
        rw [clampTimeout_of_low h, if_neg hle]
    · rw [clampTimeout_of_high h hx, clampTimeout_of_high h hx]

theorem mem_epollTimeouts {t : Int32} {interrupted : Nat} :
    t ∈ epollTimeouts x interrupted ↔ t = toInt (clampTimeout x) := by
  induction interrupted generalizing x with
  | zero => simp [epollTimeouts]
  | succ n ih =>
    rw [epollTimeouts, List.mem_cons, ih, clampTimeout_idem, or_self]

/-- A timeout is not negative (which would mean no timeout), not above `MAX_TIMEOUT`, and
not above the remaining time that `getNextTimer()` returned, if there is a timer. -/
def BoundedWait (nextTimeout : UInt64) (t : Int32) : Prop :=
  0 ≤ t.toInt ∧ t.toInt ≤ 3000 ∧
    (nextTimeout ≠ TimerManager.noTimer → t.toInt ≤ nextTimeout.toNat)

theorem boundedWait_iff (x : UInt64) :
    BoundedWait x (toInt (clampTimeout x)) ↔
      x = TimerManager.noTimer ∨ x.toNat % 2 ^ 32 < 2 ^ 31 := by
  by_cases hx : x = TimerManager.noTimer
  · subst hx
    exact iff_of_true ⟨by decide, by decide, fun h => absurd rfl h⟩ (.inl rfl)
  by_cases h : x.toNat % 2 ^ 32 < 2 ^ 31
  · refine iff_of_true ?_ (.inr h)
    have hmod := Nat.mod_le x.toNat (2 ^ 32)
    rw [clampTimeout_of_low h]
    split
    · have hmax : (toInt 3000).toInt = 3000 := rfl
      refine ⟨?_, ?_, fun _ => ?_⟩ <;> omega
    · have hlow := toInt_of_low h
      refine ⟨?_, ?_, fun _ => ?_⟩ <;> omega
  · refine iff_of_false ?_ ?_
    · intro hb
      have hneg := toInt_of_high h
      rw [clampTimeout_of_high h hx] at hb
      exact absurd hb.1 (by omega)
    · intro ho
      exact ho.elim hx h

/-- Every timeout that `idle()` passes to `epoll_wait`, retries included, is bounded,
exactly when there is no timer or bit 31 of the remaining time is clear. -/
theorem epoll_wait_bounded_iff (nextTimeout : UInt64) (interrupted : Nat) :
    (∀ t ∈ epollTimeouts nextTimeout interrupted, BoundedWait nextTimeout t) ↔
      nextTimeout = TimerManager.noTimer ∨ nextTimeout.toNat % 2 ^ 32 < 2 ^ 31 := by
  simp only [mem_epollTimeouts, forall_eq]
  exact boundedWait_iff nextTimeout

/-- One timer, 2^31 ms away: the first call already waits without a timeout. -/
theorem epoll_wait_forever :
    (({} : TimerManager).addTimer 0 2147483648 (some 0) false 0).map
        (fun r => (r.1.getNextTimer 0).2) = some 2147483648 ∧
      epollTimeouts 2147483648 0 = [-2147483648] ∧
      ¬∀ t ∈ epollTimeouts 2147483648 0, BoundedWait 2147483648 t := by
  refine ⟨rfl, rfl, ?_⟩
  intro h
  exact absurd (h (-2147483648) (List.mem_singleton.mpr rfl)).1 (by decide)

end HxSylar.IOManager

namespace HxSylar.SleepCall

/-- The duration asked for, in nanoseconds. -/
def requested : SleepCall → Nat
  | .sleep seconds => seconds.toNat * 10 ^ 9
  | .usleep usec => usec.toNat * 10 ^ 3
  | .nanosleep req => req.tvSec.toInt.toNat * 10 ^ 9 + req.tvNsec.toInt.toNat

/-- What a caller may pass: every number of seconds or microseconds, and a `timespec` that
is a duration. -/
def Valid : SleepCall → Prop
  | .nanosleep req => 0 ≤ req.tvSec.toInt ∧ 0 ≤ req.tvNsec.toInt ∧ req.tvNsec.toInt < 10 ^ 9
  | _ => True

/-- The call reaches `addTimer`, with a delay that covers the requested duration. -/
def NotEarly (c : SleepCall) : Prop := ∃ ms, c.delay = some ms ∧ c.requested ≤ ms.toNat * 10 ^ 6

/-- The milliseconds of a `timespec`, as nanosleep means to compute them. -/
def wholeMs (req : Timespec) : Nat := req.tvSec.toInt.toNat * 1000 + req.tvNsec.toInt.toNat / 10 ^ 6

/-- The arguments on which nothing is cut off: `seconds * 1000` fits an `unsigned int`,
`usec` is a number of milliseconds, and a `timespec` is a number of milliseconds that fits
an `int`, or has the sign bit of an `int` set in it, which makes the delay enormous. -/
def Exact : SleepCall → Prop
  | .sleep seconds => seconds.toNat * 1000 < 2 ^ 32
  | .usleep usec => 1000 ∣ usec.toNat
  | .nanosleep req => wholeMs req < 2 ^ 63 ∧
      (2 ^ 31 ≤ wholeMs req % 2 ^ 32 ∨ wholeMs req < 2 ^ 31 ∧ 10 ^ 6 ∣ req.tvNsec.toInt.toNat)

theorem sleep_notEarly_iff (seconds : UInt32) :
    NotEarly (.sleep seconds) ↔ Exact (.sleep seconds) := by
  unfold NotEarly delay requested Exact
  simp only [Option.some.injEq, exists_eq_left', UInt32.toNat_toUInt64, UInt32.toNat_mul,
    UInt32.reduceToNat]
  omega

theorem usleep_notEarly_iff (usec : UInt32) : NotEarly (.usleep usec) ↔ Exact (.usleep usec) := by
  unfold NotEarly delay requested Exact
  simp only [Option.some.injEq, exists_eq_left', UInt32.toNat_toUInt64, UInt32.toNat_div,
    UInt32.reduceToNat]
  omega

/-- On a duration the two divisions are those of natural numbers, and the product cannot
overflow unless the sum does. -/
theorem timeoutMs_eq {req : Timespec} (h : Valid (.nanosleep req)) :
    timeoutMs req = if wholeMs req < 2 ^ 63 then some (Int32.ofInt (wholeMs req)) else none := by
  obtain ⟨hs, hn, -⟩ := h
  obtain ⟨s, hs⟩ := Int.eq_ofNat_of_zero_le hs
  obtain ⟨n, hn⟩ := Int.eq_ofNat_of_zero_le hn
  have hdiv : ((n : Int).tdiv 1000).tdiv 1000 = (n / 10 ^ 6 : Nat) := by
    have hn : (n : Int).tdiv 1000 = (n : Int) / 1000 := Int.tdiv_eq_ediv_of_nonneg (by omega)
    rw [hn, Int.tdiv_eq_ediv_of_nonneg (by omega)]
    omega
  unfold timeoutMs long wholeMs
  rw [hs, hn, hdiv, Int.toNat_natCast, Int.toNat_natCast]
  by_cases hsum : s * 1000 + n / 10 ^ 6 < 2 ^ 63
  · rw [if_pos (by omega), Option.bind_some, if_pos (by omega), if_pos hsum, Option.map_some]
    congr 2
  · rw [if_neg hsum]
    split
    · rw [Option.bind_some, if_neg (by omega), Option.map_none]
    · rfl

/-- A delay that was negative as an `int` is within 2^31 of 2^64. -/
theorem toNat_extended (ms : Int32) :
    ms.toInt64.toUInt64.toNat = if ms.toInt < 0 then 2 ^ 64 - ms.toInt.natAbs else ms.toInt.toNat := by
  have h : ms.toInt = (ms.toInt64.toUInt64.toNat : Int).bmod (2 ^ 64) := by
    rw [← Int32.toInt_toInt64]
    exact BitVec.toInt_eq_toNat_bmod _
  have hlt := ms.toInt64.toUInt64.toNat_lt
  rw [Int.bmod_def] at h
  split at h <;> split <;> omega

theorem nanosleep_notEarly_iff {req : Timespec} (h : Valid (.nanosleep req)) :
    NotEarly (.nanosleep req) ↔ Exact (.nanosleep req) := by
  unfold NotEarly
  rw [delay, timeoutMs_eq h]
  by_cases hlt : wholeMs req < 2 ^ 63
  · have hreq : requested (.nanosleep req) = wholeMs req * 10 ^ 6 + req.tvNsec.toInt.toNat % 10 ^ 6 := by
      rw [requested, wholeMs]
      omega
    have hms : (Int32.ofInt (wholeMs req)).toInt = ((wholeMs req : Int)).bmod (2 ^ 32) := Int32.toInt_ofInt
    simp only [if_pos hlt, Option.map_some, Option.some.injEq, exists_eq_left', toNat_extended, hreq,
      hms, Exact]
    rw [Int.bmod_def]
    split <;> split <;> omega
  · rw [if_neg hlt, Option.map_none]
    refine iff_of_false ?_ (fun hexact => hlt hexact.1)
    intro hearly
    obtain ⟨ms, hnone, -⟩ := hearly
    cases hnone

/-- A hooked sleep asks its timer for at least the requested duration exactly when nothing
is cut off from the argument. -/
theorem sleep_not_early_iff {c : SleepCall} (h : c.Valid) : c.NotEarly ↔ c.Exact := by
  cases c with
  | sleep seconds => exact sleep_notEarly_iff seconds
  | usleep usec => exact usleep_notEarly_iff usec
  | nanosleep req => exact nanosleep_notEarly_iff h

theorem sleep_not_early_second : NotEarly (.nanosleep ⟨1, 5000000⟩) := by
  have hv : Valid (.nanosleep ⟨1, 5000000⟩) := by
    refine ⟨?_, ?_, ?_⟩ <;> decide
  apply (sleep_not_early_iff hv).mpr
  refine ⟨by decide, .inr ⟨by decide, by decide⟩⟩

/-- 4294968 seconds are 704 ms to the timer, 999 microseconds none, and neither are 2^32
milliseconds. -/
theorem sleep_early :
    ¬NotEarly (.sleep 4294968) ∧ ¬NotEarly (.usleep 999) ∧
      Valid (.nanosleep ⟨4294967, 296000000⟩) ∧ ¬NotEarly (.nanosleep ⟨4294967, 296000000⟩) := by
  have hv : Valid (.nanosleep ⟨4294967, 296000000⟩) := by
    refine ⟨?_, ?_, ?_⟩ <;> decide
  refine ⟨?_, ?_, hv, ?_⟩
  · intro h
    have he : (4294968 : UInt32).toNat * 1000 < 2 ^ 32 := (sleep_notEarly_iff _).mp h
    exact absurd he (by decide)
  · intro h
    have he : 1000 ∣ (999 : UInt32).toNat := (usleep_notEarly_iff _).mp h
    exact absurd he (by decide)
  · intro h
    obtain ⟨-, h | h⟩ := (nanosleep_notEarly_iff hv).mp h
    · exact absurd h (by decide)
    · exact absurd h.1 (by decide)

end HxSylar.SleepCall
