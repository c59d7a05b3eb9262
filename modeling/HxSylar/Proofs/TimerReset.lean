import HxSylar.Proofs.Timer

namespace HxSylar.TimerManager

variable {m : TimerManager} {t : TimerId} {x : Timer}

/-- What `reset(ms, from_now)` is to do with timer `x` at `t`: tell whether the timer is
registered, give it its new period and deadline and leave it in the set once if it is,
and else change nothing. -/
structure Honest (m : TimerManager) (t : TimerId) (x : Timer) (ms : UInt64) (fromNow : Bool)
    (now : UInt64) (m' : TimerManager) (ret : Bool) : Prop where
  answer : ret = true ↔ t ∈ m.timers
  changed : ret = true →
    (∃ y, m'.object t = some y ∧ y.ms = ms ∧
      y.next = (if fromNow then now else x.next - x.ms) + ms) ∧
    m'.timers.count t = 1
  unchanged : ret = false → m'.object = m.object ∧ m'.timers = m.timers

/-- The early return of `reset` comes before the test of `m_cb`. -/
theorem reset_early (ho : m.object t = some x) {ms now : UInt64} {fromNow : Bool}
    (he : ms = x.ms ∧ fromNow = false) : m.reset t ms fromNow now = some (m, true, false) := by
  obtain ⟨hms, hf⟩ := he
  subst hms hf
  simp [reset, ho]

theorem reset_dead (ho : m.object t = some x) (hc : ¬x.cb.isSome) {ms now : UInt64} {fromNow : Bool}
    (he : ¬(ms = x.ms ∧ fromNow = false)) : m.reset t ms fromNow now = some (m, false, false) := by
  have he' : ¬(ms == x.ms && !fromNow) = true := by simpa using he
  simp only [reset, ho, if_neg he', if_neg hc]

theorem resetLocked_object (m : TimerManager) (t : TimerId) (x : Timer) (ms : UInt64)
    (fromNow : Bool) (now : UInt64) :
    (m.resetLocked t x ms fromNow now).1.object t = some
      { x with ms := ms, next := (if fromNow then now else x.next - x.ms) + ms } := by
  unfold resetLocked insertTimer
  exact setObject_same

/-- A locked reset of a timer with a callback is as it should be. -/
theorem resetLocked_honest (h : m.Consistent False) (ho : m.object t = some x) (hc : x.cb.isSome)
    (ms : UInt64) (fromNow : Bool) (now : UInt64) :
    Honest m t x ms fromNow now (m.resetLocked t x ms fromNow now).1 true := by
  have hobj := resetLocked_object m t x ms fromNow now
  have hcons := resetLocked_consistent (t := t) h hc ms fromNow now
  constructor
  · exact iff_of_true rfl (h.mem_of_object t x ho hc)
  · intro _
    refine ⟨⟨_, hobj, rfl, rfl⟩, ?_⟩
    apply List.count_eq_one_of_mem hcons.ordered.nodup
    exact hcons.mem_of_object t _ hobj hc
  · intro hf
    cases hf

/-- `reset` does what it is to do exactly when the early return (same period, not from
now) finds the timer registered and, on the other path, the timer is not one that was
registered with an empty callback. -/
theorem reset_honest_iff (hr : machine.Reachable m) (ho : m.object t = some x) (ms : UInt64)
    (fromNow : Bool) (now : UInt64) :
    (∃ m' ret front, m.reset t ms fromNow now = some (m', ret, front) ∧
      Honest m t x ms fromNow now m' ret) ↔
    (if ms = x.ms ∧ fromNow = false then t ∈ m.timers else t ∈ m.timers → x.cb.isSome) := by
  have h := consistent_reachable hr
  by_cases he : ms = x.ms ∧ fromNow = false
  · rw [if_pos he, reset_early ho he]
    constructor
    · intro hex
      obtain ⟨m', ret, front, heq, hon⟩ := hex
      cases heq
      exact hon.answer.mp rfl
    · intro hm
      refine ⟨m, true, false, rfl, ⟨iff_of_true rfl hm, ?_, ?_⟩⟩
      · intro _
        refine ⟨⟨x, ho, he.1.symm, ?_⟩, List.count_eq_one_of_mem h.ordered.nodup hm⟩
        rw [he.1, he.2, if_neg Bool.false_ne_true, UInt64.sub_add_cancel]
      · intro hf
        cases hf
  · rw [if_neg he]
    by_cases hc : x.cb.isSome
    · refine iff_of_true ?_ (fun _ => hc)
      have he' : ¬(ms == x.ms && !fromNow) = true := by simpa using he
      exact ⟨_, _, _, reset_eq h ho hc now he', resetLocked_honest h ho hc ms fromNow now⟩
    · rw [reset_dead ho hc he]
      constructor
      · intro hex hm
        obtain ⟨m', ret, front, heq, hon⟩ := hex
        cases heq
        exact absurd (hon.answer.mpr hm) Bool.false_ne_true
      · intro hn
        have hn : t ∉ m.timers := fun hm => hc (hn hm)
        refine ⟨m, false, false, rfl, ⟨iff_of_false Bool.false_ne_true hn, ?_, ?_⟩⟩
        · intro hf
          cases hf
        · intro _
          exact ⟨rfl, rfl⟩

/-- A pending timer is moved, from its start or from now. -/
theorem reset_honest_pending :
    ∃ m x, machine.Reachable m ∧ m.object 0 = some x ∧
      ∃ m' ret front, m.reset 0 50 false 120 = some (m', ret, front) ∧
        Honest m 0 x 50 false 120 m' ret := by
  obtain ⟨m, hr, hp⟩ := Lib.Machine.exists_of_exec machine (s := { previouseTime := 100 })
    (fun m => m.object 0 = some ⟨false, 10, 110, some 1⟩)
    [.addTimer 0 10 (some 1) false 100] ⟨100, rfl⟩ (by decide)
  refine ⟨m, _, hr, hp, ?_⟩
  apply (reset_honest_iff hr hp 50 false 120).mpr
  rw [if_neg (by decide)]
  exact fun _ => rfl

/-- A cancelled timer, reset to the period it had: `true`, and it stays unregistered. -/
theorem reset_cancelled :
    ∃ m x, machine.Reachable m ∧ m.object 0 = some x ∧ 0 ∉ m.timers ∧
      ¬∃ m' ret front, m.reset 0 10 false 120 = some (m', ret, front) ∧
        Honest m 0 x 10 false 120 m' ret := by
  obtain ⟨m, hr, hp, hn⟩ := Lib.Machine.exists_of_exec machine (s := { previouseTime := 100 })
    (fun m => m.object 0 = some ⟨false, 10, 110, none⟩ ∧ 0 ∉ m.timers)
    [.addTimer 0 10 (some 1) false 100, .cancel 0] ⟨100, rfl⟩ (by decide)
  refine ⟨m, _, hr, hp, hn, ?_⟩
  rw [reset_early hp ⟨rfl, rfl⟩]
  intro hex
  obtain ⟨m', ret, front, heq, hon⟩ := hex
  cases heq
  exact hn (hon.answer.mp rfl)

end HxSylar.TimerManager
