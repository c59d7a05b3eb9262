import Mathlib.Algebra.Group.Nat.Defs
import HxSylar.TimerClock
import HxSylar.Proofs.Timer

namespace HxSylar

namespace TimerManager
variable {full : Prop} {m : TimerManager} {t : TimerId} {x : Timer}

/-- `reset` is its test and then its section. -/
theorem reset_eq_section (ho : m.object t = some x) {ms : UInt64} {fromNow : Bool} (now : UInt64)
    (he : ¬(ms == x.ms && !fromNow) = true) :
    (m.reset t ms fromNow now).map (fun r => (r.1, r.2.2)) = m.resetSection t ms fromNow now := by
  simp only [reset, resetSection, ho, if_neg he]
  cases m.setErase t m.timers <;> split <;> rfl

theorem resetSection_eq (h : m.Consistent full) (ho : m.object t = some x) (hc : x.cb.isSome)
    (ms : UInt64) (fromNow : Bool) (now : UInt64) :
    m.resetSection t ms fromNow now = some (m.resetLocked t x ms fromNow now) := by
  simp only [resetSection, ho, if_pos hc, h.ordered.setErase (h.mem_of_object t x ho hc),
    resetLocked]

end TimerManager

namespace TimerClock
open TimerManager

/-- Whether a sum of two times is the sum of their values. -/
def fits (a b : UInt64) : Bool := a.toNat + b.toNat < 2 ^ 64

theorem fits_add {a b : UInt64} (h : fits a b = true) : (a + b).toNat = a.toNat + b.toNat := by
  rw [UInt64.toNat_add]
  exact Nat.mod_eq_of_lt (of_decide_eq_true h)

/-- No deadline that the step computes wraps around. -/
def noWrap (s : State) : Label → Bool
  | .addTimer th _ ms _ _ => (s.reading th).all (fun now => fits now ms)
  | .refresh t => (s.manager.object t).all (fun x => x.cb.isNone || fits s.clock x.ms)
  | .reset t ms fromNow => (s.manager.object t).all (fun x =>
      x.cb.isNone || fits (if fromNow then s.clock else x.next - x.ms) ms)
  | .listExpiredCb th _ => (s.reading th).all (fun now =>
      (s.manager.expired now).all (fun t =>
        (s.manager.object t).all (fun x => !x.recurring || fits now x.ms)))
  | _ => true

/-- The step is not a `listExpiredCb` that takes the clock to have been set back. -/
def noRollover (s : State) : Label → Bool
  | .listExpiredCb th _ => (s.reading th).all (fun now =>
      s.manager.timers.isEmpty || !(s.manager.detectClockRollover now).2)
  | _ => true

section Conditions
variable {s : State} {th : Nat} {t : TimerId} {ms now : UInt64} {x : Timer}

theorem noWrap_addTimer {cb : Option Callback} {recurring : Bool}
    (hw : noWrap s (.addTimer th t ms cb recurring) = true) (hr : s.reading th = some now) :
    (now + ms).toNat = now.toNat + ms.toNat := by
  simp only [noWrap, hr, Option.all_some] at hw
  exact fits_add hw

theorem noWrap_refresh (hw : noWrap s (.refresh t) = true) (ho : s.manager.object t = some x)
    (hc : x.cb.isSome) : (s.clock + x.ms).toNat = s.clock.toNat + x.ms.toNat := by
  simp only [noWrap, ho, Option.all_some, Option.isNone_eq_false_iff.mpr hc, Bool.false_or] at hw
  exact fits_add hw

theorem noWrap_reset {fromNow : Bool} (hw : noWrap s (.reset t ms fromNow) = true)
    (ho : s.manager.object t = some x) (hc : x.cb.isSome) :
    ((if fromNow then s.clock else x.next - x.ms) + ms).toNat =
      (if fromNow then s.clock else x.next - x.ms).toNat + ms.toNat := by
  simp only [noWrap, ho, Option.all_some, Option.isNone_eq_false_iff.mpr hc, Bool.false_or] at hw
  exact fits_add hw

theorem noWrap_recurring {addr : TimerId} (hw : noWrap s (.listExpiredCb th addr) = true)
    (hr : s.reading th = some now) (hm : t ∈ s.manager.expired now)
    (ho : s.manager.object t = some x) (hrec : x.recurring = true) :
    (now + x.ms).toNat = now.toNat + x.ms.toNat := by
  simp only [noWrap, hr, Option.all_some] at hw
  have hfit := List.all_eq_true.mp hw t hm
  simp only [ho, Option.all_some, hrec, Bool.not_true, Bool.false_or] at hfit
  exact fits_add hfit

/-- Without a rollover only timers that have come to their deadline expire. -/
theorem noRollover_due {addr : TimerId} (hroll : noRollover s (.listExpiredCb th addr) = true)
    (hr : s.reading th = some now) (hm : t ∈ s.manager.expired now) :
    t ∈ s.manager.timers ∧ (s.manager.nextOf t).toNat ≤ now.toNat := by
  simp only [noRollover, hr, Option.all_some, Bool.or_eq_true, Bool.not_eq_true'] at hroll
  obtain ⟨hin, hdue⟩ := mem_expired.mp hm
  have hno : (s.manager.detectClockRollover now).2 = false := by
    apply hroll.resolve_left
    intro he
    rw [List.isEmpty_iff.mp he] at hin
    cases hin
  exact ⟨hin, UInt64.le_iff_toNat_le.mp (hdue.resolve_left (by simp [hno]))⟩

end Conditions

/-- The timer whose callback a section tests before it does anything. -/
def Label.subject : Label → Option TimerId
  | .cancel t | .refresh t | .reset t _ _ => some t
  | _ => none

/-- What a step can do. -/
inductive Move (s : State) : Label → State → Prop
  | tick {clock : UInt64} (hle : s.clock ≤ clock) : Move s (.tick clock) { s with clock := clock }
  | read {th : Nat} :
    Move s (.read th) { s with reading := Function.update s.reading th (some s.clock) }
  | idle {l : Label} {t : TimerId} {x : Timer} (hl : l.subject = some t)
    (ho : s.manager.object t = some x) (hc : ¬x.cb.isSome) : Move s l s
  | add {th : Nat} {t : TimerId} {ms now : UInt64} {cb : Option Callback} {recurring : Bool}
    (hr : s.reading th = some now) (ho : s.manager.object t = none) :
    Move s (.addTimer th t ms cb recurring)
      ((s.inserted ((s.manager.setObject t ⟨recurring, ms, now + ms, cb⟩).insertTimer t)).used th)
  | cancel {t : TimerId} {x : Timer} (ho : s.manager.object t = some x) (hc : x.cb.isSome) :
    Move s (.cancel t) { s with manager :=
      { s.manager.setObject t { x with cb := none } with timers := s.manager.timers.erase t } }
  | refresh {t : TimerId} {x : Timer} (ho : s.manager.object t = some x) (hc : x.cb.isSome) :
    Move s (.refresh t) { s with manager :=
      { s.manager.setObject t { x with next := s.clock + x.ms } with
        timers := (s.manager.setObject t { x with next := s.clock + x.ms }).setInsert t
          (s.manager.timers.erase t) } }
  | reset {t : TimerId} {ms : UInt64} {fromNow : Bool} {x : Timer}
    (ho : s.manager.object t = some x) (hc : x.cb.isSome) :
    Move s (.reset t ms fromNow) (s.inserted (s.manager.resetLocked t x ms fromNow s.clock))
  | next : Move s .getNextTimer { s with manager := { s.manager with tickled := false } }
  | expire {th : Nat} {addr : TimerId} {now : UInt64} (hr : s.reading th = some now) :
    Move s (.listExpiredCb th addr)
      ({ s with manager := (s.manager.listExpiredCb now addr).1 }.used th)

theorem step_move {full : Prop} {s s' : State} {l : Label} (h : s.manager.Consistent full)
    (hs : machine.step s l = some s') : Move s l s' := by
  simp only [machine] at hs
  cases l with
  | tick clock =>
    simp only [step] at hs
    split at hs
    · rename_i hle
      cases hs
      exact .tick hle
    · cases hs
  | read th =>
    cases hs
    exact .read
  | addTimer th t ms cb recurring =>
    obtain ⟨now, hr, hs⟩ := Option.bind_eq_some_iff.mp hs
    obtain ⟨r, ha, hs⟩ := Option.map_eq_some_iff.mp hs
    subst hs
    simp only [addTimer] at ha
    split at ha
    · cases ha
    · rename_i ho
      cases ha
      exact .add hr ho
  | cancel t =>
    obtain ⟨r, hr, hs⟩ := Option.map_eq_some_iff.mp hs
    subst hs
    cases ho : s.manager.object t with
    | none => simp [TimerManager.cancel, ho] at hr
    | some x =>
      by_cases hc : x.cb.isSome
      · rw [cancel_eq h ho hc] at hr
        cases hr
        exact .cancel ho hc
      · simp only [TimerManager.cancel, ho, if_neg hc] at hr
        cases hr
        exact .idle rfl ho hc
  | refresh t =>
    obtain ⟨r, hr, hs⟩ := Option.map_eq_some_iff.mp hs
    subst hs
    cases ho : s.manager.object t with
    | none => simp [TimerManager.refresh, ho] at hr
    | some x =>
      by_cases hc : x.cb.isSome
      · rw [refresh_eq h ho hc] at hr
        cases hr
        exact .refresh ho hc
      · simp only [TimerManager.refresh, ho, if_neg hc] at hr
        cases hr
        exact .idle rfl ho hc
  | reset t ms fromNow =>
    obtain ⟨r, hr, hs⟩ := Option.map_eq_some_iff.mp hs
    subst hs
    cases ho : s.manager.object t with
    | none => simp [resetSection, ho] at hr
    | some x =>
      by_cases hc : x.cb.isSome
      · rw [resetSection_eq h ho hc] at hr
        cases hr
        exact .reset ho hc
      · simp only [resetSection, ho, if_neg hc] at hr
        cases hr
        exact .idle rfl ho hc
  | getNextTimer =>
    cases hs
    rw [getNextTimer_fields]
    exact .next
  | listExpiredCb th addr =>
    obtain ⟨now, hr, hs⟩ := Option.map_eq_some_iff.mp hs
    subst hs
    exact .expire hr

/-- Every timer was armed at some time up to now, and so was every clock value that a
thread still holds. -/
structure Timed (s : State) : Prop where
  consistent : s.manager.Consistent False
  reading_le : ∀ th now, s.reading th = some now → now.toNat ≤ s.clock.toNat
  armed : ∀ t x, s.manager.object t = some x →
    x.ms.toNat ≤ x.next.toNat ∧ x.next.toNat ≤ s.clock.toNat + x.ms.toNat

section Timed
variable {s s' : State} {l : Label}

theorem reading_le_used (h : Timed s) (th : Nat) :
    ∀ th' now, (s.used th).reading th' = some now → now.toNat ≤ s.clock.toNat := by
  intro th' now hr
  by_cases he : th' = th
  · subst he
    simp [State.used] at hr
  · simp only [State.used, Function.update_of_ne he] at hr
    exact h.reading_le th' now hr

/-- Arming one timer at a time that has come. -/
theorem armed_setObject (h : Timed s) {t : TimerId} {x : Timer} {start : Nat}
    (hstart : start ≤ s.clock.toNat) (hx : x.next.toNat = start + x.ms.toNat) :
    ∀ u y, (s.manager.setObject t x).object u = some y →
      y.ms.toNat ≤ y.next.toNat ∧ y.next.toNat ≤ s.clock.toNat + y.ms.toNat := by
  intro u y hy
  by_cases hu : u = t
  · subst u
    rw [setObject_same] at hy
    cases hy
    omega
  · rw [setObject_other hu] at hy
    exact h.armed u y hy

/-- The start of a timer that keeps its own. -/
theorem start_eq (h : Timed s) {t : TimerId} {x : Timer} (ho : s.manager.object t = some x) :
    (x.next - x.ms).toNat = x.next.toNat - x.ms.toNat ∧
      x.next.toNat - x.ms.toNat ≤ s.clock.toNat := by
  obtain ⟨hle, hup⟩ := h.armed t x ho
  refine ⟨UInt64.toNat_sub_of_le _ _ (UInt64.le_iff_toNat_le.mpr hle), by omega⟩

theorem timed_init (hi : machine.init s) : Timed s := by
  obtain ⟨clock, he⟩ := hi
  subst he
  exact ⟨⟨.nil, by simp, by simp⟩, by simp, by simp⟩

theorem move_consistent (h : s.manager.Consistent False) (hm : Move s l s') :
    s'.manager.Consistent False := by
  cases hm with
  | tick | read | idle => exact h
  | @add th t ms now cb recurring hr ho =>
    have ha : s.manager.addTimer t ms cb recurring now =
        some ((s.manager.setObject t ⟨recurring, ms, now + ms, cb⟩).insertTimer t) := by
      simp only [addTimer, ho]
    exact addTimer_consistent h False.elim ha
  | cancel ho hc => exact cancel_consistent h (cancel_eq h ho hc)
  | refresh ho hc => exact refresh_consistent h (refresh_eq h ho hc s.clock)
  | reset ho hc => exact resetLocked_consistent h hc _ _ _
  | next => exact ⟨h.ordered, h.object_of_mem, h.mem_of_object⟩
  | expire hr => exact listExpiredCb_consistent h _ _

theorem timed_step (h : Timed s) (hw : noWrap s l = true) (hs : machine.step s l = some s') :
    Timed s' := by
  have hm := step_move h.consistent hs
  have hcons := move_consistent h.consistent hm
  cases hm with
  | tick hle =>
    have hle' := UInt64.le_iff_toNat_le.mp hle
    refine ⟨hcons, fun th now hr => ?_, fun t x ho => ?_⟩
    · exact Nat.le_trans (h.reading_le th now hr) hle'
    · have ha := h.armed t x ho
      simp only
      omega
  | @read th =>
    refine ⟨hcons, fun th' now hr => ?_, h.armed⟩
    by_cases he : th' = th
    · subst he
      simp only [Function.update_self, Option.some.injEq] at hr
      subst hr
      exact Nat.le_refl _
    · simp only [Function.update_of_ne he] at hr
      exact h.reading_le th' now hr
  | idle => exact h
  | @add th t ms now cb recurring hr ho =>
    exact ⟨hcons, reading_le_used h th,
      armed_setObject h (h.reading_le th now hr) (noWrap_addTimer hw hr)⟩
  | @cancel t x ho hc =>
    have ha := h.armed t x ho
    have hstart := start_eq h ho
    refine ⟨hcons, h.reading_le, armed_setObject h hstart.2 ?_⟩
    simp only
    omega
  | @refresh t x ho hc =>
    exact ⟨hcons, h.reading_le, armed_setObject h (Nat.le_refl _) (noWrap_refresh hw ho hc)⟩
  | @reset t ms fromNow x ho hc =>
    refine ⟨hcons, h.reading_le, armed_setObject h ?_ (noWrap_reset hw ho hc)⟩
    cases fromNow with
    | true => exact Nat.le_refl _
    | false =>
      have hstart := start_eq h ho
      simp only [Bool.false_eq_true, ↓reduceIte]
      omega
  | next => exact ⟨hcons, h.reading_le, h.armed⟩
  | @expire th addr now hr =>
    obtain ⟨k, hf, _⟩ := listExpiredCb_fired h.consistent now addr
    refine ⟨hcons, reading_le_used h th, fun t x hx => ?_⟩
    by_cases ht : t ∈ s.manager.expired now
    · obtain ⟨y, hy, _⟩ := h.consistent.object_of_mem t (mem_expired.mp ht).1
      have hx' : x = fired y now := Option.some.inj (hx.symm.trans (hf.changed t ht y hy))
      subst hx'
      have ha := h.armed t y hy
      have hle := h.reading_le th now hr
      simp only [State.used, fired]
      split
      · rename_i hrec
        simp only [noWrap_recurring hw hr ht hy hrec]
        omega
      · exact ha
    · exact h.armed t x ((hf.other t ht).symm.trans hx)

end Timed

end TimerClock
end HxSylar
