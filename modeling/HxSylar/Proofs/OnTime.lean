import HxSylar.Proofs.TimerClock

namespace HxSylar.TimerClock
open TimerManager

/-- A callback that `listExpiredCb` handed out at `now`: when its timer was last armed and
for how long. -/
structure Delivery where
  now : Nat
  start : Nat
  ms : Nat
  deriving DecidableEq, Repr

/-- What an observer with unbounded numbers writes down. -/
structure Ledger where
  start : TimerId → Nat := fun _ => 0
  delivered : List Delivery := []

/-- The book-keeping. `reset` without `from_now` keeps the start of a timer. -/
def Ledger.record (g : Ledger) (s : State) : Label → Ledger
  | .addTimer th t _ _ _ =>
    { g with start := Function.update g.start t ((s.reading th).elim 0 UInt64.toNat) }
  | .refresh t =>
    if (s.manager.cbOf t).isSome then
      { g with start := Function.update g.start t s.clock.toNat }
    else g
  | .reset t _ fromNow =>
    if (s.manager.cbOf t).isSome && fromNow then
      { g with start := Function.update g.start t s.clock.toNat }
    else g
  | .listExpiredCb th _ =>
    match s.reading th with
    | none => g
    | some now =>
      { start := fun t =>
          if t ∈ s.manager.expired now ∧ (s.manager.object t).any Timer.recurring then now.toNat
          else g.start t
        delivered := (s.manager.expired now).map (fun t =>
          ⟨now.toNat, g.start t, (s.manager.object t).elim 0 (fun x => x.ms.toNat)⟩) ++ g.delivered }
  | _ => g

def bookkeeping : Lib.Machine (State × Ledger) Label :=
  machine.observe {} (fun g s l _ => g.record s l)

/-- No callback was handed out before its time. -/
def OnTime (g : Ledger) : Prop := ∀ d ∈ g.delivered, d.start + d.ms ≤ d.now

section OnTime
variable {s s' : State} {g : Ledger} {l : Label}

/-- The deadline of every registered timer is the one in the ledger. -/
def Booked (s : State) (g : Ledger) : Prop :=
  ∀ t ∈ s.manager.timers, ∀ x, s.manager.object t = some x →
    x.next.toNat = g.start t + x.ms.toNat

/-- Arming one timer and booking it. -/
theorem booked_setObject (hb : Booked s g) {t : TimerId} {x : Timer} {start : Nat}
    (hx : x.next.toNat = start + x.ms.toNat) {s' : State}
    (hobj : s'.manager.object = (s.manager.setObject t x).object)
    (hmem : ∀ u ∈ s'.manager.timers, u ≠ t → u ∈ s.manager.timers) {g' : Ledger}
    (hg : g'.start = Function.update g.start t start) : Booked s' g' := by
  intro u hu y hy
  rw [hobj] at hy
  by_cases he : u = t
  · subst u
    rw [setObject_same] at hy
    cases hy
    rw [hg, Function.update_self]
    exact hx
  · rw [setObject_other he] at hy
    rw [hg, Function.update_of_ne he]
    exact hb u (hmem u hu he) y hy

theorem booked_step (h : Timed s) (hb : Booked s g) (hw : noWrap s l = true)
    (hs : machine.step s l = some s') : Booked s' (g.record s l) := by
  have hcons := h.consistent
  cases step_move hcons hs with
  | tick | read | next => exact hb
  | @idle _ t x hl ho hc =>
    have hcb : ¬(s.manager.cbOf t).isSome := by rwa [cbOf_of_object ho]
    cases l with
    | cancel u => exact hb
    | refresh u =>
      cases hl
      simp only [Ledger.record, if_neg hcb]
      exact hb
    | reset u ms fromNow =>
      cases hl
      simp only [Ledger.record, Bool.and_eq_true, hcb]
      exact hb
    | _ => cases hl
  | @add th t ms now cb recurring hrd ho =>
    have hn := hcons.not_mem_of_none ho
    refine booked_setObject (t := t) (x := ⟨recurring, ms, now + ms, cb⟩) hb
      (noWrap_addTimer hw hrd) ?_ ?_ ?_
    · rfl
    · intro u hu hne
      exact ((mem_setInsert (m := s.manager.setObject t ⟨recurring, ms, now + ms, cb⟩) hn).mp
        hu).resolve_left hne
    · simp only [Ledger.record, hrd, Option.elim_some]
  | @cancel t x ho hc =>
    intro u hu y hy
    have hne : u ≠ t := fun he => (hcons.erased t x).2.1 (he ▸ hu)
    exact hb u (List.mem_of_mem_erase hu) y ((setObject_other hne).symm.trans hy)
  | @refresh t x ho hc =>
    have hn := (hcons.erased t { x with next := s.clock + x.ms }).2.1
    refine booked_setObject (t := t) (x := { x with next := s.clock + x.ms }) hb
      (noWrap_refresh hw ho hc) ?_ ?_ ?_
    · rfl
    · intro u hu hne
      exact List.mem_of_mem_erase (((mem_setInsert hn).mp hu).resolve_left hne)
    · simp only [Ledger.record, cbOf_of_object ho, if_pos hc]
  | @reset t ms fromNow x ho hc =>
    have hn := (hcons.erased t x).2.1
    have hstart : (if fromNow then s.clock else x.next - x.ms).toNat =
        if fromNow then s.clock.toNat else g.start t := by
      cases fromNow with
      | true => rfl
      | false =>
        have hbook := hb t (hcons.mem_of_object t x ho hc) x ho
        simp only [Bool.false_eq_true, ↓reduceIte, (start_eq h ho).1]
        omega
    refine booked_setObject (t := t)
      (x := { x with ms := ms, next := (if fromNow then s.clock else x.next - x.ms) + ms }) hb
      (noWrap_reset hw ho hc) ?_ ?_ ?_
    · rfl
    · intro u hu hne
      exact List.mem_of_mem_erase (((mem_setInsert hn).mp hu).resolve_left hne)
    · rw [hstart]
      cases fromNow with
      | true => simp only [Ledger.record, cbOf_of_object ho, hc, Bool.and_self, ↓reduceIte]
      | false =>
        simp only [Ledger.record, Bool.and_false, Bool.false_eq_true, ↓reduceIte,
          Function.update_eq_self]
  | @expire th addr now hrd =>
    obtain ⟨k, hf, hk, _⟩ := listExpiredCb_fired hcons now addr
    intro u hu y hy
    simp only [Ledger.record, hrd]
    rcases (hf.mem_iff u).mp hu with hm | ⟨hm, x, hx, hrec⟩
    · obtain ⟨hm, hn⟩ := (hk u).mp hm
      rw [if_neg (fun hbad => hn hbad.1)]
      exact hb u hm y ((hf.other u hn).symm.trans hy)
    · have hx' : s.manager.object u = some x := hx
      have hnew := hf.changed u hm x hx
      simp only [fired, if_pos hrec] at hnew
      obtain rfl := Option.some.inj (hnew.symm.trans hy)
      rw [if_pos ⟨hm, by simp [hx', hrec]⟩]
      exact noWrap_recurring hw hrd hm hx' hrec

/-- What is handed out without a rollover has come to its deadline. -/
theorem onTime_step (h : Timed s) (hb : Booked s g) (ht : OnTime g)
    (hr : noRollover s l = true) : OnTime (g.record s l) := by
  cases l with
  | listExpiredCb th addr =>
    cases hrd : s.reading th with
    | none =>
      simp only [Ledger.record, hrd]
      exact ht
    | some now =>
      simp only [Ledger.record, hrd]
      intro d hd
      rcases List.mem_append.mp hd with hnew | hold
      · obtain ⟨t, hm, he⟩ := List.mem_map.mp hnew
        subst he
        obtain ⟨hin, hle⟩ := noRollover_due hr hrd hm
        obtain ⟨x, hx, _⟩ := h.consistent.object_of_mem t hin
        rw [nextOf_of_object hx] at hle
        have hbook := hb t hin x hx
        simp only [hx, Option.elim_some]
        omega
      · exact ht d hold
  | refresh t | reset t ms fromNow =>
    simp only [Ledger.record]
    split <;> exact ht
  | _ => exact ht

/-- No timer fires early in any run in which no deadline wraps around and no
`listExpiredCb` takes a late start for a clock that was set back. -/
theorem never_early {p : State × Ledger}
    (hr : bookkeeping.ReachableUnder
      (fun p l => noWrap p.1 l = true ∧ noRollover p.1 l = true) p) : OnTime p.2 := by
  have h : Timed p.1 ∧ Booked p.1 p.2 ∧ OnTime p.2 := by
    apply Lib.Machine.ReachableUnder.invariant ?_ ?_ hr
    · intro q hi
      obtain ⟨clock, he⟩ := hi.1
      refine ⟨timed_init hi.1, ?_, ?_⟩
      · intro t ht
        rw [he] at ht
        cases ht
      · intro d hd
        rw [hi.2] at hd
        cases hd
    · intro q l q' hq ho hs
      obtain ⟨hs, he⟩ := Lib.Machine.observe_step hs
      rw [he]
      exact ⟨timed_step hq.1 ho.1 hs, booked_step hq.1 hq.2.1 ho.1 hs,
        onTime_step hq.1 hq.2.1 hq.2.2 ho.2⟩
  exact h.2.2

/-- A recurring timer that fires twice. -/
theorem never_early_recurring :
    ∃ p, bookkeeping.ReachableUnder (fun p l => noWrap p.1 l = true ∧ noRollover p.1 l = true) p ∧
      p.2.delivered = [⟨2400, 1300, 1000⟩, ⟨1300, 0, 1000⟩] ∧ OnTime p.2 := by
  obtain ⟨p, hr, hp⟩ := Lib.Machine.exists_of_execUnder bookkeeping
    (fun p l => noWrap p.1 l = true ∧ noRollover p.1 l = true)
    (s := ({ manager := { previouseTime := 0 }, clock := 0 }, {}))
    (fun p => p.2.delivered = [⟨2400, 1300, 1000⟩, ⟨1300, 0, 1000⟩])
    [.read 0, .addTimer 0 0 1000 (some 1) true, .tick 1300, .read 0, .listExpiredCb 0 9,
      .tick 2400, .read 0, .listExpiredCb 0 9] ⟨⟨0, rfl⟩, rfl⟩ (by decide)
  exact ⟨p, hr, hp, never_early hr⟩

/-- A timer for the longest period is due at once: its deadline wraps around. -/
theorem longest_period_fires_at_once :
    ∃ p, bookkeeping.Reachable p ∧ ¬OnTime p.2 := by
  obtain ⟨p, hr, hp⟩ := Lib.Machine.exists_of_exec bookkeeping
    (s := ({ manager := { previouseTime := 1000 }, clock := 1000 }, {}))
    (fun p => p.2.delivered = [⟨1000, 1000, 18446744073709551615⟩])
    [.read 0, .addTimer 0 0 0xffffffffffffffff (some 1) false, .read 0, .listExpiredCb 0 9]
    ⟨⟨1000, rfl⟩, rfl⟩ (by decide)
  refine ⟨p, hr, fun h => ?_⟩
  have hd := h ⟨1000, 1000, 18446744073709551615⟩ (by rw [hp]; exact List.mem_singleton.mpr rfl)
  simp only at hd
  omega

end OnTime

end HxSylar.TimerClock
