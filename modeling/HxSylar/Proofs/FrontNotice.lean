import HxSylar.Proofs.TimerClock

namespace HxSylar.TimerClock
open TimerManager

/-- A `getNextTimer` that has returned: the deadline its wait ends at, none if there was
no timer, and how many notifications there had been. A call that finds the first
timer overdue returns 0; the deadline it is for has then passed. -/
structure Wait where
  deadline : Option UInt64
  seen : Nat
  deriving DecidableEq, Repr

/-- A timer due at `next` is due before the wait ends. -/
def Wait.Late (w : Wait) (next : UInt64) : Prop :=
  match w.deadline with
  | none => True
  | some d => next < d

instance (w : Wait) (next : UInt64) : Decidable (w.Late next) :=
  match hw : w.deadline with
  | none => .isTrue (by simp [Wait.Late, hw])
  | some d => decidable_of_iff (next < d) (by simp [Wait.Late, hw])

/-- The machine with the waits that were handed out. -/
def waiting : Lib.Machine (State × List Wait) Label :=
  machine.observe [] (fun ws s l _ =>
    match l with
    | .getNextTimer => ⟨s.manager.timers.head?.map s.manager.nextOf, s.notified⟩ :: ws
    | _ => ws)

/-- Someone who waits too long has been notified since. -/
def Notified (p : State × List Wait) : Prop :=
  ∀ w ∈ p.2, ∀ t ∈ p.1.manager.timers, w.Late (p.1.manager.nextOf t) → w.seen < p.1.notified

section Waiting
variable {s s' : State} {l : Label} {w : Wait}

theorem Wait.Late.mono {a b : UInt64} (h : w.Late b) (hle : a.toNat ≤ b.toNat) : w.Late a := by
  simp only [Wait.Late] at *
  split at h
  · trivial
  · rw [UInt64.lt_iff_toNat_lt] at *
    omega

/-- No notification is due to this wait yet, and none has been made since. -/
def Quiet (w : Wait) (s : State) : Prop :=
  s.manager.tickled = false ∧ ∀ t ∈ s.manager.timers, ¬w.Late (s.manager.nextOf t)

/-- Every wait has been notified, or needs not to be. -/
def Settled (w : Wait) (s : State) : Prop := w.seen < s.notified ∨ w.seen = s.notified ∧ Quiet w s

/-- A timer that was not put first has an earlier one before it. -/
theorem earlier_of_not_first {m : TimerManager} {t : TimerId} {l : List TimerId} (hn : t ∉ l)
    (h : (m.setInsert t l).head? ≠ some t) : ∃ v ∈ l, m.due v ≤ m.due t := by
  cases l with
  | nil => exact absurd rfl h
  | cons v l =>
    have hv : t ≠ v := fun he => hn (he ▸ List.mem_cons_self)
    by_cases hb : m.before t v = true
    · simp [setInsert, hb] at h
    · have hb' := before_iff.mp ((before_total hv).resolve_left hb)
      exact ⟨v, List.mem_cons_self, by omega⟩

/-- An insertion is at the front and notifies, or it does not lower the minimum. -/
theorem settled_insert {m : TimerManager} {t : TimerId} (hq : Settled w s)
    (hn : t ∉ m.timers) (htick : m.tickled = s.manager.tickled)
    (hmem : ∀ u ∈ m.timers, u ∈ s.manager.timers ∧ m.nextOf u = s.manager.nextOf u) :
    Settled w (s.inserted (m.insertTimer t)) := by
  rcases hq with hlt | ⟨heq, htickled, hquiet⟩
  · left
    simp only [State.inserted]
    omega
  · have hnext : ∀ u, (s.inserted (m.insertTimer t)).manager.nextOf u = m.nextOf u := fun _ => rfl
    have hlate : ∀ u ∈ m.timers, ¬w.Late (m.nextOf u) := by
      intro u hu
      rw [(hmem u hu).2]
      exact hquiet u (hmem u hu).1
    cases hfront : (m.insertTimer t).2 with
    | true =>
      left
      simp only [State.inserted, hfront]
      simp [heq]
    | false =>
      right
      have hhead : (m.setInsert t m.timers).head? ≠ some t := by
        intro he
        simp [insertTimer, he, htick, htickled] at hfront
      refine ⟨by simp [State.inserted, hfront, heq], ?_, ?_⟩
      · simp [State.inserted, insertTimer, hhead, htick, htickled]
      · intro u hu hl
        rw [hnext] at hl
        rcases (mem_setInsert hn).mp hu with he | hm
        · subst he
          obtain ⟨v, hv, hle⟩ := earlier_of_not_first hn hhead
          exact hlate v hv (hl.mono hle)
        · exact hlate u hm hl

/-- A refreshed timer is not due earlier than it was: the clock has not gone back. -/
theorem settled_refresh {t : TimerId} {x : Timer} (h : Timed s)
    (hw : noWrap s (.refresh t) = true) (ho : s.manager.object t = some x) (hc : x.cb.isSome)
    (hq : Settled w s) :
    Settled w { s with manager :=
      { s.manager.setObject t { x with next := s.clock + x.ms } with
        timers := (s.manager.setObject t { x with next := s.clock + x.ms }).setInsert t
          (s.manager.timers.erase t) } } := by
  rcases hq with hlt | ⟨heq, htickled, hquiet⟩
  · exact .inl hlt
  · refine .inr ⟨heq, htickled, fun u hu hl => ?_⟩
    obtain ⟨_, hn, hother⟩ := h.consistent.erased t { x with next := s.clock + x.ms }
    rcases (mem_setInsert hn).mp hu with he | hm
    · subst he
      have hold := hquiet u (h.consistent.mem_of_object u x ho hc)
      rw [nextOf_of_object ho] at hold
      have hnew : (s.manager.setObject u { x with next := s.clock + x.ms }).nextOf u =
          s.clock + x.ms := nextOf_of_object setObject_same
      have hl' : w.Late (s.clock + x.ms) := hnew ▸ hl
      apply hold
      apply hl'.mono
      rw [noWrap_refresh hw ho hc]
      exact (h.armed u x ho).2
    · have hne : u ≠ t := fun he => hn (he ▸ hm)
      have hnext : (s.manager.setObject t { x with next := s.clock + x.ms }).nextOf u =
          s.manager.nextOf u := nextOf_congr (setObject_other hne)
      exact hquiet u (List.mem_of_mem_erase hm) (hnext ▸ hl)

/-- A recurring timer that was due goes behind `now`. -/
theorem settled_expire {th : Nat} {addr : TimerId} {now : UInt64} (h : Timed s)
    (hw : noWrap s (.listExpiredCb th addr) = true)
    (hr : noRollover s (.listExpiredCb th addr) = true) (hrd : s.reading th = some now)
    (hq : Settled w s) :
    Settled w ({ s with manager := (s.manager.listExpiredCb now addr).1 }.used th) := by
  obtain ⟨k, hf, hk, _⟩ := listExpiredCb_fired h.consistent now addr
  rcases hq with hlt | ⟨heq, htickled, hquiet⟩
  · exact .inl hlt
  · refine .inr ⟨heq, hf.tickled_eq.trans htickled, fun u hu hl => ?_⟩
    rcases (hf.mem_iff u).mp hu with hm | ⟨hm, x, hx, hrec⟩
    · obtain ⟨hm, hn⟩ := (hk u).mp hm
      have hnext : (s.manager.listExpiredCb now addr).1.nextOf u = s.manager.nextOf u :=
        nextOf_congr (hf.other u hn)
      exact hquiet u hm (hnext ▸ hl)
    · obtain ⟨hin, hle⟩ := noRollover_due hr hrd hm
      have hnew := hf.changed u hm x hx
      simp only [fired, if_pos hrec] at hnew
      have hnext : (s.manager.listExpiredCb now addr).1.nextOf u = now + x.ms :=
        nextOf_of_object hnew
      apply hquiet u hin
      have hl' : w.Late (now + x.ms) := hnext ▸ hl
      apply hl'.mono
      rw [noWrap_recurring hw hrd hm hx hrec]
      omega

theorem settled_step (h : Timed s) (hw : noWrap s l = true) (hr : noRollover s l = true)
    (hs : machine.step s l = some s') (hq : Settled w s) : Settled w s' := by
  have hcons := h.consistent
  cases step_move hcons hs with
  | tick | read | idle => exact hq
  | @add th t ms now cb recurring hrd ho =>
    have hn := hcons.not_mem_of_none ho
    have hnext : ∀ u ∈ s.manager.timers,
        (s.manager.setObject t ⟨recurring, ms, now + ms, cb⟩).nextOf u = s.manager.nextOf u := by
      intro u hu
      exact nextOf_congr (setObject_other (fun he => hn (he ▸ hu)))
    exact settled_insert (m := s.manager.setObject t ⟨recurring, ms, now + ms, cb⟩) hq hn rfl
      (fun u hu => ⟨hu, hnext u hu⟩)
  | @cancel t x ho hc =>
    rcases hq with hlt | ⟨heq, htickled, hquiet⟩
    · exact .inl hlt
    · refine .inr ⟨heq, htickled, fun u hu => ?_⟩
      have hne : u ≠ t := fun he => (hcons.erased t x).2.1 (he ▸ hu)
      have hnext : (s.manager.setObject t { x with cb := none }).nextOf u = s.manager.nextOf u :=
        nextOf_congr (setObject_other hne)
      exact hnext ▸ hquiet u (List.mem_of_mem_erase hu)
  | refresh ho hc => exact settled_refresh h hw ho hc hq
  | @reset t ms fromNow x ho hc =>
    generalize hy : ({ x with ms := ms, next := (if fromNow then s.clock else x.next - x.ms) + ms } :
      Timer) = y
    obtain ⟨_, hn, _⟩ := hcons.erased t y
    simp only [resetLocked, hy]
    refine settled_insert hq ?_ ?_ ?_
    · exact hn
    · rfl
    · intro u hu
      exact ⟨List.mem_of_mem_erase hu,
        nextOf_congr (setObject_other (fun he => hn (he ▸ hu)))⟩
  | next =>
    rcases hq with hlt | ⟨heq, _, hquiet⟩
    · exact .inl hlt
    · exact .inr ⟨heq, rfl, hquiet⟩
  | expire hrd => exact settled_expire h hw hr hrd hq

/-- The wait that `getNextTimer` hands out ends with its first timer. -/
theorem settled_new (h : Timed s) :
    Settled ⟨s.manager.timers.head?.map s.manager.nextOf, s.notified⟩
      { s with manager := { s.manager with tickled := false } } := by
  refine .inr ⟨rfl, rfl, fun t ht hl => ?_⟩
  have hord := h.consistent.ordered
  have hm : t ∈ s.manager.timers := ht
  cases htimers : s.manager.timers with
  | nil =>
    rw [htimers] at hm
    cases hm
  | cons v rest =>
    have hlt : s.manager.nextOf t < s.manager.nextOf v := by
      rw [htimers] at hl
      exact hl
    rw [UInt64.lt_iff_toNat_lt] at hlt
    rw [htimers] at hm hord
    rcases List.mem_cons.mp hm with he | hr
    · subst he
      omega
    · have hb := before_iff.mp ((List.pairwise_cons.mp hord).1 t hr)
      simp only [due] at hb
      omega

theorem waiting_step {p p' : State × List Wait} (h : Timed p.1 ∧ ∀ w ∈ p.2, Settled w p.1)
    (hw : noWrap p.1 l = true) (hr : noRollover p.1 l = true)
    (hs : waiting.step p l = some p') : Timed p'.1 ∧ ∀ w ∈ p'.2, Settled w p'.1 := by
  obtain ⟨s, ws⟩ := p
  obtain ⟨s', ws'⟩ := p'
  obtain ⟨hs, he⟩ := Lib.Machine.observe_step hs
  simp only at hs he hw hr
  refine ⟨timed_step h.1 hw hs, fun w hmem => ?_⟩
  simp only [he] at hmem
  split at hmem
  · rcases List.mem_cons.mp hmem with hnew | hold
    · subst hnew
      cases step_move h.1.consistent hs with
      | idle hl => cases hl
      | next => exact settled_new h.1
    · exact settled_step h.1 hw hr hs (h.2 w hold)
  · exact settled_step h.1 hw hr hs (h.2 w hmem)

/-- No notification is lost in any run in which no deadline wraps around and no
`listExpiredCb` takes a late start for a clock that was set back. -/
theorem no_lost_notification {p : State × List Wait}
    (hr : waiting.ReachableUnder
      (fun p l => noWrap p.1 l = true ∧ noRollover p.1 l = true) p) : Notified p := by
  have h : Timed p.1 ∧ ∀ w ∈ p.2, Settled w p.1 := by
    apply Lib.Machine.ReachableUnder.invariant ?_ ?_ hr
    · intro q hi
      refine ⟨timed_init hi.1, fun w hw => ?_⟩
      rw [hi.2] at hw
      cases hw
    · intro q l q' hq ho hs
      exact waiting_step hq ho.1 ho.2 hs
  intro w hw t ht hl
  rcases h.2 w hw with hlt | ⟨_, _, hquiet⟩
  · exact hlt
  · exact absurd hl (hquiet t ht)

/-- A waiter is overtaken by a timer that is due earlier, and is told so. -/
theorem no_lost_notification_overtaken :
    ∃ p, waiting.ReachableUnder (fun p l => noWrap p.1 l = true ∧ noRollover p.1 l = true) p ∧
      (p.2 = [⟨some 1100, 1⟩] ∧ p.1.manager.timers = [1, 0]) ∧ Notified p := by
  obtain ⟨p, hr, hp⟩ := Lib.Machine.exists_of_execUnder waiting
    (fun p l => noWrap p.1 l = true ∧ noRollover p.1 l = true)
    (s := ({ manager := { previouseTime := 1000 }, clock := 1000 }, []))
    (fun p => p.2 = [⟨some 1100, 1⟩] ∧ p.1.manager.timers = [1, 0])
    [.read 0, .addTimer 0 0 100 (some 1) false, .getNextTimer, .tick 1010, .read 1,
      .addTimer 1 1 20 (some 2) false, .refresh 0] ⟨⟨1000, rfl⟩, rfl⟩ (by decide)
  exact ⟨p, hr, hp, no_lost_notification hr⟩

/-- A thread reads the clock in `listExpiredCb` and is held up for more than an hour. Its
section then takes the clock to have been set back and arms the recurring timer
from the old reading, below the deadline of a waiter that nobody tells. -/
theorem stale_reading_loses_notification :
    ∃ p, waiting.ReachableUnder (fun p l => noWrap p.1 l = true) p ∧ ¬Notified p := by
  obtain ⟨p, hr, hp⟩ := Lib.Machine.exists_of_execUnder waiting (fun p l => noWrap p.1 l = true)
    (s := ({ manager := { previouseTime := 1000000000000 }, clock := 1000000000000 }, []))
    (fun p => ∃ w ∈ p.2, ∃ t ∈ p.1.manager.timers,
      w.Late (p.1.manager.nextOf t) ∧ ¬w.seen < p.1.notified)
    [.read 0, .tick 1000004000000, .read 1, .addTimer 1 0 5000 (some 1) true, .read 1,
      .listExpiredCb 1 9, .getNextTimer, .listExpiredCb 0 9] ⟨⟨1000000000000, rfl⟩, rfl⟩
    (by decide)
  obtain ⟨w, hw, t, ht, hl, hn⟩ := hp
  exact ⟨p, hr, fun h => hn (h w hw t ht hl)⟩

end Waiting

end HxSylar.TimerClock
