import HxSylar.Proofs.Registration

namespace HxSylar

/-- The bits idle() will trigger are all registered, or none of them is. The code
tests only that some of them are. -/
def FreshEvents (events real : Mask) : Prop :=
  events.inter real = Mask.none ∨ real.diff events = Mask.none

theorem triggerEvent_events {c c' : FdContext} {e : Event} {ps : List Push}
    (h : c.triggerEvent e = .ok (c', ps)) : c'.events = c.events.del e := by
  unfold FdContext.triggerEvent at h
  split at h
  · obtain ⟨x, _, h⟩ := bind_ok h
    obtain ⟨⟨y, qs⟩, _, h⟩ := bind_ok h
    cases h
    simp
  · contradiction

theorem handOver_fault {x : EventContext} {e : Event} {ft : Fault}
    (h : x.handOver e = .error ft) : ft = .nullScheduler := by
  unfold EventContext.handOver at h
  repeat' split at h
  all_goals cases h
  rfl

/-- The assertion of triggerEvent fails only on a clear bit. -/
theorem triggerEvent_fault {c : FdContext} {e e' : Event} {m : Mask}
    (h : c.triggerEvent e = .error (.triggerEvent m e')) : c.events.has e = false := by
  cases hb : c.events.has e with
  | false => rfl
  | true =>
    simp only [FdContext.triggerEvent, hb, ↓reduceIte] at h
    rcases bind_error h with h | ⟨x, _, h⟩
    · cases e <;> cases h
    · rcases bind_error h with h | ⟨y, _, h⟩
      · cases handOver_fault h
      · cases h

theorem triggerIf_fault {on : Bool} {c : FdContext} {n : Int} {e e' : Event} {m : Mask}
    (h : Slot.triggerIf on c n e = .error (.triggerEvent m e')) :
    on = true ∧ c.events.has e = false := by
  cases on with
  | false => cases h
  | true =>
    rcases bind_error h with h | ⟨y, _, h⟩
    · exact ⟨rfl, triggerEvent_fault h⟩
    · cases h

theorem triggerIf_events {on : Bool} {c c' : FdContext} {n n' : Int} {e : Event} {ps : List Push}
    (h : Slot.triggerIf on c n e = .ok (c', n', ps)) :
    c'.events = if on then c.events.del e else c.events := by
  cases on with
  | false =>
    cases h
    rfl
  | true =>
    obtain ⟨⟨d, qs⟩, hd, h⟩ := bind_ok h
    cases h
    simpa using triggerEvent_events hd

/-- A handled event whose bits are all still registered meets no failed assertion. -/
theorem dispatch_safe {s : Slot} {n : Int} {m : EpollMask} {rt : Bool}
    (hf : FreshEvents s.ctx.events (Slot.realEvents s.ctx.events m)) (k : Mask) (e : Event) :
    s.dispatch n m rt ≠ .error (.triggerEvent k e) := by
  intro h
  unfold Slot.dispatch at h
  simp only at h
  split at h
  · cases h
  · rename_i hne
    have hsub := hf.resolve_left hne
    simp only [Mask.diff, Mask.none, Mask.mk.injEq] at hsub
    cases rt with
    | false => cases h
    | true =>
      rcases bind_error h with h | ⟨⟨c1, n1, p⟩, h1, h⟩
      · obtain ⟨hon, hbit⟩ := triggerIf_fault h
        simp only [Mask.has] at hbit
        simp [hon, hbit] at hsub
      · have hev := triggerIf_events h1
        rcases bind_error h with h | ⟨y, _, h⟩
        · obtain ⟨hon, hbit⟩ := triggerIf_fault h
          have hw : s.ctx.events.write = false := by
            simp only [Mask.has, hev] at hbit
            split at hbit <;> simpa [Mask.del] using hbit
          simp [hon, hw] at hsub
        · cases h

/-- A registered event can be delivered: its scheduler pointer is not null. -/
def Deliverable (c : FdContext) : Prop :=
  (c.events.read = true → c.read.scheduler.isSome) ∧
  (c.events.write = true → c.write.scheduler.isSome)

/-- Conversely, a handled event with one bit registered and the other not always
runs into the assertion. -/
theorem dispatch_asserts {s : Slot} {n : Int} {m : EpollMask} (hd : Deliverable s.ctx)
    (hf : ¬ FreshEvents s.ctx.events (Slot.realEvents s.ctx.events m)) :
    ∃ k e, s.dispatch n m true = .error (.triggerEvent k e) := by
  generalize hreal : Slot.realEvents s.ctx.events m = real at hf
  obtain ⟨hne, hsub⟩ := not_or.mp hf
  simp only [Slot.dispatch, hreal, hne, ↓reduceIte]
  obtain ⟨rr, rw⟩ := real
  cases hr : s.ctx.events.read with
  | false =>
    have hon : rr = true := by
      cases rr <;> cases rw <;> cases hw : s.ctx.events.write <;>
        simp_all [Mask.inter, Mask.diff, Mask.none]
    refine ⟨s.ctx.events, .read, ?_⟩
    simp [hon, Slot.triggerIf, FdContext.triggerEvent, Mask.has, hr, bind, Except.bind]
  | true =>
    have hon : rr = true ∧ rw = true ∧ s.ctx.events.write = false := by
      cases rr <;> cases rw <;> cases hw : s.ctx.events.write <;>
        simp_all [Mask.inter, Mask.diff, Mask.none]
    obtain ⟨rfl, rfl, hw⟩ := hon
    obtain ⟨sch, hsch⟩ := Option.isSome_iff_exists.mp (hd.1 hr)
    refine ⟨Mask.none, .write, ?_⟩
    cases hcb : s.ctx.read.cb <;>
      simp [Slot.triggerIf, FdContext.triggerEvent, Mask.has, hr, FdContext.getContext,
        EventContext.handOver, hsch, hcb, hw, bind, Except.bind, Mask.del, FdContext.setContext,
        Mask.none]

namespace EventLoop
open Lib
variable {F : Type} [DecidableEq F]

/-- No event is handled whose bits are only partly registered any more. -/
def Fresh (s : EventLoop F) : Label F → Prop
  | .handle k _ => ∀ i m, s.inHand[k]? = some (i, m) →
      FreshEvents (s.registry.slot i).ctx.events
        (Slot.realEvents (s.registry.slot i).ctx.events m)
  | _ => True

/-- Only idle()'s own section records a fault, and it does so for the event it
was handling. -/
theorem step_fault {s t : EventLoop F} {l : Label F} {ft : Fault} (h : s.step l = some t)
    (hs : s.fault = none) (ht : t.fault = some ft) :
    ∃ k rt i m, l = .handle k rt ∧ s.inHand[k]? = some (i, m) ∧
      (s.registry.slot i).dispatch s.registry.pending m rt = .error ft := by
  simp only [step, hs, Option.isSome_none, Bool.false_eq_true, ↓reduceIte] at h
  cases l with
  | wait i m =>
    simp only at h
    split at h
    · cases h
      simp at ht
    · cases h
  | other i c =>
    simp only at h
    split at h
    · obtain ⟨o, _, rfl⟩ := Option.map_eq_some_iff.mp h
      simp at ht
    · cases h
  | handle k rt =>
    simp only at h
    split at h
    · cases h
    · rename_i i m hk
      split at h
      · cases h
        simp at ht
      · rename_i e he
        cases h
        simp only [Option.some.injEq] at ht
        subst ht
        refine ⟨k, rt, i, m, rfl, hk, ?_⟩
        unfold Registry.call at he
        split at he
        · cases he
        · rename_i hd
          cases he
          exact hd

theorem step_alive {s t : EventLoop F} {l : Label F} (h : s.step l = some t) : s.fault = none := by
  cases hf : s.fault with
  | none => rfl
  | some e => simp [step, hf] at h

/-- triggerEvent's assertion cannot fail in idle() as long as every event is handled
while its bits are all, or none, registered. The condition is exact: an event with
one bit still registered and another gone kills the process as soon as its
epoll_ctl succeeds. -/
theorem event_loop_assertion :
    (∀ s : EventLoop F, (machine F).ReachableUnder Fresh s →
      ∀ k e, s.fault ≠ some (.triggerEvent k e)) ∧
    ∀ s : EventLoop F, s.fault = none → ∀ k i m,
      s.inHand[k]? = some (i, m) → Deliverable (s.registry.slot i).ctx →
      ¬ Fresh s (.handle k true) →
      ∃ t m' e, (machine F).step s (.handle k true) = some t ∧
        t.fault = some (.triggerEvent m' e) := by
  constructor
  · intro s hr k e he
    -- A fault ends the run, so the last step alone decides.
    cases hr with
    | start hinit =>
      subst hinit
      cases he
    | next _ hok ht =>
      obtain ⟨j, rt, i, m, rfl, hk, hd⟩ := step_fault ht (step_alive ht) he
      exact dispatch_safe (hok i m hk) k e hd
  · intro s hs k i m hk hd hf
    have hfresh : ¬ FreshEvents (s.registry.slot i).ctx.events
        (Slot.realEvents (s.registry.slot i).ctx.events m) := by
      intro h
      apply hf
      intro i' m' hk'
      rw [hk] at hk'
      cases hk'
      exact h
    obtain ⟨m', e, hdis⟩ := dispatch_asserts (n := s.registry.pending) hd hfresh
    refine ⟨{ s with fault := some (.triggerEvent m' e) }, m', e, ?_, rfl⟩
    simp [machine, step, hs, hk, Registry.call, Slot.call, hdis]

/-- Both events are registered and reported; WRITE is cancelled before idle() takes
the mutex. READ is triggered, and then WRITE with its bit clear. -/
theorem event_loop_assertion_reached :
    ∃ s : EventLoop (Fin 1), (machine (Fin 1)).Reachable s ∧
      s.fault = some (.triggerEvent Mask.none .write) := by
  refine ⟨_, Machine.reachable_of_exec
    [.other 0 (.addEvent .read (some 1) ⟨some 0, 7, true⟩ true),
      .other 0 (.addEvent .write (some 2) ⟨some 0, 7, true⟩ true),
      .wait 0 ⟨true, true, false, false⟩,
      .other 0 (.cancelEvent .write true),
      .handle 0 true] rfl rfl, rfl⟩

end EventLoop
end HxSylar
