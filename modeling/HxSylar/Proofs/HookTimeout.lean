import HxSylar.Hook
import HxSylar.Proofs.Registration

namespace HxSylar

/-- One if this waiter is the fiber, else none. -/
def held (f : FiberId) (w : Option Task) : Nat := if w = some (.fiber f) then 1 else 0

def countFiber (f : FiberId) (ps : List Push) : Nat := ps.countP (fun p => p.task = .fiber f)

/-- A section that neither drops a registration nor starts one for the fiber moves
the fiber's wait from the context to the scheduler, or leaves it. -/
theorem Turn.moves {f : FiberId} {c : SectionCall} {e : Event} {w w' : Option Task}
    {ps : List Push} (h : Turn c e w w' ps) (hdrop : ∀ rt, c ≠ .delEvent e rt)
    (hstart : ∀ cb who rt, c = .addEvent e cb who rt → who.waiter cb ≠ .fiber f) :
    held f w = held f w' + countFiber f ps := by
  cases h with
  | keep => simp [countFiber]
  | start cb who rt hc => simp [held, countFiber, hstart cb who rt hc]
  | wake v sch _ =>
    by_cases hv : v = .fiber f <;> simp [held, countFiber, hv]
  | drop v rt hc => exact absurd hc (hdrop rt)

/-- If the fiber waits for no other event, all that is pushed of it stood for this one. -/
theorem countFiber_event {f : FiberId} {e : Event} {ps : List Push}
    (h : ∀ e', e' ≠ e → countFiber f (ps.filter (fun p => p.event = e')) = 0) :
    countFiber f ps = countFiber f (ps.filter (fun p => p.event = e)) := by
  unfold countFiber
  rw [List.countP_filter]
  apply List.countP_congr
  intro p hp
  simp only [decide_eq_true_eq, Bool.and_eq_true]
  refine ⟨fun ht => ⟨ht, ?_⟩, And.left⟩
  by_contra hne
  have hz := h p.event hne
  rw [countFiber, List.countP_eq_zero] at hz
  exact hz p (List.mem_filter.mpr ⟨hp, by simp⟩) (by simpa using ht)

/-- A cancelEvent whose epoll_ctl succeeds takes the waiter out. -/
theorem cancelEvent_takes {s : Slot} {n : Int} {e : Event} {out : Section} (hs : s.Coherent)
    (h : s.call n (.cancelEvent e true) = .ok out) : out.slot.ctx.waiter e = none := by
  simp only [Slot.call, Slot.cancelEvent] at h
  split at h
  · obtain ⟨⟨c, ps⟩, hc, h⟩ := bind_ok h
    cases h
    exact (FdContext.triggerEvent_spec hs.ctx hc).2.2.1
  · rename_i hb
    cases h
    have := hs.ctx.has e
    rw [Bool.not_eq_true] at hb
    rw [hb] at this
    simpa using this.symm

/-- One whose epoll_ctl fails does nothing. -/
theorem cancelEvent_failed {s : Slot} {n : Int} {e : Event} {out : Section}
    (h : s.call n (.cancelEvent e false) = .ok out) : out = ⟨s, n, false, []⟩ := by
  simp only [Slot.call, Slot.cancelEvent] at h
  split at h <;> cases h <;> rfl

/-- addEvent returns 0 exactly when its epoll_ctl does, and never pushes. -/
theorem addEvent_ret {s : Slot} {n : Int} {e : Event} {cb : Option Callback}
    {who : CallingThread} {rt : Bool} {out : Section}
    (h : s.call n (.addEvent e cb who rt) = .ok out) : out.ret = rt ∧ out.pushes = [] := by
  simp only [Slot.call, Slot.addEvent] at h
  split at h
  · cases h
  · cases rt with
    | false =>
      cases h
      exact ⟨rfl, rfl⟩
    | true =>
      obtain ⟨x, _, h⟩ := bind_ok h
      split at h
      · split at h
        · cases h
          exact ⟨rfl, rfl⟩
        · split at h <;> cases h
          exact ⟨rfl, rfl⟩
      · cases h

namespace HookedCall
open Lib
variable {h : HookedCall}

/-- Registered, and not yet running again. -/
def Pc.waiting : Pc → Bool
  | .yielding | .suspended => true
  | _ => false

/-- Callbacks of the call that are past their test: each has a cancelEvent ahead. -/
def State.ahead (s : State) : Nat := s.tested + s.cancelling

/-- The timeout is lost: the fiber is switched out, its timer has fired, and nothing
will queue it on the timer's behalf. -/
def Lost (h : HookedCall) (s : State) : Prop :=
  s.pc = .suspended ∧ s.armed = false ∧ s.cancelled = true ∧ s.queued = 0 ∧
  ¬ (s.slot.ctx.waiter h.event = some (.fiber h.fiber) ∧ 0 < s.ahead)

/-- The event is not registered after the timeout has come and gone, and no timeout
fails in its epoll_ctl while it is the last one. -/
def InTime (h : HookedCall) (s : State) : Label → Prop
  | .addEvent rt => rt = true → s.cancelled = true → 0 < s.ahead
  | .callbackCancel rt =>
      s.slot.ctx.waiter h.event = some (.fiber h.fiber) → rt = true ∨ 1 < s.ahead
  | _ => True

/-- The wait is in one place, and a timeout that has fired is on its way to it. -/
structure Inv (h : HookedCall) (s : State) : Prop where
  coherent : s.slot.Coherent
  elsewhere : ∀ e, e ≠ h.event → held h.fiber (s.slot.ctx.waiter e) = 0
  token : held h.fiber (s.slot.ctx.waiter h.event) + s.queued = s.pc.waiting.toNat
  fired : s.pc.waiting = true → s.cancelled = true → s.queued = 0 → 0 < s.ahead
  written : 0 < s.cancelling → s.cancelled = true

theorem enter_ok {s t : State} {c : SectionCall} {r : Bool} (he : h.enter s c = some (t, r)) :
    ∃ out, s.slot.call s.pending c = .ok out ∧ r = out.ret ∧
      t = { s with
        slot := out.slot
        pending := out.pending
        queued := s.queued + countFiber h.fiber out.pushes } := by
  unfold enter at he
  split at he
  · cases he
  · rename_i out ho
    cases he
    exact ⟨out, ho, rfl, rfl⟩

/-- The state after a section. -/
def State.after (s : State) (f : FiberId) (out : Section) : State :=
  { s with
    slot := out.slot
    pending := out.pending
    queued := s.queued + countFiber f out.pushes }

/-- What a step can do. -/
inductive Move (h : HookedCall) (s : State) : Label → State → Prop
  | syscall {again : Bool} (hpc : s.pc = .syscall) :
    Move h s (.syscall again) { s with pc := if again then .arm else .done }
  | arm (hpc : s.pc = .arm) :
    Move h s .addConditionTimer { s with pc := .register, armed := h.timed }
  | addEvent {rt : Bool} {out : Section} (hpc : s.pc = .register)
    (ho : s.slot.call s.pending (.addEvent h.event none h.who rt) = .ok out) :
    Move h s (.addEvent rt)
      { s with
        slot := out.slot
        pending := out.pending
        pc := if rt then .yielding else .failed }
  | swapOut (hpc : s.pc = .yielding) : Move h s .swapOut { s with pc := .suspended }
  | resume (hpc : s.pc = .suspended) (hq : 0 < s.queued) :
    Move h s .resume { s with pc := .resumed, queued := s.queued - 1 }
  | disarm (hpc : s.pc = .resumed) : Move h s .cancelTimer { s with pc := .test, armed := false }
  | giveUp (hpc : s.pc = .failed) : Move h s .cancelTimer { s with pc := .done, armed := false }
  | timedOut (hpc : s.pc = .test) (hc : s.cancelled = true) :
    Move h s .testCancelled { s with pc := .done }
  | connected (hpc : s.pc = .test) (hf : h.fn = .connectWithTimeout) :
    Move h s .testCancelled { s with pc := .done }
  | retry {e : Event} (hpc : s.pc = .test) (hf : h.fn = .doIo e) (hc : s.cancelled = false) :
    Move h s .testCancelled { s with pc := .syscall }
  | expire (ha : s.armed = true) :
    Move h s .expire { s with armed := false, taken := s.taken + 1 }
  | pass (ht : 0 < s.taken) :
    Move h s .callbackTest { s with taken := s.taken - 1, tested := s.tested + 1 }
  | drop (ht : 0 < s.taken) : Move h s .callbackTest { s with taken := s.taken - 1 }
  | callbackSet (ht : 0 < s.tested) :
    Move h s .callbackSet
      { s with cancelled := true, tested := s.tested - 1, cancelling := s.cancelling + 1 }
  | callbackCancel {rt : Bool} {out : Section} (hc : 0 < s.cancelling)
    (ho : s.slot.call s.pending (.cancelEvent h.event rt) = .ok out) :
    Move h s (.callbackCancel rt) { s.after h.fiber out with cancelling := s.cancelling - 1 }
  | other {c : SectionCall} {out : Section} (hc : h.byOthers c = true)
    (ho : s.slot.call s.pending c = .ok out) : Move h s (.other c) (s.after h.fiber out)

theorem step_move {s t : State} {l : Label} (hs : h.step s l = some t) : Move h s l t := by
  cases l with
  | syscall again =>
    simp only [step, Option.ite_none_right_eq_some, Option.some.injEq] at hs
    obtain ⟨hpc, rfl⟩ := hs
    exact .syscall hpc
  | addConditionTimer =>
    simp only [step, Option.ite_none_right_eq_some, Option.some.injEq] at hs
    obtain ⟨hpc, rfl⟩ := hs
    exact .arm hpc
  | addEvent rt =>
    simp only [step, Option.ite_none_right_eq_some, Option.map_eq_some_iff, Prod.exists] at hs
    obtain ⟨hpc, u, r, he, rfl⟩ := hs
    obtain ⟨out, ho, rfl, rfl⟩ := enter_ok he
    obtain ⟨hret, hp⟩ := addEvent_ret ho
    simp only [hret, hp, countFiber, List.countP_nil, Nat.add_zero]
    exact .addEvent hpc ho
  | swapOut =>
    simp only [step, Option.ite_none_right_eq_some, Option.some.injEq] at hs
    obtain ⟨hpc, rfl⟩ := hs
    exact .swapOut hpc
  | resume =>
    simp only [step, Option.ite_none_right_eq_some, Option.some.injEq] at hs
    obtain ⟨⟨hpc, hq⟩, rfl⟩ := hs
    exact .resume hpc hq
  | cancelTimer =>
    simp only [step] at hs
    split at hs
    · rename_i hpc
      cases hs
      exact .disarm hpc
    · simp only [Option.ite_none_right_eq_some, Option.some.injEq] at hs
      obtain ⟨hpc, rfl⟩ := hs
      exact .giveUp hpc
  | testCancelled =>
    simp only [step, Option.ite_none_right_eq_some, Option.some.injEq] at hs
    obtain ⟨hpc, rfl⟩ := hs
    by_cases hc : s.cancelled = true
    · rw [if_pos hc]
      exact .timedOut hpc hc
    · rw [if_neg hc]
      split
      · rename_i e hf
        exact .retry hpc hf (Bool.eq_false_of_not_eq_true hc)
      · rename_i hf
        exact .connected hpc hf
  | expire =>
    simp only [step, Option.ite_none_right_eq_some, Option.some.injEq] at hs
    obtain ⟨ha, rfl⟩ := hs
    exact .expire ha
  | callbackTest =>
    simp only [step, Option.ite_none_right_eq_some] at hs
    obtain ⟨ht, hs⟩ := hs
    split at hs
    · cases hs
      exact .pass ht
    · cases hs
      exact .drop ht
  | callbackSet =>
    simp only [step, Option.ite_none_right_eq_some, Option.some.injEq] at hs
    obtain ⟨ht, rfl⟩ := hs
    exact .callbackSet ht
  | callbackCancel rt =>
    simp only [step, Option.ite_none_right_eq_some, Option.map_eq_some_iff, Prod.exists] at hs
    obtain ⟨hc, u, r, he, rfl⟩ := hs
    obtain ⟨out, ho, rfl, rfl⟩ := enter_ok he
    exact .callbackCancel hc ho
  | other c =>
    simp only [step, Option.ite_none_right_eq_some, Option.map_eq_some_iff, Prod.exists] at hs
    obtain ⟨hc, u, r, he, rfl⟩ := hs
    obtain ⟨out, ho, rfl, rfl⟩ := enter_ok he
    exact .other hc ho

/-- What any section does that is not the call's own addEvent. -/
theorem Inv.section_moves {s : State} {c : SectionCall} {out : Section} (hi : Inv h s)
    (ho : s.slot.call s.pending c = .ok out) (hdrop : ∀ e rt, c ≠ .delEvent e rt)
    (hstart : ∀ e cb who rt, c = .addEvent e cb who rt → who.waiter cb ≠ .fiber h.fiber) :
    out.slot.Coherent ∧
    (∀ e, e ≠ h.event → held h.fiber (out.slot.ctx.waiter e) = 0) ∧
    held h.fiber (s.slot.ctx.waiter h.event) =
      held h.fiber (out.slot.ctx.waiter h.event) + countFiber h.fiber out.pushes := by
  have hs := call_spec hi.coherent ho
  have hm : ∀ e, held h.fiber (s.slot.ctx.waiter e) = held h.fiber (out.slot.ctx.waiter e) +
      countFiber h.fiber (out.pushes.filter (fun p => p.event = e)) :=
    fun e => (hs.turn e).moves (hdrop e) (hstart e)
  refine ⟨hs.coherent, ?_, ?_⟩
  · intro e he
    have := hm e
    have := hi.elsewhere e he
    omega
  · rw [countFiber_event (e := h.event)]
    · exact hm h.event
    · intro e he
      have := hm e
      have := hi.elsewhere e he
      omega

/-- A step that leaves the descriptor and the queue alone and does not change whether
the call waits. -/
theorem Inv.local {s t : State} (hi : Inv h s) (hslot : t.slot = s.slot)
    (hq : t.queued = s.queued) (hw : t.pc.waiting = s.pc.waiting)
    (hfired : t.pc.waiting = true → t.cancelled = true → t.queued = 0 → 0 < t.ahead)
    (hwritten : 0 < t.cancelling → t.cancelled = true) : Inv h t where
  coherent := by rw [hslot]; exact hi.coherent
  elsewhere := by rw [hslot]; exact hi.elsewhere
  token := by rw [hslot, hq, hw]; exact hi.token
  fired := hfired
  written := hwritten

theorem Inv.addEvent {s : State} {rt : Bool} {out : Section} (hi : Inv h s)
    (hok : InTime h s (.addEvent rt)) (hpc : s.pc = .register)
    (ho : s.slot.call s.pending (.addEvent h.event none h.who rt) = .ok out) :
    Inv h { s with
      slot := out.slot
      pending := out.pending
      pc := if rt then .yielding else .failed } := by
  have hsp := call_spec hi.coherent ho
  obtain ⟨hret, _⟩ := addEvent_ret ho
  have htok := hi.token
  simp only [hpc, Pc.waiting, Bool.toNat_false] at htok
  cases rt with
  | false =>
    obtain ⟨hslot, _⟩ := hsp.failed hret
    exact hi.local hslot rfl (by simp [hpc, Pc.waiting]) (by simp [Pc.waiting]) hi.written
  | true =>
    obtain ⟨_, hnew⟩ := hsp.started h.event none h.who true rfl hret
    refine ⟨hsp.coherent, ?_, ?_, ?_, hi.written⟩
    · intro e he
      have ht := hsp.turn e
      have hold := hi.elsewhere e he
      generalize s.slot.ctx.waiter e = w at ht hold
      generalize out.slot.ctx.waiter e = w' at ht
      generalize out.pushes.filter (fun p => p.event = e) = ps at ht
      cases ht with
      | keep => exact hold
      | start _ _ _ hc =>
        cases hc
        exact absurd rfl he
      | wake _ _ hw => exact hw.elim
      | drop _ _ hc => cases hc
    · simp only [hnew, Pc.waiting, Bool.toNat_true, held, CallingThread.waiter, who, ↓reduceIte]
      omega
    · intro _ hc _
      exact hok rfl hc

theorem Inv.callbackCancel {s : State} {rt : Bool} {out : Section} (hi : Inv h s)
    (hok : InTime h s (.callbackCancel rt)) (hpos : 0 < s.cancelling)
    (ho : s.slot.call s.pending (.cancelEvent h.event rt) = .ok out) :
    Inv h { s.after h.fiber out with cancelling := s.cancelling - 1 } := by
  obtain ⟨hco, hel, hmv⟩ := hi.section_moves ho (by simp) (by simp)
  have htok := hi.token
  refine ⟨hco, hel, ?_, ?_, fun _ => hi.written hpos⟩
  · simp only [State.after]
    omega
  · intro hw hc hq
    simp only [State.after, State.ahead] at hq ⊢
    -- Nothing was queued, so the wait is still in the context.
    have hstill : held h.fiber (out.slot.ctx.waiter h.event) = 1 := by
      simp only [State.after] at hw
      simp only [hw, Bool.toNat_true] at htok
      omega
    have hbefore : s.slot.ctx.waiter h.event = some (.fiber h.fiber) := by
      have : held h.fiber (s.slot.ctx.waiter h.event) = 1 := by omega
      simpa [held] using this
    rcases hok hbefore with rfl | hlate
    · simp [cancelEvent_takes hi.coherent ho, held] at hstill
    · simp only [State.ahead] at hlate
      omega

theorem Inv.other {s : State} {c : SectionCall} {out : Section} (hi : Inv h s)
    (hc : h.byOthers c = true) (ho : s.slot.call s.pending c = .ok out) :
    Inv h (s.after h.fiber out) := by
  have hdrop : ∀ e rt, c ≠ .delEvent e rt := by
    rintro e rt rfl
    cases hc
  have hstart : ∀ e cb who rt, c = .addEvent e cb who rt → who.waiter cb ≠ .fiber h.fiber := by
    rintro e cb who rt rfl
    cases cb with
    | none => simpa [byOthers, CallingThread.waiter] using hc
    | some cb => simp [CallingThread.waiter]
  obtain ⟨hco, hel, hmv⟩ := hi.section_moves ho hdrop hstart
  have htok := hi.token
  refine ⟨hco, hel, ?_, ?_, hi.written⟩
  · simp only [State.after]
    omega
  · intro hw hc hq
    exact hi.fired hw hc (Nat.eq_zero_of_add_eq_zero_right hq)

theorem Inv.step {s t : State} {l : Label} (hi : Inv h s) (hok : InTime h s l)
    (hs : h.step s l = some t) : Inv h t := by
  cases step_move hs with
  | addEvent hpc ho => exact hi.addEvent hok hpc ho
  | callbackCancel hpos ho => exact hi.callbackCancel hok hpos ho
  | other hc ho => exact hi.other hc ho
  | resume hpc hq =>
    have htok := hi.token
    simp only [hpc, Pc.waiting, Bool.toNat_true] at htok
    refine ⟨hi.coherent, hi.elsewhere, ?_, by simp [Pc.waiting], hi.written⟩
    simp only [Pc.waiting, Bool.toNat_false]
    omega
  | pass ht =>
    refine hi.local rfl rfl rfl (fun hw hc hq => ?_) hi.written
    have := hi.fired hw hc hq
    simp only [State.ahead] at this ⊢
    omega
  | callbackSet ht =>
    refine hi.local rfl rfl rfl (fun _ _ _ => ?_) (fun _ => rfl)
    simp only [State.ahead]
    omega
  | expire | drop => exact hi.local rfl rfl rfl hi.fired hi.written
  | swapOut hpc =>
    exact hi.local rfl rfl (by simp [hpc, Pc.waiting])
      (fun _ => hi.fired (by simp [hpc, Pc.waiting])) hi.written
  | @syscall again hpc =>
    cases again <;>
      exact hi.local rfl rfl (by simp [hpc, Pc.waiting]) (by simp [Pc.waiting]) hi.written
  | arm hpc | disarm hpc | giveUp hpc | timedOut hpc | connected hpc | retry hpc =>
    exact hi.local rfl rfl (by simp [hpc, Pc.waiting]) (by simp [Pc.waiting]) hi.written

theorem reachable_inv {s : State} (hr : h.machine.ReachableUnder (InTime h) s) : Inv h s := by
  refine Machine.ReachableUnder.invariant (P := Inv h) ?_ (fun s l t => Inv.step) hr
  intro s hinit
  subst hinit
  have hnone : ∀ e, held h.fiber (({} : FdContext).waiter e) = 0 := by
    intro e
    cases e <;> rfl
  exact ⟨⟨⟨fits_empty, fits_empty⟩, rfl⟩, fun e _ => hnone e, hnone h.event, by simp [Pc.waiting],
    by simp⟩

/-- A registered wait whose timeout has fired and has no callback left is lost as
soon as the fiber is switched out and any later timer has expired too. -/
theorem lost_of_stuck {s : State} (hw : s.pc.waiting = true) (hc : s.cancelled = true)
    (hq : s.queued = 0) (ha : s.ahead = 0) :
    ∃ ls t, h.machine.exec s ls = some t ∧ Lost h t := by
  have hexpire : ∀ u : State, u.pc = .suspended → u.cancelled = true → u.queued = 0 →
      u.ahead = 0 → ∃ ls t, h.machine.exec u ls = some t ∧ Lost h t := by
    intro u hpc hc hq ha
    cases harm : u.armed with
    | false => exact ⟨[], u, rfl, hpc, harm, hc, hq, fun hx => by omega⟩
    | true =>
      refine ⟨[.expire], { u with armed := false, taken := u.taken + 1 }, ?_, hpc, rfl, hc, hq, ?_⟩
      · simp [Machine.exec, machine, HookedCall.step, harm]
      · rintro ⟨_, hx⟩
        exact absurd hx (by simp only [State.ahead] at ha ⊢; omega)
  cases hpc : s.pc with
  | suspended => exact hexpire s hpc hc hq ha
  | yielding =>
    obtain ⟨ls, t, he, hl⟩ := hexpire { s with pc := .suspended } rfl hc hq ha
    refine ⟨.swapOut :: ls, t, ?_, hl⟩
    simpa [Machine.exec, machine, HookedCall.step, hpc] using he
  | syscall | arm | register | resumed | test | failed | done =>
    rw [hpc] at hw
    cases hw

/-- A step that breaks the condition strands the wait. -/
theorem stuck_of_late {s t : State} {l : Label} (hi : Inv h s) (hs : h.step s l = some t)
    (hlate : ¬ InTime h s l) :
    t.pc.waiting = true ∧ t.cancelled = true ∧ t.queued = 0 ∧ t.ahead = 0 := by
  cases step_move hs with
  | syscall | arm | swapOut | resume | disarm | giveUp | timedOut | connected | retry | expire
  | pass | drop | callbackSet | other => exact absurd trivial hlate
  | addEvent hpc ho =>
    simp only [InTime, Classical.not_imp, Nat.not_lt, Nat.le_zero] at hlate
    obtain ⟨rfl, hc, ha⟩ := hlate
    have htok := hi.token
    simp only [hpc, Pc.waiting, Bool.toNat_false] at htok
    exact ⟨rfl, hc, Nat.eq_zero_of_add_eq_zero_left htok, ha⟩
  | callbackCancel hpos ho =>
    simp only [InTime, Classical.not_imp, not_or, Nat.not_lt, Bool.not_eq_true] at hlate
    obtain ⟨hw, rfl, ha⟩ := hlate
    have hsame := cancelEvent_failed ho
    subst hsame
    have htok := hi.token
    simp only [hw, held, ↓reduceIte] at htok
    have hwait : s.pc.waiting = true := by
      cases hb : s.pc.waiting with
      | true => rfl
      | false =>
        rw [hb] at htok
        simp at htok
    rw [hwait, Bool.toNat_true] at htok
    refine ⟨hwait, hi.written hpos, ?_, ?_⟩
    · simp only [State.after, countFiber, List.countP_nil]
      omega
    · simp only [State.after, State.ahead] at ha ⊢
      omega

/-- A hooked timeout is not lost in any run in which the call registers its event
before the timeout has come and gone and the timeout's epoll_ctl works. The
condition is exact: each step that breaks it can be continued to a lost timeout. -/
theorem hooked_timeout_kept (h : HookedCall) :
    (∀ s, h.machine.ReachableUnder (InTime h) s → ¬ Lost h s) ∧
    ∀ s, h.machine.ReachableUnder (InTime h) s → ∀ l t, h.machine.step s l = some t →
      ¬ InTime h s l → ∃ ls u, h.machine.exec t ls = some u ∧ Lost h u := by
  constructor
  · rintro s hr ⟨hpc, _, hc, hq, hno⟩
    have hi := reachable_inv hr
    have hwait : s.pc.waiting = true := by
      rw [hpc]
      rfl
    have htok := hi.token
    rw [hwait, hq, Bool.toNat_true, Nat.add_zero] at htok
    exact hno ⟨by simpa [held] using htok, hi.fired hwait hc hq⟩
  · intro s hr l t hs hlate
    obtain ⟨hw, hc, hq, ha⟩ := stuck_of_late (reachable_inv hr) hs hlate
    exact lost_of_stuck hw hc hq ha

/-- The timer fires on another worker between addConditionTimer and addEvent: its
cancelEvent finds nothing registered, and the fiber then goes to sleep. The same
run loses the timeout of a connect. -/
theorem hooked_timeout_lost :
    (∃ s, (machine ⟨.doIo .read, 7, 0, true⟩).Reachable s ∧ Lost ⟨.doIo .read, 7, 0, true⟩ s) ∧
    ∃ s, (machine ⟨.connectWithTimeout, 7, 0, true⟩).Reachable s ∧
      Lost ⟨.connectWithTimeout, 7, 0, true⟩ s := by
  refine ⟨⟨_, Machine.reachable_of_exec [.syscall true, .addConditionTimer, .expire,
      .callbackTest, .callbackSet, .callbackCancel true, .addEvent true, .swapOut] rfl rfl, ?_⟩,
    ⟨_, Machine.reachable_of_exec [.syscall true, .addConditionTimer, .expire,
      .callbackTest, .callbackSet, .callbackCancel true, .addEvent true, .swapOut] rfl rfl, ?_⟩⟩
  all_goals exact ⟨rfl, rfl, rfl, rfl, by simp [State.ahead]⟩

end HookedCall
end HxSylar
