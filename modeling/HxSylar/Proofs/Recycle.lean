import HxSylar.Recycle
import HxSylar.Proofs.HookTimeout

namespace HxSylar

namespace HookedCall
variable {h : HookedCall}

/-- The call has returned, or will return −1 without another system call. -/
def Settled (c : State) : Prop := c.pc = .done ∨ (c.cancelled = true ∧ c.pc ≠ .syscall)

instance (c : State) : Decidable (Settled c) := inferInstanceAs (Decidable (_ ∨ _))

theorem Settled.not_syscall {c : State} (hc : Settled c) : c.pc ≠ .syscall := by
  intro hpc
  rcases hc with hd | hd
  · rw [hpc] at hd
    cases hd
  · exact hd.2 hpc

/-- A call that has returned is over. -/
theorem done_step {c c' : State} {l : Label} (hc : c.pc = .done) (hs : h.step c l = some c') :
    c'.pc = .done := by
  cases step_move hs with
  | syscall hpc | arm hpc | addEvent hpc | swapOut hpc | resume hpc | disarm hpc | retry hpc =>
    rw [hc] at hpc
    cases hpc
  | giveUp | timedOut | connected => rfl
  | expire | pass | drop | callbackSet | callbackCancel | other => exact hc

/-- Nothing takes a timeout back, and `retry` is reached without one only. -/
theorem Settled.step {c c' : State} {l : Label} (hc : Settled c) (hs : h.step c l = some c') :
    Settled c' := by
  rcases hc with hd | ⟨hcan, hsys⟩
  · exact .inl (done_step hd hs)
  · cases step_move hs with
    | syscall hpc => exact absurd hpc hsys
    | @addEvent rt => cases rt <;> exact .inr ⟨hcan, by simp⟩
    | arm | swapOut | resume | disarm => exact .inr ⟨hcan, by simp⟩
    | giveUp | timedOut | connected => exact .inl rfl
    | retry _ _ hc =>
      rw [hcan] at hc
      cases hc
    | callbackSet => exact .inr ⟨rfl, hsys⟩
    | expire | pass | drop | callbackCancel | other => exact .inr ⟨hcan, hsys⟩

section Ahead
variable {c : State}

theorem step_disarm (hpc : c.pc = .resumed) :
    h.step c .cancelTimer = some { c with pc := .test, armed := false } := by
  simp only [HookedCall.step, hpc, ↓reduceIte]

theorem step_timedOut (hpc : c.pc = .test) (hc : c.cancelled = true) :
    h.step c .testCancelled = some { c with pc := .done } := by
  simp only [HookedCall.step, hpc, hc, ↓reduceIte]

theorem step_retry {e : Event} (hpc : c.pc = .test) (hfn : h.fn = .doIo e)
    (hc : c.cancelled = false) : h.step c .testCancelled = some { c with pc := .syscall } := by
  simp only [HookedCall.step, hpc, hc, hfn, ↓reduceIte, Bool.false_eq_true]

theorem step_result (hpc : c.pc = .syscall) :
    h.step c (.syscall false) = some { c with pc := .done } := by
  simp only [HookedCall.step, hpc, ↓reduceIte, Bool.false_eq_true]

end Ahead

/-- Where a call stands that has registered its event and not tried again since. -/
def Pc.registered : Pc → Bool
  | .yielding | .suspended | .resumed | .test | .syscall | .done => true
  | .arm | .register | .failed => false

theorem registered_step {c c' : State} {l : Label} (hc : c.pc.registered = true)
    (hl : ∀ again, l ≠ .syscall again) (hs : h.step c l = some c') : c'.pc.registered = true := by
  cases step_move hs with
  | syscall => exact absurd rfl (hl _)
  | arm hpc | addEvent hpc | giveUp hpc =>
    rw [hpc] at hc
    cases hc
  | swapOut | resume | disarm | timedOut | connected | retry => rfl
  | expire | pass | drop | callbackSet | callbackCancel | other => exact hc

end HookedCall

namespace Recycle
open Lib HookedCall
variable {h : HookedCall}

/-- What do_io hands back: −1, or what its system call on that file returned. -/
inductive Outcome
  | minusOne
  | result (g : FileGen)
  deriving DecidableEq, Repr

/-- What the call has done so far. `watched` is the file for which it registered its
event, until it tries again; `retried` pairs it with what the number stood for then.
`lost` says that the number was closed in between. -/
structure Trace where
  watched : Option FileGen := none
  retried : List (FileGen × Option FileGen) := []
  lost : Bool := false
  returned : Option Outcome := none
  deriving DecidableEq, Repr

namespace Trace

/-- A system call on what the number stands for. -/
def meet (tr : Trace) (file : Option FileGen) : Trace :=
  match tr.watched with
  | none => tr
  | some g => { tr with retried := tr.retried ++ [(g, file)] }

def next (tr : Trace) (s : Recycle) (l : Label) (t : Recycle) : Trace :=
  match l with
  | .call (.syscall again) =>
    { tr.meet s.file with
      watched := none
      returned := if again then tr.returned else
        some (match s.file with
          | none => .minusOne
          | some g => .result g) }
  | .interrupted => tr.meet s.file
  | .call (.addEvent true) => { tr with watched := s.file }
  | .call .cancelTimer | .call .testCancelled =>
    if t.call.pc = .done then { tr with returned := some .minusOne } else tr
  | .closeFile => { tr with lost := tr.lost || (tr.watched.isSome && s.file.isSome) }
  | _ => tr

/-- After its wait the call has met no other file than the one it waited for, and a
call whose file was closed meanwhile has not returned anything but −1. -/
def Safe (tr : Trace) : Prop :=
  (∀ x ∈ tr.retried, ∀ g, x.2 = some g → g = x.1) ∧
  (tr.lost = true → ∀ g, tr.returned ≠ some (.result g))

end Trace

/-- The number together with the history of the call on it. -/
def observed (h : HookedCall) : Machine (Recycle × Trace) Label :=
  (machine h).observe {} Trace.next

/-- The kernel gives the number out again only when no do_io is between its addEvent
on it and its next system call, save one that is bound to return −1. -/
def NotReused (p : Recycle × Trace) : Label → Prop
  | .reopen => p.2.watched = none ∨ Settled p.1.call
  | _ => True

instance (p : Recycle × Trace) : (l : Label) → Decidable (NotReused p l)
  | .reopen => inferInstanceAs (Decidable (_ ∨ _))
  | .call _ | .interrupted | .closeGet | .closeCancelAll _ _ | .closeDel | .closeFile | .create =>
    inferInstanceAs (Decidable True)

/-- While the call waits, the number stands for the file it waits for, or for nothing,
or no longer matters to it. -/
structure Inv (s : Recycle) (tr : Trace) : Prop where
  window : tr.watched.isSome = true → s.call.pc.registered = true
  same : ∀ g g', tr.watched = some g → s.file = some g' → g' = g ∨ Settled s.call
  gone : tr.lost = true → Settled s.call ∨ (s.file = none ∧ tr.watched.isSome = true)
  ended : ∀ g, tr.returned = some (.result g) → s.call.pc = .done ∧ tr.watched = none
  safe : tr.Safe

/-- A step of the call's surroundings that leaves the number alone. -/
theorem Inv.frame {s t : Recycle} {tr : Trace} (hi : Inv s tr) (hfile : t.file = s.file)
    (hset : Settled s.call → Settled t.call) (hdone : s.call.pc = .done → t.call.pc = .done)
    (hreg : s.call.pc.registered = true → t.call.pc.registered = true) : Inv t tr where
  window hw := hreg (hi.window hw)
  same g g' hw hf := (hi.same g g' hw (hfile ▸ hf)).imp_right hset
  gone hl := (hi.gone hl).imp hset (fun hg => ⟨hfile.trans hg.1, hg.2⟩)
  ended g hg := (hi.ended g hg).imp_left hdone
  safe := hi.safe

/-- To return −1 is always safe. -/
theorem Inv.minusOne {s : Recycle} {tr : Trace} (hi : Inv s tr) :
    Inv s { tr with returned := some .minusOne } where
  window := hi.window
  same := hi.same
  gone := hi.gone
  ended g hg := by cases hg
  safe := ⟨hi.safe.1, fun _ g hg => by cases hg⟩

/-- The system call after a wait meets the file that the call has waited for. -/
theorem Inv.meet {s : Recycle} {tr : Trace} (hi : Inv s tr) (hpc : s.call.pc = .syscall) :
    ∀ x ∈ (tr.meet s.file).retried, ∀ g, x.2 = some g → g = x.1 := by
  unfold Trace.meet
  split
  · exact hi.safe.1
  · rename_i g hw
    intro x hx g' hg
    rcases List.mem_append.mp hx with hx | hx
    · exact hi.safe.1 x hx g' hg
    · rw [List.mem_singleton] at hx
      subst hx
      rcases hi.same g g' hw hg with heq | hset
      · exact heq
      · exact absurd hpc hset.not_syscall

theorem Trace.meet_watched (tr : Trace) (file : Option FileGen) :
    (tr.meet file).watched = tr.watched := by
  unfold meet
  split <;> rfl

theorem Trace.meet_lost (tr : Trace) (file : Option FileGen) :
    (tr.meet file).lost = tr.lost := by
  unfold meet
  split <;> rfl

theorem Trace.meet_returned (tr : Trace) (file : Option FileGen) :
    (tr.meet file).returned = tr.returned := by
  unfold meet
  split <;> rfl

/-- A call that is about to try again and has lost its file finds the number closed. -/
theorem Inv.closed {s : Recycle} {tr : Trace} (hi : Inv s tr) (hpc : s.call.pc = .syscall)
    (hl : tr.lost = true) : s.file = none := by
  rcases hi.gone hl with hset | hg
  · exact absurd hpc hset.not_syscall
  · exact hg.1

theorem Inv.syscall {s t : Recycle} {tr : Trace} {again : Bool} (hi : Inv s tr)
    (hs : step h s (.call (.syscall again)) = some t) :
    Inv t (tr.next s (.call (.syscall again)) t) := by
  simp only [step, Option.ite_none_right_eq_some, Option.map_eq_some_iff] at hs
  obtain ⟨hposs, c, hc, rfl⟩ := hs
  simp only [HookedCall.step, Option.ite_none_right_eq_some, Option.some.injEq] at hc
  obtain ⟨hpc, rfl⟩ := hc
  refine ⟨fun hw => ?_, fun g g' hw => ?_, fun hl => ?_, fun g hg => ?_, hi.meet hpc,
    fun hl g hg => ?_⟩
  · cases hw
  · cases hw
  · rw [Trace.next, Trace.meet_lost] at hl
    have hclosed := hi.closed hpc hl
    cases again with
    | true => simp [possible, hclosed] at hposs
    | false => exact .inl (.inl rfl)
  · cases again with
    | true =>
      have hd := (hi.ended g hg).1
      rw [hpc] at hd
      cases hd
    | false => exact ⟨rfl, rfl⟩
  · rw [Trace.next, Trace.meet_lost] at hl
    have hclosed := hi.closed hpc hl
    simp only [Trace.next, hclosed] at hg
    cases again with
    | true => exact hi.safe.2 hl g hg
    | false => cases hg

/-- A call that is about to register waits for nothing and has not returned. -/
theorem Inv.unregistered {s : Recycle} {tr : Trace} (hi : Inv s tr)
    (hpc : s.call.pc = .register) :
    tr.watched = none ∧ ∀ g, tr.returned ≠ some (.result g) := by
  constructor
  · cases hw : tr.watched with
    | none => rfl
    | some g =>
      have hreg := hi.window (by rw [hw]; rfl)
      rw [hpc] at hreg
      cases hreg
  · intro g hg
    have hd := (hi.ended g hg).1
    rw [hpc] at hd
    cases hd

theorem Inv.addEvent {s t : Recycle} {tr : Trace} {rt : Bool} (hi : Inv s tr)
    (hs : step h s (.call (.addEvent rt)) = some t) :
    Inv t (tr.next s (.call (.addEvent rt)) t) := by
  simp only [step, Option.ite_none_right_eq_some, Option.map_eq_some_iff] at hs
  obtain ⟨_, c, hc, rfl⟩ := hs
  have hset : tr.lost = true → tr.watched = none → Settled c := by
    intro hl hw
    rcases hi.gone hl with hset | hg
    · exact hset.step hc
    · rw [hw] at hg
      cases hg.2
  cases step_move hc with
  | addEvent hpc ho =>
    obtain ⟨hw, hret⟩ := hi.unregistered hpc
    cases rt with
    | true =>
      refine ⟨fun _ => rfl, fun g g' hw' hf => .inl ?_, fun hl => .inl (hset hl hw),
        fun g hg => absurd hg (hret g), hi.safe⟩
      exact Option.some.inj (hf.symm.trans hw')
    | false =>
      refine ⟨fun hw' => ?_, fun g g' hw' => ?_, fun hl => .inl (hset hl hw),
        fun g hg => absurd hg (hret g), hi.safe⟩
      · simp only [Trace.next, hw] at hw'
        cases hw'
      · simp only [Trace.next, hw] at hw'
        cases hw'

theorem Inv.call {s t : Recycle} {tr : Trace} {l : HookedCall.Label} (hi : Inv s tr)
    (hs : step h s (.call l) = some t) : Inv t (tr.next s (.call l) t) := by
  have hframe : (∀ again, l ≠ .syscall again) → Inv t tr := by
    intro hl
    simp only [step, Option.ite_none_right_eq_some, Option.map_eq_some_iff] at hs
    obtain ⟨_, c, hc, rfl⟩ := hs
    exact hi.frame rfl (fun hset => hset.step hc) (fun hd => done_step hd hc)
      (fun hreg => registered_step hreg hl hc)
  cases l with
  | syscall again => exact hi.syscall hs
  | addEvent rt => exact hi.addEvent hs
  | cancelTimer | testCancelled =>
    have hi' := hframe (by simp)
    simp only [Trace.next]
    split
    · exact hi'.minusOne
    · exact hi'
  | addConditionTimer | swapOut | resume | expire | callbackTest | callbackSet
  | callbackCancel | other => exact hframe (by simp)

theorem closeFile_call (s : Recycle) :
    s.closeFile.call.pc = s.call.pc ∧ s.closeFile.call.cancelled = s.call.cancelled := by
  unfold closeFile
  split <;> exact ⟨rfl, rfl⟩

theorem closeFile_file (s : Recycle) : s.closeFile.file = none := by
  unfold closeFile
  split
  · assumption
  · rfl

theorem Inv.closeFile {s : Recycle} {tr : Trace} {n : Nat} (hi : Inv s tr) :
    Inv { s.closeFile with closing := n }
      { tr with lost := tr.lost || (tr.watched.isSome && s.file.isSome) } := by
  obtain ⟨hpc, hcan⟩ := closeFile_call s
  refine ⟨?_, ?_, ?_, ?_, hi.safe.1, ?_⟩
  · simpa only [hpc] using hi.window
  · intro g g' _ hf
    rw [closeFile_file] at hf
    cases hf
  · intro hl
    simp only [Bool.or_eq_true, Bool.and_eq_true] at hl
    rcases hl with hl | hl
    · rcases hi.gone hl with hset | hg
      · left
        simpa only [Settled, hpc, hcan] using hset
      · exact .inr ⟨closeFile_file s, hg.2⟩
    · exact .inr ⟨closeFile_file s, hl.1⟩
  · simpa only [hpc] using hi.ended
  · intro hl g hg
    simp only [Bool.or_eq_true, Bool.and_eq_true] at hl
    rcases hl with hl | hl
    · exact hi.safe.2 hl g hg
    · rw [(hi.ended g hg).2] at hl
      cases hl.1

theorem Inv.step {s t : Recycle} {tr : Trace} {l : Label} (hi : Inv s tr)
    (hok : NotReused (s, tr) l) (hs : step h s l = some t) : Inv t (tr.next s l t) := by
  cases l with
  | call l => exact hi.call hs
  | interrupted =>
    simp only [Recycle.step, Option.ite_none_right_eq_some, Option.some.injEq] at hs
    obtain ⟨hpc, rfl⟩ := hs
    refine ⟨?_, ?_, ?_, ?_, hi.meet hpc, ?_⟩
    · simpa only [Trace.next, Trace.meet_watched] using hi.window
    · simpa only [Trace.next, Trace.meet_watched] using hi.same
    · simpa only [Trace.next, Trace.meet_watched, Trace.meet_lost] using hi.gone
    · simpa only [Trace.next, Trace.meet_watched, Trace.meet_returned] using hi.ended
    · simpa only [Trace.next, Trace.meet_lost, Trace.meet_returned] using hi.safe.2
  | closeGet =>
    simp only [Recycle.step] at hs
    split at hs <;> cases hs <;> exact hi.frame rfl id id id
  | closeCancelAll iom rt =>
    simp only [Recycle.step, Option.ite_none_right_eq_some] at hs
    obtain ⟨_, hs⟩ := hs
    split at hs
    · simp only [Option.map_eq_some_iff, Prod.exists] at hs
      obtain ⟨c, r, he, rfl⟩ := hs
      obtain ⟨out, _, _, rfl⟩ := enter_ok he
      exact hi.frame rfl id id id
    · cases hs
      exact hi.frame rfl id id id
  | closeDel =>
    simp only [Recycle.step, Option.ite_none_right_eq_some, Option.some.injEq] at hs
    obtain ⟨_, rfl⟩ := hs
    exact hi.frame rfl id id id
  | closeFile =>
    simp only [Recycle.step, Option.ite_none_right_eq_some, Option.some.injEq] at hs
    obtain ⟨_, rfl⟩ := hs
    exact hi.closeFile
  | reopen =>
    simp only [Recycle.step] at hs
    split at hs
    · rename_i hclosed
      cases hs
      refine ⟨hi.window, fun g g' hw hf => .inr ?_, fun hl => .inl ?_, hi.ended, hi.safe⟩
      · rcases hok with hnone | hset
        · exact absurd (hw.symm.trans hnone) (by simp)
        · exact hset
      · rcases hi.gone hl, hok with ⟨hset | hg, hnone | hset'⟩
        · exact hset
        · exact hset
        · rw [hnone] at hg
          cases hg.2
        · exact hset'
    · cases hs
  | create =>
    simp only [Recycle.step, Option.ite_none_right_eq_some, Option.some.injEq] at hs
    obtain ⟨_, rfl⟩ := hs
    exact hi.frame rfl id id id

theorem reachable_inv {p : Recycle × Trace} (hr : (observed h).ReachableUnder NotReused p) :
    Inv p.1 p.2 := by
  refine Machine.ReachableUnder.invariant (P := fun p => Inv p.1 p.2) ?_ ?_ hr
  · rintro ⟨s, tr⟩ ⟨hs, htr⟩
    cases hs
    cases htr
    exact ⟨by simp, by simp, by simp, by simp, by simp [Trace.Safe]⟩
  · intro p l q hi hok hs
    obtain ⟨hs, htr⟩ := Machine.observe_step hs
    rw [htr]
    exact hi.step hok hs

theorem exec_call {s : Recycle} {tr : Trace} {l : HookedCall.Label} {c : State} {ls : List Label}
    (hposs : possible s.file l = true) (hc : h.step s.call l = some c) :
    (observed h).exec (s, tr) (.call l :: ls) =
      (observed h).exec ({ s with call := c }, tr.next s (.call l) { s with call := c }) ls := by
  simp only [Machine.exec, observed, Machine.observe, machine, Recycle.step, hposs, hc,
    ↓reduceIte, Option.map_some, Option.bind_some]

theorem returns_closed {s : Recycle} {tr : Trace} (hpc : s.call.pc = .syscall)
    (hclosed : s.file = none) :
    ∃ q, (observed h).exec (s, tr) [.call (.syscall false)] = some q ∧
      q.2.returned = some .minusOne := by
  rw [exec_call (by simp [possible]) (step_result hpc)]
  exact ⟨_, rfl, by simp [Trace.next, hclosed]⟩

theorem returns_timedOut {s : Recycle} {tr : Trace} (hpc : s.call.pc = .test)
    (hc : s.call.cancelled = true) :
    ∃ q, (observed h).exec (s, tr) [.call .testCancelled] = some q ∧
      q.2.returned = some .minusOne := by
  rw [exec_call rfl (step_timedOut hpc hc)]
  exact ⟨_, rfl, rfl⟩

theorem returns_retry {e : Event} {s : Recycle} {tr : Trace} (hfn : h.fn = .doIo e)
    (hpc : s.call.pc = .test) (hc : s.call.cancelled = false) (hclosed : s.file = none) :
    ∃ q, (observed h).exec (s, tr) [.call .testCancelled, .call (.syscall false)] = some q ∧
      q.2.returned = some .minusOne := by
  rw [exec_call rfl (step_retry hpc hfn hc)]
  exact returns_closed rfl hclosed

/-- A resumed do_io that has lost its file has two or three statements left. -/
theorem Inv.returns {e : Event} {s : Recycle} {tr : Trace} (hfn : h.fn = .doIo e) (hi : Inv s tr)
    (hpc : s.call.pc = .resumed) (hl : tr.lost = true) :
    ∃ ls ∈ [[.cancelTimer, .testCancelled], [.cancelTimer, .testCancelled, .syscall false]],
      ∃ q, (observed h).exec (s, tr) (ls.map .call) = some q ∧
        q.2.returned = some .minusOne := by
  cases hc : s.call.cancelled with
  | true =>
    refine ⟨[.cancelTimer, .testCancelled], by simp, ?_⟩
    rw [List.map_cons, exec_call rfl (step_disarm hpc)]
    exact returns_timedOut rfl hc
  | false =>
    have hclosed : s.file = none := by
      rcases hi.gone hl with hset | hg
      · rcases hset with hd | hd
        · rw [hpc] at hd
          cases hd
        · rw [hc] at hd
          cases hd.1
      · exact hg.1
    refine ⟨[.cancelTimer, .testCancelled, .syscall false], by simp, ?_⟩
    rw [List.map_cons, exec_call rfl (step_disarm hpc)]
    exact returns_retry hfn rfl hc hclosed

/-- If the kernel never gives a number out again while a do_io waits on it, no do_io
performs its system call on another file than it has waited for, and one whose file was
closed returns −1 once it is resumed. -/
theorem no_io_on_recycled (e : Event) (f : FiberId) (iom : SchedulerId) (timed : Bool)
    {p : Recycle × Trace}
    (hr : (observed ⟨.doIo e, f, iom, timed⟩).ReachableUnder NotReused p) :
    p.2.Safe ∧ (p.1.call.pc = .resumed → p.2.lost = true →
      ∃ ls ∈ [[.cancelTimer, .testCancelled], [.cancelTimer, .testCancelled, .syscall false]],
        ∃ q, (observed ⟨.doIo e, f, iom, timed⟩).exec p (ls.map .call) = some q ∧
          q.2.returned = some .minusOne) := by
  have hi := reachable_inv hr
  exact ⟨hi.safe, fun hpc hl => hi.returns rfl hpc hl⟩

/-- A read whose timeout has fired is safe: its number is closed and given out again
before it is resumed, and it returns −1. -/
theorem no_io_on_recycled_timed_out :
    ∃ p, (observed ⟨.doIo .read, 7, 0, true⟩).ReachableUnder NotReused p ∧
      p.1.file = some 1 ∧ p.2.Safe ∧
      ∃ ls ∈ [[.cancelTimer, .testCancelled], [.cancelTimer, .testCancelled, .syscall false]],
        ∃ q, (observed ⟨.doIo .read, 7, 0, true⟩).exec p (ls.map .call) = some q ∧
          q.2.returned = some .minusOne := by
  obtain ⟨p, hr, hfile, hpc, hl⟩ := Machine.exists_of_execUnder
    (observed ⟨.doIo .read, 7, 0, true⟩) NotReused (s := ({}, {}))
    (fun p => p.1.file = some 1 ∧ p.1.call.pc = .resumed ∧ p.2.lost = true)
    [.call (.syscall true), .call .addConditionTimer, .call (.addEvent true), .call .swapOut,
      .call .expire, .call .callbackTest, .call .callbackSet, .call (.callbackCancel true),
      .closeGet, .closeCancelAll true true, .closeDel, .closeFile, .reopen, .create,
      .call .resume] ⟨rfl, rfl⟩ (by decide)
  obtain ⟨hsafe, hret⟩ := no_io_on_recycled .read 7 0 true hr
  exact ⟨p, hr, hfile, hsafe, hret hpc hl⟩

/-- Another fiber closes the number under a read that waits on it, and the kernel gives it
to a new socket before the reader runs again: the reader goes back to `retry` and reads
from the new socket. -/
theorem recycled_read :
    ∃ p, (observed ⟨.doIo .read, 7, 0, true⟩).Reachable p ∧
      p.2.lost = true ∧ p.2.retried = [(0, some 1)] ∧ p.2.returned = some (.result 1) ∧
      ¬ p.2.Safe := by
  obtain ⟨p, hr, hl, htried, hret⟩ := Machine.exists_of_exec
    (observed ⟨.doIo .read, 7, 0, true⟩) (s := ({}, {}))
    (fun p => p.2.lost = true ∧ p.2.retried = [(0, some 1)] ∧ p.2.returned = some (.result 1))
    [.call (.syscall true), .call .addConditionTimer, .call (.addEvent true), .call .swapOut,
      .closeGet, .closeCancelAll true true, .closeDel, .closeFile, .reopen, .create,
      .call .resume, .call .cancelTimer, .call .testCancelled, .call (.syscall false)]
    ⟨rfl, rfl⟩ (by decide)
  refine ⟨p, hr, hl, htried, hret, ?_⟩
  intro hsafe
  exact hsafe.2 hl 1 hret

end Recycle
end HxSylar
