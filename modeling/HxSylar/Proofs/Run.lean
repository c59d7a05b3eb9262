import HxSylar.Scheduler

namespace HxSylar.Scheduler

/-- The worker is on the fiber's stack. -/
def Pc.executes (f : FiberId) : Pc → Bool
  | .exec _ g | .swapOut _ g => g = f
  | _ => false

/-- `cb_fiber` after a task that did not end: a callback's fiber is let go. -/
def keepCb (ft : FiberAndThread) (cb : Option FiberId) : Option FiberId :=
  match ft.task with
  | .fiber _ => cb
  | .cb _ => none

/-- All that a step of a worker can do. -/
inductive Ran (tid : Int) (s : Shared) (k : Worker) : RunLabel → Shared → Worker → Bool → Prop
  | begin (hpc : k.pc = .start) : Ran tid s k .begin s { k with pc := .scan } false
  | dequeue (hpc : k.pc = .scan) :
      Ran tid s k .dequeue
        { s with
          fibers := (scan tid s.state s.fibers).rest
          active := s.active + (scan tid s.state s.fibers).taken.isSome.toNat }
        { k with pc := .dispatch (scan tid s.state s.fibers).taken }
        (scan tid s.state s.fibers).tickleMe
  | exit (hpc : k.pc = .dispatch none) (hterm : k.idleTerm = true) :
      Ran tid s k .dispatch s { k with pc := .exited } false
  | goIdle (hpc : k.pc = .dispatch none) (hterm : k.idleTerm = false) :
      Ran tid s k .dispatch { s with idle := s.idle + 1 } { k with pc := .idle } false
  | discard (ft : FiberAndThread) (f : FiberId) (hpc : k.pc = .dispatch (some ft))
      (htask : ft.task = .fiber f) (hdead : (s.state f).dead = true) :
      Ran tid s k .dispatch { s with active := s.active - 1 } { k with pc := .scan } false
  | enterFiber (ft : FiberAndThread) (f : FiberId) (hpc : k.pc = .dispatch (some ft))
      (htask : ft.task = .fiber f) (hlive : (s.state f).dead = false) :
      Ran tid s k .dispatch s { k with pc := .swapIn ft f } false
  | reuseCb (ft : FiberAndThread) (c : Callback) (f : FiberId) (hpc : k.pc = .dispatch (some ft))
      (htask : ft.task = .cb c) (hcb : k.cbFiber = some f)
      (hended : (s.state f).dead = true ∨ s.state f = .init) :
      Ran tid s k .dispatch (s.setState f .init) { k with pc := .swapIn ft f } false
  | newCb (ft : FiberAndThread) (c : Callback) (hpc : k.pc = .dispatch (some ft))
      (htask : ft.task = .cb c) (hcb : k.cbFiber = none) :
      Ran tid s k .dispatch s.newFiber
        { k with pc := .swapIn ft s.nextFiber, cbFiber := some s.nextFiber } false
  | swapIn (ft : FiberAndThread) (f : FiberId) (hpc : k.pc = .swapIn ft f)
      (hstate : s.state f ≠ .exec) :
      Ran tid s k .swapIn (s.setState f .exec) { k with pc := .exec ft f } false
  | yieldToReady (ft : FiberAndThread) (f : FiberId) (hpc : k.pc = .exec ft f)
      (hstate : s.state f = .exec) :
      Ran tid s k .yieldToReady (s.setState f .ready) { k with pc := .swapOut ft f } false
  | yieldToHold (ft : FiberAndThread) (f : FiberId) (hpc : k.pc = .exec ft f)
      (hstate : s.state f = .exec) :
      Ran tid s k .yieldToHold s { k with pc := .swapOut ft f } false
  | finish (ft : FiberAndThread) (f : FiberId) (except : Bool) (hpc : k.pc = .exec ft f) :
      Ran tid s k (.finish except) (s.setState f (if except then .except else .term))
        { k with pc := .swapOut ft f } false
  | release (ft : FiberAndThread) (f : FiberId) (hpc : k.pc = .swapOut ft f) :
      Ran tid s k .release { s with active := s.active - 1 } { k with pc := .writeBack ft f } false
  | requeue (ft : FiberAndThread) (f : FiberId) (hpc : k.pc = .writeBack ft f)
      (hstate : s.state f = .ready) :
      Ran tid s k .writeBack { s with fibers := s.fibers ++ [⟨.fiber f, -1⟩] }
        { k with pc := .scan, cbFiber := keepCb ft k.cbFiber } s.fibers.isEmpty
  | endedFiber (ft : FiberAndThread) (f g : FiberId) (hpc : k.pc = .writeBack ft f)
      (htask : ft.task = .fiber g) (hdead : (s.state f).dead = true) :
      Ran tid s k .writeBack s { k with pc := .scan } false
  | endedCb (ft : FiberAndThread) (f : FiberId) (c : Callback) (hpc : k.pc = .writeBack ft f)
      (htask : ft.task = .cb c) (hdead : (s.state f).dead = true) :
      Ran tid s k .writeBack (s.setState f .init) { k with pc := .scan } false
  | hold (ft : FiberAndThread) (f : FiberId) (hpc : k.pc = .writeBack ft f)
      (hready : s.state f ≠ .ready) (hlive : (s.state f).dead = false) :
      Ran tid s k .writeBack (s.setState f .hold)
        { k with pc := .scan, cbFiber := keepCb ft k.cbFiber } false
  | leaveIdle (term : Bool) (hpc : k.pc = .idle) :
      Ran tid s k (.leaveIdle term) { s with idle := s.idle - 1 }
        { k with pc := .scan, idleTerm := term } false

theorem dispatch_ran {tid : Int} {s s' : Shared} {k k' : Worker} {ft : Option FiberAndThread}
    (hpc : k.pc = .dispatch ft) (h : dispatch s k ft = some (s', k')) :
    Ran tid s k .dispatch s' k' false := by
  cases ft with
  | none =>
    simp only [dispatch] at h
    split at h <;> cases h
    · exact .exit hpc ‹_›
    · exact .goIdle hpc (by simpa using ‹¬ k.idleTerm = true›)
  | some ft =>
    simp only [dispatch] at h
    split at h
    · rename_i f htask
      split at h <;> cases h
      · exact .discard ft f hpc htask ‹_›
      · exact .enterFiber ft f hpc htask (by simpa using ‹¬ (s.state f).dead = true›)
    · rename_i c htask
      split at h
      · rename_i f hcb
        split at h
        · rename_i hended
          cases h
          exact .reuseCb ft c f hpc htask hcb (by simpa using hended)
        · cases h
      · rename_i hcb
        cases h
        exact .newCb ft c hpc htask hcb

theorem writeBack_ran (tid : Int) {s : Shared} {k : Worker} {ft : FiberAndThread} {f : FiberId}
    (hpc : k.pc = .writeBack ft f) :
    Ran tid s k .writeBack (writeBack s k ft f).1 (writeBack s k ft f).2.1
      (writeBack s k ft f).2.2 := by
  by_cases hready : s.state f = .ready
  · have h : Ran tid s k .writeBack _ _ _ := .requeue ft f hpc hready
    cases htask : ft.task <;>
      simpa [writeBack, htask, hready, keepCb, Shared.schedule, scheduleNoLock] using h
  · cases hdead : (s.state f).dead with
    | true =>
      cases htask : ft.task with
      | fiber g => simpa [writeBack, htask, hready, hdead] using .endedFiber ft f g hpc htask hdead
      | cb c => simpa [writeBack, htask, hready, hdead] using .endedCb ft f c hpc htask hdead
    | false =>
      have h : Ran tid s k .writeBack _ _ _ := .hold ft f hpc hready hdead
      cases htask : ft.task <;> simpa [writeBack, htask, hready, hdead, keepCb] using h

theorem runStep_ran {tid : Int} {s s' : Shared} {k k' : Worker} {l : RunLabel} {tk : Bool}
    (h : runStep tid s k l = some (s', k', tk)) : Ran tid s k l s' k' tk := by
  unfold runStep at h
  split at h
  · cases h
    exact .begin ‹_›
  · cases h
    exact .dequeue ‹_›
  · obtain ⟨⟨a, b⟩, ho, he⟩ := Option.map_eq_some_iff.mp h
    cases he
    exact dispatch_ran ‹_› ho
  · split at h
    · cases h
    · cases h
      exact .swapIn _ _ ‹_› ‹_›
  · split at h <;> cases h
    exact .yieldToReady _ _ ‹_› ‹_›
  · split at h <;> cases h
    exact .yieldToHold _ _ ‹_› ‹_›
  · cases h
    exact .finish _ _ _ ‹_›
  · cases h
    exact .release _ _ ‹_›
  · have hw := writeBack_ran tid (s := s) ‹_›
    simp only [Option.some.injEq] at h
    rw [h] at hw
    exact hw
  · cases h
    exact .leaveIdle _ ‹_›
  · cases h

variable {W : Type} [DecidableEq W]

/-- A step of a worker as a step of the whole scheduler. -/
theorem step_run {tid : W → Int} {s t : State W} {w : W} {l : RunLabel} {tk : Bool}
    (h : step tid s (.run w l) = some (t, tk)) :
    ∃ s' k', Ran (tid w) s.shared (s.worker w) l s' k' tk ∧
      t = ⟨s', Function.update s.worker w k'⟩ := by
  obtain ⟨⟨s', k', tk'⟩, ho, he⟩ := Option.map_eq_some_iff.mp h
  cases he
  exact ⟨s', k', runStep_ran ho, rfl⟩

/-- Whatever is not a worker's step leaves the workers where they are. -/
theorem call_worker {tid : W → Int} {s t : State W} {l : Label W} {tk : Bool}
    (hl : ∀ w r, l ≠ .run w r) (h : step tid s l = some (t, tk)) : t.worker = s.worker := by
  cases l with
  | schedule | scheduleRange =>
    simp only [step] at h
    split at h <;> cases h
    rfl
  | newFiber | setAutoStop | setStopping =>
    cases h
    rfl
  | run w r => exact absurd rfl (hl w r)

theorem machine_step {tid : W → Int} {s t : State W} {l : Label W}
    (h : (machine tid).step s l = some t) : ∃ tk, step tid s l = some (t, tk) := by
  obtain ⟨⟨t', tk⟩, ho, rfl⟩ := Option.map_eq_some_iff.mp h
  exact ⟨tk, ho⟩

/-- What the scan leaves is the queue without the entry it took. -/
theorem scan_spec (tid : Int) (state : FiberId → FiberState) (fibers : List FiberAndThread) :
    (∃ skipped ft rest, fibers = skipped ++ ft :: rest ∧
      (scan tid state fibers).taken = some ft ∧ (scan tid state fibers).rest = skipped ++ rest ∧
      (∀ e ∈ skipped, foreign tid e = true ∨ executing state e = true) ∧
      foreign tid ft = false ∧ executing state ft = false) ∨
    (scan tid state fibers).taken = none ∧ (scan tid state fibers).rest = fibers ∧
      ∀ e ∈ fibers, foreign tid e = true ∨ executing state e = true := by
  induction fibers with
  | nil => exact .inr ⟨rfl, rfl, by simp⟩
  | cons e fibers ih =>
    -- Both kinds of skipped entry leave the rest of the scan to the induction.
    have hskip : ∀ b, foreign tid e = true ∨ executing state e = true →
        scan tid state (e :: fibers) = ⟨(scan tid state fibers).taken,
          e :: (scan tid state fibers).rest, b⟩ →
        (∃ skipped ft rest, e :: fibers = skipped ++ ft :: rest ∧
          (scan tid state (e :: fibers)).taken = some ft ∧
          (scan tid state (e :: fibers)).rest = skipped ++ rest ∧
          (∀ x ∈ skipped, foreign tid x = true ∨ executing state x = true) ∧
          foreign tid ft = false ∧ executing state ft = false) ∨
        (scan tid state (e :: fibers)).taken = none ∧
          (scan tid state (e :: fibers)).rest = e :: fibers ∧
          ∀ x ∈ e :: fibers, foreign tid x = true ∨ executing state x = true := by
      intro b he heq
      rw [heq]
      rcases ih with ⟨skipped, ft, rest, hf, ht, hr, hsk, hown, hnot⟩ | ⟨ht, hr, hall⟩
      · refine .inl ⟨e :: skipped, ft, rest, by simp [hf], ht, by simp [hr], ?_, hown, hnot⟩
        exact List.forall_mem_cons.mpr ⟨he, hsk⟩
      · exact .inr ⟨ht, by simp [hr], List.forall_mem_cons.mpr ⟨he, hall⟩⟩
    cases hfor : foreign tid e with
    | true => exact hskip true (.inl hfor) (by simp [scan, hfor])
    | false =>
      cases hex : executing state e with
      | true => exact hskip _ (.inr hex) (by simp [scan, hfor, hex]; rfl)
      | false =>
        exact .inl ⟨[], e, fibers, rfl, by simp [scan, hfor, hex], by simp [scan, hfor, hex],
          by simp, hfor, hex⟩

end HxSylar.Scheduler
