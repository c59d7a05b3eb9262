import HxSylar.Proofs.Run

namespace HxSylar.Scheduler

/-- The thread each fiber was asked to stay on, while it has not ended. -/
abbrev Pins := FiberId → Option Int

/-- The thread id of a `schedule` call as a pin; -1 asks for nothing. -/
def pinOf (thread : Int) : Option Int := if thread = -1 then none else some thread

variable {W : Type} [DecidableEq W]

/-- A fiber is pinned when it is scheduled with a thread before its first
instruction, a callback when its fiber starts; both are free again at their end. -/
def Pins.after (p : Pins) (s : State W) (l : Label W) (_ : State W) : Pins :=
  match l with
  | .schedule (some (.fiber f)) thread =>
    if thread ≠ -1 ∧ s.shared.state f = .init then Function.update p f (some thread) else p
  | .run w .swapIn =>
    match (s.worker w).pc with
    | .swapIn ⟨.cb _, thread⟩ f => Function.update p f (pinOf thread)
    | _ => p
  | .run w (.finish _) =>
    match (s.worker w).pc with
    | .exec _ f => Function.update p f none
    | _ => p
  | _ => p

def pinned (tid : W → Int) : Lib.Machine (State W × Pins) (Label W) :=
  (machine tid).observe (fun _ => none) Pins.after

/-- The worker has taken an entry of the fiber, or is on it. A callback on its way in
does not count: its fiber has not become it yet. -/
def Pc.claims (f : FiberId) : Pc → Bool
  | .dispatch (some ft) => ft.task = .fiber f
  | .swapIn ft g => g = f && match ft.task with | .fiber _ => true | .cb _ => false
  | .exec _ g | .swapOut _ g | .writeBack _ g => g = f
  | _ => false

/-- Every claim on the fiber, queued or held, is for this thread. -/
def Agrees (tid : W → Int) (s : State W) (f : FiberId) (thread : Int) : Prop :=
  (∀ ft ∈ s.shared.fibers, ft.task = .fiber f → ft.thread = thread) ∧
  ∀ w, (s.worker w).pc.claims f = true → tid w = thread

/-- Every entry of a pinned fiber carries its pin, those of run() included, and a
fiber is pinned only while all its claims agree. -/
def PinKept (tid : W → Int) (q : State W × Pins) : Label W → Prop
  | .schedule (some (.fiber f)) thread =>
      (∀ t, q.2 f = some t → thread = t) ∧
      (thread ≠ -1 → q.1.shared.state f = .init → Agrees tid q.1 f thread)
  | .scheduleRange fcs => ∀ f, some (.fiber f) ∈ fcs → q.2 f = none
  | .run w .writeBack =>
      ∀ ft f, (q.1.worker w).pc = .writeBack ft f → q.1.shared.state f = .ready → q.2 f = none
  | .run w .swapIn =>
      ∀ c thread f, (q.1.worker w).pc = .swapIn ⟨.cb c, thread⟩ f → thread ≠ -1 →
        Agrees tid q.1 f thread
  | _ => True

/-- The pins against the queue and the workers. -/
structure Affine (tid : W → Int) (s : State W) (p : Pins) : Prop where
  real : ∀ f t, p f = some t → t ≠ -1
  agrees : ∀ f t, p f = some t → Agrees tid s f t
  held : ∀ w ft, ((s.worker w).pc = .dispatch (some ft) ∨ ∃ f, (s.worker w).pc = .swapIn ft f) →
    ft.thread = -1 ∨ ft.thread = tid w

/-- A step of a worker, with the pins as they are after it. -/
theorem affine_run {tid : W → Int} {s : State W} {p p' : Pins} {w : W} {s' : Shared} {k' : Worker}
    (h : Affine tid s p) (hreal : ∀ f t, p' f = some t → t ≠ -1)
    (hqueue : ∀ f t, p' f = some t → ∀ ft ∈ s'.fibers, ft.task = .fiber f → ft.thread = t)
    (hself : ∀ f t, p' f = some t → k'.pc.claims f = true → tid w = t)
    (hothers : ∀ f t, p' f = some t → ∀ v, v ≠ w → (s.worker v).pc.claims f = true → tid v = t)
    (hheld : ∀ ft, (k'.pc = .dispatch (some ft) ∨ ∃ f, k'.pc = .swapIn ft f) →
      ft.thread = -1 ∨ ft.thread = tid w) :
    Affine tid ⟨s', Function.update s.worker w k'⟩ p' := by
  refine ⟨hreal, fun f t hp => ⟨hqueue f t hp, fun v hv => ?_⟩, fun v ft hv => ?_⟩
  · by_cases hne : v = w
    · subst hne
      exact hself f t hp (by simpa using hv)
    · exact hothers f t hp v hne (by simpa [hne] using hv)
  · by_cases hne : v = w
    · subst hne
      exact hheld ft (by simpa using hv)
    · exact h.held v ft (by simpa [hne] using hv)

/-- One that pins nothing, queues nothing and claims nothing new. -/
theorem Affine.keep {tid : W → Int} {s : State W} {p : Pins} {w : W} {s' : Shared} {k' : Worker}
    (h : Affine tid s p) (hqueue : ∀ ft ∈ s'.fibers, ft ∈ s.shared.fibers)
    (hclaims : ∀ f, k'.pc.claims f = true → (s.worker w).pc.claims f = true)
    (hheld : ∀ ft, (k'.pc = .dispatch (some ft) ∨ ∃ f, k'.pc = .swapIn ft f) →
      ft.thread = -1 ∨ ft.thread = tid w) :
    Affine tid ⟨s', Function.update s.worker w k'⟩ p :=
  affine_run h h.real (fun f t hp ft hft => (h.agrees f t hp).1 ft (hqueue ft hft))
    (fun f t hp hc => (h.agrees f t hp).2 w (hclaims f hc))
    (fun f t hp v _ hc => (h.agrees f t hp).2 v hc) hheld

/-- Freeing a fiber asks for nothing. -/
theorem unpin {p : Pins} {f g : FiberId} {t : Int} (h : Function.update p g none f = some t) :
    p f = some t := by
  by_cases hf : f = g
  · subst hf; simp at h
  · simpa [hf] using h

theorem pinOf_some {thread t : Int} (h : pinOf thread = some t) : thread = t ∧ t ≠ -1 := by
  unfold pinOf at h
  split at h
  · cases h
  · cases h
    exact ⟨rfl, ‹_›⟩

omit [DecidableEq W] in
/-- A worker on its way into a fiber holds the entry it dequeued. -/
theorem enters_held {tid : W → Int} {s : State W} {p : Pins} {w : W} {ft : FiberAndThread}
    {f : FiberId} (h : Affine tid s p)
    (hpc : (s.worker w).pc = .dispatch (some ft) ∨ ∃ f, (s.worker w).pc = .swapIn ft f) :
    ∀ e, (Pc.swapIn ft f = .dispatch (some e) ∨ ∃ g, Pc.swapIn ft f = .swapIn e g) →
      e.thread = -1 ∨ e.thread = tid w := by
  intro e he
  simp only [reduceCtorEq, Pc.swapIn.injEq, exists_and_left, exists_eq', and_true, false_or] at he
  exact he ▸ h.held w ft hpc

/-- A pinned entry is taken only because the pin is this thread. -/
theorem Affine.dequeue {tid : W → Int} {s : State W} {p : Pins} {w : W} {active : Int}
    (h : Affine tid s p) :
    Affine tid
      ⟨{ s.shared with
          fibers := (scan (tid w) s.shared.state s.shared.fibers).rest
          active := active },
        Function.update s.worker w { s.worker w with
          pc := .dispatch (scan (tid w) s.shared.state s.shared.fibers).taken }⟩ p := by
  rcases scan_spec (tid w) s.shared.state s.shared.fibers with
    ⟨skipped, ft, rest, hf, ht, hrest, _, hown, _⟩ | ⟨ht, hrest, _⟩
  · have hmem : ft ∈ s.shared.fibers := by simp [hf]
    have hmine : ft.thread = -1 ∨ ft.thread = tid w := by
      by_cases hthr : ft.thread = -1
      · exact .inl hthr
      · exact .inr (by simpa [foreign, hthr] using hown)
    refine affine_run h h.real ?_ ?_ (fun f t hp v _ hc => (h.agrees f t hp).2 v hc) ?_
    · intro f t hp e he
      apply (h.agrees f t hp).1 e
      simp only [hrest] at he
      rcases List.mem_append.mp he with he | he <;> simp [hf, he]
    · intro f t hp hc
      simp only [ht, Pc.claims, decide_eq_true_eq] at hc
      have hthr := (h.agrees f t hp).1 ft hmem hc
      rcases hmine with hany | hmine
      · exact absurd (hthr.symm.trans hany) (h.real f t hp)
      · exact hmine.symm.trans hthr
    · intro e he
      simp only [ht, Pc.dispatch.injEq, Option.some.injEq, reduceCtorEq, exists_false,
        or_false] at he
      exact he ▸ hmine
  · simp only [ht, hrest]
    exact h.keep (fun _ hft => hft) (by simp [Pc.claims]) (by simp)

/-- A callback pins the fiber that runs it to the thread of its entry. -/
theorem Affine.swapInCb {tid : W → Int} {s : State W} {p : Pins} {w : W} {s' : Shared}
    {k' : Worker} {c : Callback} {thread : Int} {f : FiberId} (h : Affine tid s p)
    (hok : PinKept tid (s, p) (.run w .swapIn)) (hpc : (s.worker w).pc = .swapIn ⟨.cb c, thread⟩ f)
    (hqueue : s'.fibers = s.shared.fibers) (hpc' : k'.pc = .exec ⟨.cb c, thread⟩ f) :
    Affine tid ⟨s', Function.update s.worker w k'⟩ (Function.update p f (pinOf thread)) := by
  have hmine : thread = -1 ∨ thread = tid w := h.held w ⟨.cb c, thread⟩ (.inr ⟨f, hpc⟩)
  have hnew : ∀ g t, Function.update p f (pinOf thread) g = some t →
      g ≠ f ∧ p g = some t ∨ g = f ∧ thread = t ∧ t ≠ -1 := by
    intro g t hp
    by_cases hg : g = f
    · subst hg
      exact .inr ⟨rfl, pinOf_some (by simpa using hp)⟩
    · exact .inl ⟨hg, by simpa [hg] using hp⟩
  refine affine_run h ?_ ?_ ?_ ?_ (by simp [hpc'])
  · intro g t hp
    rcases hnew g t hp with ⟨_, hp⟩ | ⟨_, _, ht⟩
    · exact h.real g t hp
    · exact ht
  · intro g t hp
    rw [hqueue]
    rcases hnew g t hp with ⟨_, hp⟩ | ⟨rfl, rfl, ht⟩
    · exact (h.agrees g t hp).1
    · exact (hok c thread g hpc ht).1
  · intro g t hp hc
    rcases hnew g t hp with ⟨hg, _⟩ | ⟨rfl, rfl, ht⟩
    · simp [hpc', Pc.claims, Ne.symm hg] at hc
    · exact (hmine.resolve_left ht).symm
  · intro g t hp v _ hc
    rcases hnew g t hp with ⟨_, hp⟩ | ⟨rfl, rfl, ht⟩
    · exact (h.agrees g t hp).2 v hc
    · exact (hok c thread g hpc ht).2 v hc

theorem Affine.ran {tid : W → Int} {s : State W} {p : Pins} {w : W} {l : RunLabel} {s' : Shared}
    {k' : Worker} {tk : Bool} (h : Affine tid s p) (hok : PinKept tid (s, p) (.run w l))
    (hr : Ran (tid w) s.shared (s.worker w) l s' k' tk) :
    Affine tid ⟨s', Function.update s.worker w k'⟩
      (p.after s (.run w l) ⟨s', Function.update s.worker w k'⟩) := by
  cases hr with
  | begin hpc | exit hpc | goIdle hpc | leaveIdle _ hpc | endedFiber _ _ _ hpc | endedCb _ _ _ hpc
  | hold _ _ hpc | discard _ _ hpc =>
    exact h.keep (fun _ hft => hft) (by simp [Pc.claims]) (by simp)
  | release ft f hpc | yieldToReady ft f hpc | yieldToHold ft f hpc =>
    exact h.keep (fun _ hft => hft) (by simp [hpc, Pc.claims]) (by simp)
  | dequeue hpc => exact h.dequeue
  | enterFiber ft f hpc htask =>
    exact h.keep (fun _ hft => hft) (by simp [hpc, Pc.claims, htask])
      (enters_held h (.inl hpc))
  | reuseCb ft c f hpc htask =>
    exact h.keep (fun _ hft => hft) (by simp [Pc.claims, htask]) (enters_held h (.inl hpc))
  | newCb ft c hpc htask =>
    exact h.keep (fun _ hft => hft) (by simp [Pc.claims, htask]) (enters_held h (.inl hpc))
  | swapIn ft f hpc =>
    obtain ⟨task, thread⟩ := ft
    cases task with
    | fiber g =>
      simp only [Pins.after, hpc]
      exact h.keep (fun _ hft => hft) (by simp [hpc, Pc.claims]) (by simp)
    | cb c =>
      simp only [Pins.after, hpc]
      exact h.swapInCb hok hpc rfl rfl
  | finish ft f except hpc =>
    simp only [Pins.after, hpc]
    refine affine_run h (fun g t hp => h.real g t (unpin hp))
      (fun g t hp => (h.agrees g t (unpin hp)).1) ?_
      (fun g t hp v _ hc => (h.agrees g t (unpin hp)).2 v hc) (by simp)
    intro g t hp hc
    exact (h.agrees g t (unpin hp)).2 w (by simpa [hpc, Pc.claims] using hc)
  | requeue ft f hpc hstate =>
    have hfree : p f = none := hok ft f hpc hstate
    refine affine_run h h.real ?_ (by simp [Pc.claims])
      (fun g t hp v _ hc => (h.agrees g t hp).2 v hc) (by simp)
    intro g t hp e he htask
    rcases List.mem_append.mp he with he | he
    · exact (h.agrees g t hp).1 e he htask
    · rcases List.mem_singleton.mp he with rfl
      cases htask
      simp [Pins.after, hfree] at hp

omit [DecidableEq W] in
/-- A call from any thread. -/
theorem Affine.push {tid : W → Int} {s : State W} {p p' : Pins} {es : List FiberAndThread}
    (h : Affine tid s p) (hreal : ∀ f t, p' f = some t → t ≠ -1)
    (hold : ∀ f t, p' f = some t → Agrees tid s f t)
    (hnew : ∀ f t, p' f = some t → ∀ ft ∈ es, ft.task = .fiber f → ft.thread = t) :
    Affine tid { s with shared := { s.shared with fibers := s.shared.fibers ++ es } } p' := by
  refine ⟨hreal, fun f t hp => ⟨?_, (hold f t hp).2⟩, h.held⟩
  intro ft hft htask
  rcases List.mem_append.mp hft with hft | hft
  · exact (hold f t hp).1 ft hft htask
  · exact hnew f t hp ft hft htask

theorem Affine.schedule {tid : W → Int} {s t : State W} {p : Pins} {fc : Option Task}
    {thread : Int} {tk : Bool} (h : Affine tid s p)
    (hok : PinKept tid (s, p) (.schedule fc thread))
    (hs : step tid s (.schedule fc thread) = some (t, tk)) :
    Affine tid t (p.after s (.schedule fc thread) t) := by
  simp only [step] at hs
  split at hs <;> cases hs
  cases fc with
  | none => exact h.push h.real h.agrees (by simp)
  | some task =>
    cases task with
    | cb c => exact h.push h.real h.agrees (by simp)
    | fiber f =>
      obtain ⟨hsame, hagree⟩ := hok
      simp only [Pins.after]
      split
      · rename_i hpin
        have hnew : ∀ g t, Function.update p f (some thread) g = some t →
            g ≠ f ∧ p g = some t ∨ g = f ∧ thread = t := by
          intro g t hp
          by_cases hg : g = f
          · subst hg
            exact .inr ⟨rfl, by simpa using hp⟩
          · exact .inl ⟨hg, by simpa [hg] using hp⟩
        refine h.push ?_ ?_ ?_
        · intro g t hp
          rcases hnew g t hp with ⟨_, hp⟩ | ⟨_, rfl⟩
          · exact h.real g t hp
          · exact hpin.1
        · intro g t hp
          rcases hnew g t hp with ⟨_, hp⟩ | ⟨rfl, rfl⟩
          · exact h.agrees g t hp
          · exact hagree hpin.1 hpin.2
        · intro g t hp ft hft htask
          simp only [Option.map_some, Option.toList_some, List.mem_singleton] at hft
          subst hft
          cases htask
          rcases hnew f t hp with ⟨hne, _⟩ | ⟨_, rfl⟩
          · exact absurd rfl hne
          · rfl
      · apply h.push h.real h.agrees
        intro g t hp ft hft htask
        simp only [Option.map_some, Option.toList_some, List.mem_singleton] at hft
        subst hft
        cases htask
        exact hsame t hp

theorem Affine.step {tid : W → Int} {s t : State W} {p : Pins} {l : Label W} {tk : Bool}
    (h : Affine tid s p) (hok : PinKept tid (s, p) l) (hs : step tid s l = some (t, tk)) :
    Affine tid t (p.after s l t) := by
  cases l with
  | schedule fc thread => exact h.schedule hok hs
  | scheduleRange fcs =>
    simp only [Scheduler.step] at hs
    split at hs <;> cases hs
    simp only [Shared.scheduleRange, scheduleRange_fibers]
    apply h.push h.real h.agrees
    intro f t hp ft hft htask
    obtain ⟨fc, hfc, hmap⟩ := List.mem_filterMap.mp hft
    obtain ⟨task, rfl, rfl⟩ := Option.map_eq_some_iff.mp hmap
    simp only at htask
    subst htask
    have hfree : p f = none := hok f hfc
    simp [hfree] at hp
  | newFiber | setAutoStop | setStopping =>
    cases hs
    exact ⟨h.real, h.agrees, h.held⟩
  | run w l =>
    obtain ⟨s', k', hr, rfl⟩ := step_run hs
    exact h.ran hok hr

theorem reachable_affine {tid : W → Int} {q : State W × Pins}
    (hr : (pinned tid).ReachableUnder (PinKept tid) q) : Affine tid q.1 q.2 := by
  refine Lib.Machine.ReachableUnder.invariant (P := fun q => Affine tid q.1 q.2) ?_ ?_ hr
  · intro ⟨s, p⟩ hinit
    obtain ⟨rfl, rfl⟩ := hinit
    exact ⟨by simp, by simp, by simp⟩
  · intro ⟨s, p⟩ l ⟨t, p'⟩ h hok hstep
    obtain ⟨hs, hp⟩ := Lib.Machine.observe_step hstep
    obtain ⟨tk, hs⟩ := machine_step hs
    simp only at hp
    subst hp
    exact h.step hok hs

theorem executes_claims {f : FiberId} {pc : Pc} (h : pc.executes f = true) :
    pc.claims f = true := by
  cases pc <;> simp_all [Pc.executes, Pc.claims]

/-- A pinned fiber or callback is executed on its thread only, in every run in which
each entry of a pinned fiber carries its pin. -/
theorem thread_affinity (tid : W → Int) {s : State W} {p : Pins}
    (hr : (pinned tid).ReachableUnder (PinKept tid) (s, p)) :
    ∀ w f t, (s.worker w).pc.executes f = true → p f = some t → tid w = t := by
  intro w f t he hp
  exact ((reachable_affine hr).agrees f t hp).2 w (executes_claims he)

/-- A fiber pinned to the second thread is left alone by the first one's scan. -/
theorem thread_affinity_run :
    ∃ q : State (Fin 2) × Pins, (pinned (fun w : Fin 2 => (w.val : Int) + 1)).ReachableUnder
        (PinKept (fun w : Fin 2 => (w.val : Int) + 1)) q ∧
      (q.1.worker 1).pc.executes 0 = true ∧ q.2 0 = some 2 ∧ ((1 : Fin 2).val : Int) + 1 = 2 := by
  have hr : (pinned (fun w : Fin 2 => (w.val : Int) + 1)).ReachableUnder
      (PinKept (fun w : Fin 2 => (w.val : Int) + 1)) _ :=
    Lib.Machine.ReachableUnder.exec
      (s := (({} : State (Fin 2)), fun _ => none)) (.start ⟨rfl, rfl⟩)
      [.newFiber, .schedule (some (.fiber 0)) 2, .run 0 .begin, .run 0 .dequeue,
        .run 1 .begin, .run 1 .dequeue, .run 1 .dispatch, .run 1 .swapIn]
      (.cons rfl trivial <| .cons rfl
        ⟨(fun _ h => nomatch h), fun _ _ => ⟨(fun _ h => nomatch h), by decide⟩⟩ <|
        .cons rfl trivial <| .cons rfl trivial <| .cons rfl trivial <| .cons rfl trivial <|
        .cons rfl trivial <| .cons rfl (fun _ _ _ h => nomatch h) trivial) rfl
  exact ⟨_, hr, rfl, rfl, thread_affinity _ hr 1 0 2 rfl rfl⟩

/-- A fiber pinned to the first thread yields once. run() queues it again for any
thread, and the second thread goes on with it; so with a callback. -/
theorem thread_affinity_broken :
    (∃ q : State (Fin 2) × Pins, (pinned (fun w : Fin 2 => (w.val : Int) + 1)).Reachable q ∧
      q.2 0 = some 1 ∧ (q.1.worker 1).pc.executes 0 = true) ∧
    ∃ q : State (Fin 2) × Pins, (pinned (fun w : Fin 2 => (w.val : Int) + 1)).Reachable q ∧
      q.2 0 = some 1 ∧ (q.1.worker 1).pc = .exec ⟨.fiber 0, -1⟩ 0 := by
  constructor
  · exact ⟨_, Lib.Machine.reachable_of_exec (s := (({} : State (Fin 2)), fun _ => none))
      [.newFiber, .schedule (some (.fiber 0)) 1, .run 0 .begin, .run 1 .begin,
        .run 0 .dequeue, .run 0 .dispatch, .run 0 .swapIn, .run 0 .yieldToReady, .run 0 .release,
        .run 0 .writeBack, .run 1 .dequeue, .run 1 .dispatch, .run 1 .swapIn] ⟨rfl, rfl⟩ rfl,
      rfl, rfl⟩
  · exact ⟨_, Lib.Machine.reachable_of_exec (s := (({} : State (Fin 2)), fun _ => none))
      [.schedule (some (.cb 3)) 1, .run 0 .begin, .run 1 .begin,
        .run 0 .dequeue, .run 0 .dispatch, .run 0 .swapIn, .run 0 .yieldToReady, .run 0 .release,
        .run 0 .writeBack, .run 1 .dequeue, .run 1 .dispatch, .run 1 .swapIn] ⟨rfl, rfl⟩ rfl,
      rfl, rfl⟩

end HxSylar.Scheduler
