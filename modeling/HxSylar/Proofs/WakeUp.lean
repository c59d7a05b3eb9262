import Mathlib.Data.Fintype.Sum
import HxSylar.Proofs.IOManager

namespace HxSylar

namespace Scheduler
variable {W : Type} [DecidableEq W]

/-- The worker has entered the fiber and not yet written its state back. -/
def Pc.on (f : FiberId) : Pc → Bool
  | .exec _ g | .swapOut _ g | .writeBack _ g => g = f
  | _ => false

/-- The worker will scan the queue again before it can block. -/
def Pc.alert : Pc → Bool
  | .start | .dispatch none | .idle | .exited => false
  | _ => true

theorem on_alert {f : FiberId} {pc : Pc} (h : pc.on f = true) : pc.alert = true := by
  cases pc <;> simp_all [Pc.on, Pc.alert]

/-- Whoever is in EXEC is there at the hands of a worker. -/
def Attended (s : State W) : Prop :=
  ∀ f, s.shared.state f = .exec → ∃ w, (s.worker w).pc.on f = true

/-- A worker that changes the state of `f` only, and stays on all other fibers. -/
theorem Attended.run {s : State W} {w : W} {s' : Shared} {k' : Worker} (h : Attended s)
    (hkeep : ∀ f, s'.state f = .exec →
      k'.pc.on f = true ∨ s.shared.state f = .exec ∧ (s.worker w).pc.on f = false) :
    Attended ⟨s', Function.update s.worker w k'⟩ := by
  intro f hf
  rcases hkeep f hf with hon | ⟨hold, hoff⟩
  · exact ⟨w, by simpa using hon⟩
  · obtain ⟨v, hv⟩ := h f hold
    refine ⟨v, ?_⟩
    have hne : v ≠ w := by
      intro he
      subst he
      rw [hv] at hoff
      cases hoff
    simpa [hne] using hv

theorem Attended.ran {tid : Int} {s : State W} {w : W} {l : RunLabel} {s' : Shared} {k' : Worker}
    {tk : Bool} (h : Attended s) (hr : Ran tid s.shared (s.worker w) l s' k' tk) :
    Attended ⟨s', Function.update s.worker w k'⟩ := by
  refine h.run (fun f hf => ?_)
  -- Steps that write the state of `g` leave the others as they were.
  have other : ∀ g st, (s.shared.setState g st).state f = .exec → f ≠ g →
      s.shared.state f = .exec := by
    intro g st hst hne
    simpa [Shared.setState, hne] using hst
  cases hr with
  | begin hpc | dequeue hpc | exit hpc | goIdle hpc | discard _ _ hpc | enterFiber _ _ hpc
  | leaveIdle _ hpc => exact .inr ⟨hf, by simp [hpc, Pc.on]⟩
  | reuseCb ft c g hpc =>
    by_cases hne : f = g
    · subst hne; simp [Shared.setState] at hf
    · exact .inr ⟨other g _ hf hne, by simp [hpc, Pc.on]⟩
  | newCb ft c hpc =>
    by_cases hne : f = s.shared.nextFiber
    · subst hne; simp [Shared.newFiber, Shared.setState] at hf
    · exact .inr ⟨other _ _ hf hne, by simp [hpc, Pc.on]⟩
  | swapIn ft g hpc =>
    by_cases hne : f = g
    · subst hne
      exact .inl (by simp [Pc.on])
    · exact .inr ⟨other g _ hf hne, by simp [hpc, Pc.on]⟩
  | yieldToHold ft g hpc | release ft g hpc =>
    by_cases hne : f = g
    · subst hne
      exact .inl (by simp [Pc.on])
    · exact .inr ⟨hf, by simp [hpc, Pc.on, Ne.symm hne]⟩
  | yieldToReady ft g hpc | finish ft g _ hpc =>
    by_cases hne : f = g
    · subst hne
      exact .inl (by simp [Pc.on])
    · exact .inr ⟨other g _ hf hne, by simp [hpc, Pc.on, Ne.symm hne]⟩
  | requeue ft g hpc hstate =>
    have hne : g ≠ f := by
      intro he
      subst he
      simp [hstate] at hf
    exact .inr ⟨hf, by simp [hpc, Pc.on, hne]⟩
  | endedFiber ft g _ hpc _ hdead =>
    have hne : g ≠ f := by
      intro he
      subst he
      simp [hf, FiberState.dead] at hdead
    exact .inr ⟨hf, by simp [hpc, Pc.on, hne]⟩
  | endedCb ft g _ hpc =>
    by_cases hne : f = g
    · subst hne; simp [Shared.setState] at hf
    · exact .inr ⟨other g _ hf hne, by simp [hpc, Pc.on, Ne.symm hne]⟩
  | hold ft g hpc =>
    by_cases hne : f = g
    · subst hne; simp [Shared.setState] at hf
    · exact .inr ⟨other g _ hf hne, by simp [hpc, Pc.on, Ne.symm hne]⟩

theorem Attended.step {tid : W → Int} {s t : State W} {l : Label W} (h : Attended s)
    (ht : (machine tid).step s l = some t) : Attended t := by
  obtain ⟨tk, ht⟩ := machine_step ht
  cases l with
  | schedule | scheduleRange =>
    simp only [Scheduler.step] at ht
    split at ht <;> cases ht
    exact h
  | setAutoStop | setStopping =>
    cases ht
    exact h
  | newFiber =>
    cases ht
    intro f hf
    by_cases hne : f = s.shared.nextFiber
    · subst hne; simp [Shared.newFiber, Shared.setState] at hf
    · exact h f (by simpa [Shared.newFiber, Shared.setState, hne] using hf)
  | run w l =>
    obtain ⟨s', k', hran, rfl⟩ := step_run ht
    exact h.ran hran

/-- A scan that finds nothing and sees no need to tickle leaves executing fibers only. -/
theorem scan_silent {tid : Int} {state : FiberId → FiberState} {fibers : List FiberAndThread}
    (hnone : (scan tid state fibers).taken = none) (hquiet : (scan tid state fibers).tickleMe = false) :
    ∀ ft ∈ fibers, executing state ft = true := by
  induction fibers with
  | nil => simp
  | cons e fibers ih =>
    simp only [scan] at hnone hquiet
    split at hquiet
    · cases hquiet
    · rename_i hfor
      simp only [hfor, Bool.false_eq_true, ↓reduceIte] at hnone
      split at hquiet
      · rename_i hex
        simp only [hex, ↓reduceIte] at hnone
        exact List.forall_mem_cons.mpr ⟨hex, ih hnone hquiet⟩
      · rename_i hex
        simp [hex] at hnone

/-- What a step of a worker means for whoever waits for the queue to be served. -/
theorem ran_serves {tid : Int} {s : Shared} {k : Worker} {l : RunLabel} {s' : Shared} {k' : Worker}
    {tk : Bool} (hr : Ran tid s k l s' k' tk) :
    k'.pc.alert = true ∨ s'.fibers = s.fibers ∧ k.pc = .dispatch none ∨ tk = true ∨
      k.pc = .scan ∧ ∀ ft ∈ s'.fibers, executing s.state ft = true := by
  cases hr with
  | begin | discard | enterFiber | reuseCb | newCb | swapIn | yieldToReady | yieldToHold | finish
  | release | requeue | endedFiber | endedCb | hold | leaveIdle => exact .inl rfl
  | exit hpc | goIdle hpc => exact .inr (.inl ⟨rfl, hpc⟩)
  | dequeue hpc =>
    cases ht : (scan tid s.state s.fibers).taken with
    | some ft => exact .inl (by simp [Pc.alert])
    | none =>
      cases hq : (scan tid s.state s.fibers).tickleMe with
      | true => exact .inr (.inr (.inl rfl))
      | false =>
        refine .inr (.inr (.inr ⟨hpc, ?_⟩))
        rcases scan_spec tid s.state s.fibers with ⟨_, _, _, _, hsome, _⟩ | ⟨_, hrest, _⟩
        · rw [ht] at hsome
          cases hsome
        · simp only [hrest]
          exact scan_silent ht hq

/-- A call that puts something into an empty queue owes a tickle. -/
theorem call_tickles {tid : W → Int} {s t : State W} {l : Label W} {tk : Bool}
    (hl : ∀ w r, l ≠ .run w r) (hs : step tid s l = some (t, tk)) (he : s.shared.fibers = [])
    (hne : t.shared.fibers ≠ []) : tk = true := by
  cases l with
  | schedule fc thread =>
    simp only [step] at hs
    split at hs <;> cases hs
    simp [Shared.schedule, scheduleNoLock, he]
  | scheduleRange fcs =>
    simp only [step] at hs
    split at hs <;> cases hs
    simp only [Shared.scheduleRange, he] at hne ⊢
    apply scheduleRange_tickle fcs
    intro he
    subst he
    exact hne rfl
  | newFiber | setAutoStop | setStopping =>
    cases hs
    exact absurd he hne
  | run w r => exact absurd rfl (hl w r)

end Scheduler

namespace IOManager
variable {W O F : Type} [DecidableEq W] [DecidableEq O]

/-- Past epoll_wait, or about to leave idle() for good. -/
def IdlePc.alert : IdlePc F → Bool
  | .stopping _ | .blocked => false
  | _ => true

/-- The worker will scan the queue again before it can block. -/
def alert (s : State W O F) (w : W) : Bool :=
  (s.sched.worker w).pc.alert || (inIdle s w && (s.idlePc w).alert)

/-- Somebody looks after the queue: a byte in the pipe, a thread that is about to
write one, or a worker that has yet to scan. -/
def Served (s : State W O F) : Prop :=
  0 < s.pipe ∨ (∃ th, (s.hand th).tickling ≠ .no) ∨ ∃ w, alert s w = true

/-- The queue is empty or looked after, and what it holds for executing fibers will
be reached by the workers that execute them. -/
structure Watched (s : State W O F) : Prop where
  served : s.sched.shared.fibers ≠ [] → Served s
  attended : Scheduler.Attended s.sched

/-- A tickle() that finds somebody idle, and so writes nothing, finds the queue empty
or looked after without it. -/
def Harmless (s : State W O F) : Label W O F → Prop
  | .tickle th => (s.hand th).tickling = .guard → 0 < s.sched.shared.idle →
      s.sched.shared.fibers = [] ∨ 0 < s.pipe ∨ (∃ u, u ≠ th ∧ (s.hand u).tickling ≠ .no) ∨
        ∃ w, alert s w = true
  | _ => True

omit [DecidableEq W] [DecidableEq O] in
theorem Served.mono {s t : State W O F} (h : Served s) (hpipe : 0 < s.pipe → 0 < t.pipe)
    (htick : ∀ th, (s.hand th).tickling ≠ .no → (t.hand th).tickling ≠ .no)
    (halert : ∀ w, alert s w = true → alert t w = true) : Served t := by
  rcases h with hp | ⟨th, hth⟩ | ⟨w, hw⟩
  · exact .inl (hpipe hp)
  · exact .inr (.inl ⟨th, htick th hth⟩)
  · exact .inr (.inr ⟨w, halert w hw⟩)

/-- A scheduler call made by any thread keeps the queue looked after. -/
theorem call_served {tid : W → Int} {s t : State W O F} {th : W ⊕ O} {l : Scheduler.Label W}
    (hl : ∀ w r, l ≠ .run w r) (h : s.sched.shared.fibers ≠ [] → Served s)
    (hs : schedStep tid s th l = some t) :
    (t.sched.shared.fibers ≠ [] → Served t) ∧ t.sched.worker = s.sched.worker := by
  obtain ⟨sc, tk, hstep, rfl⟩ := schedStep_ok hs
  have hw := Scheduler.call_worker hl hstep
  refine ⟨?_, by simpa using hw⟩
  intro hne
  by_cases hempty : s.sched.shared.fibers = []
  · rw [Scheduler.call_tickles hl hstep hempty (by simpa using hne)]
    exact .inr (.inl ⟨th, oweTickle_owes _ th⟩)
  · refine (h hempty).mono (by simp) (fun u hu => oweTickle_keeps _ th tk hu) ?_
    intro w halert
    simpa [alert, inIdle, hw] using halert

/-- So does a step of run(). -/
theorem run_served {tid : W → Int} {s u : State W O F} {w : W} {l : Scheduler.RunLabel}
    (h : Watched s) (hs : schedStep tid s (.inl w) (.run w l) = some u)
    (hne : u.sched.shared.fibers ≠ []) :
    (u.sched.worker w).pc.alert = true ∨
    (0 < u.pipe ∨ (∃ th, (u.hand th).tickling ≠ .no) ∨ ∃ v, v ≠ w ∧ alert u v = true) := by
  obtain ⟨sc, tk, hstep, rfl⟩ := schedStep_ok hs
  obtain ⟨s', k', hran, rfl⟩ := Scheduler.step_run hstep
  have halert : ∀ v, v ≠ w → alert s v = true →
      alert (oweTickle { s with sched := ⟨s', Function.update s.sched.worker w k'⟩ } (.inl w) tk) v =
        true := by
    intro v hv ha
    simpa [alert, inIdle, hv] using ha
  rcases Scheduler.ran_serves hran with hk | ⟨hf, hpc⟩ | rfl | ⟨hpc, hex⟩
  · exact .inl (by simpa using hk)
  · right
    simp only [oweTickle_sched, hf] at hne
    rcases h.served hne with hp | ⟨th, hth⟩ | ⟨v, hv⟩
    · exact .inl (by simpa using hp)
    · exact .inr (.inl ⟨th, oweTickle_keeps _ _ _ hth⟩)
    · have hvw : v ≠ w := by
        intro he
        subst he
        simp [alert, inIdle, hpc, Scheduler.Pc.alert] at hv
      exact .inr (.inr ⟨v, hvw, halert v hvw hv⟩)
  · exact .inr (.inr (.inl ⟨.inl w, oweTickle_owes _ _⟩))
  · -- Only executing fibers are queued; the worker on one of them is still to scan.
    right
    simp only [oweTickle_sched] at hne
    obtain ⟨ft, hft⟩ := List.exists_mem_of_ne_nil _ hne
    have hexec := hex ft hft
    cases htask : ft.task with
    | cb c => simp [Scheduler.executing, htask] at hexec
    | fiber f =>
      have hstate : s.sched.shared.state f = .exec := by
        simpa [Scheduler.executing, htask] using hexec
      obtain ⟨v, hv⟩ := h.attended f hstate
      have hvw : v ≠ w := by
        intro he
        subst he
        simp [hpc, Scheduler.Pc.on] at hv
      exact .inr (.inr ⟨v, hvw, halert v hvw (by simp [alert, Scheduler.on_alert hv])⟩)

omit [DecidableEq W] [DecidableEq O] in
/-- A worker that comes out of a step alert looks after the queue itself. -/
theorem served_by {s : State W O F} {w : W} (h : alert s w = true) : Served s :=
  .inr (.inr ⟨w, h⟩)

theorem stopReadStep_served {s t : State W O F} {th : W ⊕ O} {now : UInt64}
    (h : s.sched.shared.fibers ≠ [] → Served s) (hs : stopReadStep s th now = some t) :
    t.sched.shared.fibers ≠ [] → Served t := by
  unfold stopReadStep at hs
  split at hs
  · cases hs
  · rename_i r hr
    cases th with
    | inl w =>
      cases hs
      intro hne
      refine (h hne).mono (fun hp => hp) (fun _ hu => hu) ?_
      intro v hv
      by_cases hvw : v = w
      · subst hvw
        -- A worker that is evaluating stopping() is not alert.
        obtain ⟨hin, hpc⟩ := reading_inl.mp hr
        simp only [inIdle, beq_iff_eq] at hin
        simp [alert, hin, Scheduler.Pc.alert, hpc, IdlePc.alert] at hv
      · simpa [alert, inIdle, setIdle, hvw] using hv
    | inr o =>
      cases hs
      intro hne
      exact (h hne).mono (fun hp => hp) (fun _ hu => hu) (fun w hw => hw)

/-- A worker that goes idle only moves to the top of idle()'s loop. -/
theorem runStep_served {tid : W → Int} {s u : State W O F} {w : W} {l : Scheduler.RunLabel}
    (h : Watched s) (hs : schedStep tid s (.inl w) (.run w l) = some u) :
    let t := if inIdle u w then setIdle u w (.stopping .timer) else u
    t.sched.shared.fibers ≠ [] → Served t := by
  intro t hne
  have hcases : t = u ∨ t = setIdle u w (.stopping .timer) := by
    simp only [t]
    split
    · exact .inr rfl
    · exact .inl rfl
  have hsched : t.sched = u.sched := by
    rcases hcases with he | he <;> rw [he]
    rfl
  rcases run_served h hs (hsched ▸ hne) with hk | hp | ⟨th, hth⟩ | ⟨v, hvw, hv⟩
  · exact served_by (w := w) (by simp [alert, hsched, hk])
  · left
    rcases hcases with he | he <;> rw [he] <;> exact hp
  · refine .inr (.inl ⟨th, ?_⟩)
    rcases hcases with he | he <;> rw [he] <;> exact hth
  · apply served_by (w := v)
    rcases hcases with he | he <;> rw [he]
    · exact hv
    · simpa [alert, inIdle, setIdle, hvw] using hv

variable [DecidableEq F]

/-- Entering a critical section moves neither the workers nor the pipe. -/
theorem sectionStep_served {s t : State W O F} {th : W ⊕ O} {i : F} {c : SectionCall}
    (h : s.sched.shared.fibers ≠ [] → Served s) (hs : sectionStep s th i c = some t) :
    t.sched.shared.fibers ≠ [] → Served t := by
  unfold sectionStep at hs
  split at hs
  · cases hs
  · split at hs <;> cases hs
    intro hne
    exact (h hne).mono (fun hp => hp) (fun u hu => setHand_keeps _ _ rfl hu) (fun w hw => hw)

theorem sectionNext_served {tid : W → Int} {s t : State W O F} {th : W ⊕ O}
    (h : s.sched.shared.fibers ≠ [] → Served s) (hs : sectionNext tid s th = some t) :
    t.sched.shared.fibers ≠ [] → Served t := by
  unfold sectionNext at hs
  split at hs
  · cases hs
  · rename_i x rest _
    have hmid : (setHand s th { s.hand th with todo := rest }).sched.shared.fibers ≠ [] →
        Served (setHand s th { s.hand th with todo := rest }) := by
      intro hne
      exact (h hne).mono (fun hp => hp) (fun u hu => setHand_keeps _ _ rfl hu) (fun w hw => hw)
    simp only at hs
    split at hs
    · exact (call_served (by simp) hmid hs).1
    · cases hs
      exact hmid
    · cases hs
      exact hmid

theorem actStep_served {tid : W → Int} {s t : State W O F} {th : W ⊕ O} {f : Option FiberId}
    {a : Act F} (h : s.sched.shared.fibers ≠ [] → Served s) (hs : actStep tid s th f a = some t) :
    t.sched.shared.fibers ≠ [] → Served t := by
  have howe : ∀ (u : State W O F) tk, u.sched = s.sched → u.idlePc = s.idlePc →
      u.pipe = s.pipe → u.hand = s.hand →
      (oweTickle u th tk).sched.shared.fibers ≠ [] → Served (oweTickle u th tk) := by
    intro u tk hsc hid hp hh hne
    refine (h (by simpa [hsc] using hne)).mono (by simp [hp]) ?_ ?_
    · intro x hx
      exact oweTickle_keeps u th tk (by rw [hh]; exact hx)
    · intro w hw
      simpa [alert, inIdle, hsc, hid] using hw
  cases a with
  | schedule | scheduleRange | newFiber | setAutoStop | setStopping =>
    exact (call_served (by simp) h hs).1
  | stopping =>
    cases th <;> cases hs
    intro hne
    exact (h hne).mono (fun hp => hp) (fun _ hu => hu) (fun w hw => hw)
  | tickle =>
    cases hs
    exact howe s true rfl rfl rfl rfl
  | addTimer =>
    obtain ⟨r, _, rfl⟩ := Option.map_eq_some_iff.mp hs
    exact howe { s with timers := r.1 } r.2 rfl rfl rfl rfl
  | resetTimer =>
    obtain ⟨r, _, rfl⟩ := Option.map_eq_some_iff.mp hs
    exact howe { s with timers := r.1 } r.2.2 rfl rfl rfl rfl
  | cancelTimer | refreshTimer =>
    obtain ⟨r, _, rfl⟩ := Option.map_eq_some_iff.mp hs
    intro hne
    exact (h hne).mono (fun hp => hp) (fun _ hu => hu) (fun w hw => hw)
  | fd i c =>
    obtain ⟨c', _, hs⟩ := Option.bind_eq_some_iff.mp hs
    exact sectionStep_served h hs

theorem idleStep_served {tid : W → Int} {s t : State W O F} {w : W} {l : Label W O F}
    (h : Watched s) (hidle : inIdle s w = true) (hs : idleStep tid s w l = some t) :
    t.sched.shared.fibers ≠ [] → Served t := by
  -- Inside idle() but past epoll_wait, the worker itself is alert.
  have self : ∀ (u : State W O F) p, u.sched.worker = s.sched.worker → IdlePc.alert p = true →
      alert (setIdle u w p) w = true := by
    intro u p hw hp
    simp only [inIdle] at hidle
    simp [alert, inIdle, setIdle, hw, hidle, hp]
  unfold idleStep at hs
  split at hs
  · split at hs
    · split at hs <;> cases hs
      exact fun _ => served_by (self s _ rfl rfl)
    · cases hs
  · split at hs <;> cases hs
    exact fun _ => served_by (self _ _ rfl rfl)
  · split at hs
    · split at hs
      · cases hs
        exact fun _ => served_by (self s _ rfl rfl)
      · obtain ⟨u, hu, rfl⟩ := Option.map_eq_some_iff.mp hs
        have hw := (call_served (by simp) h.served hu).2
        exact fun _ => served_by (self u _ hw rfl)
    · cases hs
  · split at hs
    · cases hs
      exact fun _ => served_by (w := w) (self s _ rfl rfl)
    · exact sectionStep_served (fun _ => served_by (self s _ rfl rfl)) hs
    · cases hs
  · have hleave : ∀ b, schedStep tid s (.inl w) (.run w (.leaveIdle b)) = some t →
        t.sched.shared.fibers ≠ [] → Served t := by
      intro b hb _
      obtain ⟨sc, tk, hstep, rfl⟩ := schedStep_ok hb
      obtain ⟨s', k', hran, rfl⟩ := Scheduler.step_run hstep
      cases hran
      exact served_by (w := w) (by simp [alert, Scheduler.Pc.alert])
    split at hs
    · exact hleave _ hs
    · exact hleave _ hs
    · cases hs
  · cases hs

theorem Watched.step {tid : W → Int} {s t : State W O F} {l : Label W O F} (h : Watched s)
    (hok : Harmless s l) (hs : step tid s l = some t) : Watched t := by
  refine ⟨?_, ?_⟩
  · unfold IOManager.step at hs
    split at hs
    · rename_i th
      unfold tickleStep at hs
      split at hs
      · cases hs
      · rename_i hg
        cases hs
        by_cases hidle : 0 < s.sched.shared.idle
        · intro hne
          rcases hok hg hidle with hempty | hp | ⟨u, hu, ht⟩ | ⟨w, hw⟩
          · exact absurd hempty hne
          · exact .inl hp
          · exact .inr (.inl ⟨u, by simpa [setHand, hu] using ht⟩)
          · exact .inr (.inr ⟨w, hw⟩)
        · exact fun _ => .inr (.inl ⟨th, by simp [setHand, hidle]⟩)
      · cases hs
        exact fun _ => .inl (Nat.succ_pos _)
    · split at hs
      · exact sectionNext_served h.served hs
      · cases hs
    · split at hs
      · obtain ⟨u, hu, rfl⟩ := runStep_ok hs
        exact runStep_served h hu
      · cases hs
    · split at hs
      · exact stopReadStep_served h.served hs
      · cases hs
    · split at hs
      · obtain ⟨f, _, hs⟩ := Option.bind_eq_some_iff.mp hs
        exact actStep_served h.served hs
      · cases hs
    all_goals
      split at hs
      · rename_i hfree
        exact idleStep_served h (Bool.and_eq_true_iff.mp hfree).2 hs
      · cases hs
  · rcases step_follows hs with he | ⟨l', hl⟩
    · rw [he]
      exact h.attended
    · exact h.attended.step hl

theorem reachable_watched {tid : W → Int} {s : State W O F}
    (hr : (machine tid).ReachableUnder Harmless s) : Watched s := by
  refine Lib.Machine.ReachableUnder.invariant (P := Watched) ?_ (fun s l t => Watched.step) hr
  intro s hinit
  obtain ⟨now, rfl⟩ := hinit
  exact ⟨fun hne => absurd rfl hne, fun f hf => by cases hf⟩

/-- The worker is blocked in epoll_wait, or its thread has not entered run()'s loop
or has left it. -/
def Asleep (s : State W O F) (w : W) : Prop :=
  (s.sched.worker w).pc = .idle ∧ s.idlePc w = .blocked ∨
  (s.sched.worker w).pc = .start ∨ (s.sched.worker w).pc = .exited

/-- The entry is one that the scan of this thread would take. -/
def MayTake (tid : Int) (s : State W O F) (ft : FiberAndThread) : Prop :=
  Scheduler.foreign tid ft = false ∧ Scheduler.executing s.sched.shared.state ft = false

/-- No wake-up is lost in a run in which every tickle() that returns early is harmless:
whenever a task that some worker may take is queued, all workers are asleep and
no schedule() is between its push and its tickle, the pipe holds a byte. -/
theorem wake_up_kept (tid : W → Int) {s : State W O F}
    (hr : (machine tid).ReachableUnder Harmless s)
    (hwork : ∃ ft ∈ s.sched.shared.fibers, ∃ w, MayTake (tid w) s ft)
    (hasleep : ∀ w, Asleep s w) (hquiet : ∀ th, (s.hand th).tickling = .no) : 0 < s.pipe := by
  obtain ⟨ft, hft, _⟩ := hwork
  rcases (reachable_watched hr).served (List.ne_nil_of_mem hft) with hp | ⟨th, hth⟩ | ⟨w, hw⟩
  · exact hp
  · exact absurd (hquiet th) hth
  · rcases hasleep w with ⟨hpc, hid⟩ | hpc | hpc
    · simp [alert, hpc, Scheduler.Pc.alert, hid, IdlePc.alert] at hw
    · simp [alert, inIdle, hpc, Scheduler.Pc.alert] at hw
    · simp [alert, inIdle, hpc, Scheduler.Pc.alert] at hw

instance [Fintype W] [Fintype O] (s : State W O F) (l : Label W O F) : Decidable (Harmless s l) :=
  match l with
  | .tickle _ => inferInstanceAs (Decidable (_ → _ → _))
  | .run .. | .wake .. | .expire .. | .flush _ | .handle .. | .leave _ | .section _ | .stopRead ..
  | .act .. => isTrue trivial

/-- The callback comes after the worker's scan and before it counts as idle. -/
theorem wake_up_kept_run :
    ∃ s : State (Fin 1) (Fin 1) (Fin 1), (machine (fun _ => 7)).ReachableUnder Harmless s ∧
      s.sched.shared.fibers = [⟨.cb 3, -1⟩] ∧ Asleep s 0 ∧ 0 < s.pipe := by
  obtain ⟨s, hr, hfibers, hpc, hid, hin, hout⟩ :=
    Lib.Machine.exists_of_execUnder (machine (fun _ : Fin 1 => 7))
      (Harmless (O := Fin 1) (F := Fin 1))
      (fun s => s.sched.shared.fibers = [⟨.cb 3, -1⟩] ∧ (s.sched.worker 0).pc = .idle ∧
        s.idlePc 0 = .blocked ∧ (s.hand (.inl 0)).tickling = .no ∧ (s.hand (.inr 0)).tickling = .no)
      [.run 0 .begin, .run 0 .dequeue, .act (.inr 0) (.schedule (some (.cb 3)) (-1)),
        .tickle (.inr 0), .tickle (.inr 0), .run 0 .dispatch, .stopRead (.inl 0) 5,
        .stopRead (.inl 0) 5, .stopRead (.inl 0) 5]
      (s := { timers := { previouseTime := 0 } }) ⟨0, rfl⟩ (by decide)
  have hasleep : Asleep s 0 := .inl ⟨hpc, hid⟩
  refine ⟨s, hr, hfibers, hasleep, wake_up_kept _ hr ?_ ?_ ?_⟩
  · exact ⟨⟨.cb 3, -1⟩, by simp [hfibers], 0, rfl, rfl⟩
  · intro w
    obtain rfl : w = 0 := Subsingleton.elim _ _
    exact hasleep
  · rintro (x | x)
    · obtain rfl : x = 0 := Subsingleton.elim _ _
      exact hin
    · obtain rfl : x = 0 := Subsingleton.elim _ _
      exact hout

/-- The only worker is blocked; a callback is scheduled, and because the worker counts
as idle the tickle writes nothing. -/
theorem wake_up_lost :
    ∃ s : State (Fin 1) (Fin 1) (Fin 1), (machine (fun _ => 7)).Reachable s ∧
      (∃ ft ∈ s.sched.shared.fibers, ∃ w, MayTake ((fun _ : Fin 1 => 7) w) s ft) ∧
      (∀ w, (s.sched.worker w).pc = .idle ∧ s.idlePc w = .blocked) ∧
      (∀ th, (s.hand th).tickling = .no) ∧ s.pipe = 0 := by
  obtain ⟨s, hr, hfibers, hpc, hid, hin, hout, hpipe⟩ :=
    Lib.Machine.exists_of_exec (machine (O := Fin 1) (F := Fin 1) (fun _ : Fin 1 => 7))
      (fun s => s.sched.shared.fibers = [⟨.cb 3, -1⟩] ∧ (s.sched.worker 0).pc = .idle ∧
        s.idlePc 0 = .blocked ∧ (s.hand (.inl 0)).tickling = .no ∧
        (s.hand (.inr 0)).tickling = .no ∧ s.pipe = 0)
      [.run 0 .begin, .run 0 .dequeue, .run 0 .dispatch, .stopRead (.inl 0) 5,
        .stopRead (.inl 0) 5, .stopRead (.inl 0) 5,
        .act (.inr 0) (.schedule (some (.cb 3)) (-1)), .tickle (.inr 0)]
      (s := { timers := { previouseTime := 0 } }) ⟨0, rfl⟩ (by decide)
  refine ⟨s, hr, ⟨⟨.cb 3, -1⟩, by simp [hfibers], 0, rfl, rfl⟩, ?_, ?_, hpipe⟩
  · intro w
    obtain rfl : w = 0 := Subsingleton.elim _ _
    exact ⟨hpc, hid⟩
  · rintro (x | x)
    · obtain rfl : x = 0 := Subsingleton.elim _ _
      exact hin
    · obtain rfl : x = 0 := Subsingleton.elim _ _
      exact hout

end IOManager
end HxSylar
