import Mathlib.Data.Fintype.BigOperators
import Mathlib.Algebra.BigOperators.Ring.Finset
import Mathlib.Algebra.BigOperators.Group.Multiset.Basic
import HxSylar.Proofs.Run
import HxSylar.Lib.FamilySum

namespace HxSylar.Scheduler

open scoped BigOperators

/-- The entry a worker has dequeued and not yet let go of. -/
def Pc.held : Pc → Option FiberAndThread
  | .dispatch ft => ft
  | .swapIn ft _ | .exec ft _ | .swapOut ft _ => some ft
  | _ => none

/-- What became of the entries so far: passed to schedule(), taken by a scan, run to
their yield or end, and dropped because their fiber was in the recorded state. -/
structure Ledger where
  scheduled : List FiberAndThread := []
  taken : List FiberAndThread := []
  executed : List FiberAndThread := []
  discarded : List (FiberAndThread × FiberState) := []

variable {W : Type} [DecidableEq W]

/-- The non-empty entries a step passes to schedule(), run()'s own included. -/
def requests (s : State W) : Label W → List FiberAndThread
  | .schedule fc thread => (fc.map (fun t => ⟨t, thread⟩)).toList
  | .scheduleRange fcs => fcs.filterMap (fun fc => fc.map (fun t => ⟨t, -1⟩))
  | .run w .writeBack =>
    match (s.worker w).pc with
    | .writeBack _ f => if s.shared.state f = .ready then [⟨.fiber f, -1⟩] else []
    | _ => []
  | _ => []

/-- The state of an entry's fiber; a callback has none yet. -/
def taskState (s : Shared) (ft : FiberAndThread) : FiberState :=
  match ft.task with
  | .fiber f => s.state f
  | .cb _ => .init

/-- The ledger follows what a worker holds before and after its step. -/
def Ledger.after (h : Ledger) (s : State W) (l : Label W) (t : State W) : Ledger :=
  match l with
  | .run w .dequeue => { h with taken := h.taken ++ (t.worker w).pc.held.toList }
  | .run w .release => { h with executed := h.executed ++ (s.worker w).pc.held.toList }
  | .run w .dispatch =>
    if (t.worker w).pc.held = none then
      { h with discarded := h.discarded ++
        (s.worker w).pc.held.toList.map (fun ft => (ft, taskState s.shared ft)) }
    else h
  | l => { h with scheduled := h.scheduled ++ requests s l }

def recorded (tid : W → Int) : Lib.Machine (State W × Ledger) (Label W) :=
  (machine tid).observe {} Ledger.after

/-- All that workers hold, as a multiset. -/
def heldAll [Fintype W] (worker : W → Worker) : Multiset FiberAndThread :=
  ∑ w, ((worker w).pc.held.toList : Multiset FiberAndThread)

/-- The books of the scheduler balance. -/
structure Balanced [Fintype W] (s : State W) (h : Ledger) : Prop where
  scheduled : (h.scheduled : Multiset FiberAndThread) = s.shared.fibers + h.taken
  taken : (h.taken : Multiset FiberAndThread) =
    heldAll s.worker + h.executed + (h.discarded.map Prod.fst)
  order : s.shared.fibers.Sublist h.scheduled
  dead : ∀ d ∈ h.discarded, (∃ f, d.1.task = .fiber f) ∧ d.2.dead = true
  active : s.shared.active = ∑ w, (((s.worker w).pc.held.isSome.toNat : Nat) : Int)

theorem heldAll_update [Fintype W] (worker : W → Worker) (w : W) (k : Worker) :
    heldAll (Function.update worker w k) + ((worker w).pc.held.toList : Multiset FiberAndThread) =
      heldAll worker + (k.pc.held.toList : Multiset FiberAndThread) :=
  Lib.sum_update worker w k (fun k => (k.pc.held.toList : Multiset FiberAndThread))

theorem holders_update [Fintype W] (worker : W → Worker) (w : W) (k : Worker) :
    (∑ v, ((((Function.update worker w k) v).pc.held.isSome.toNat : Nat) : Int)) +
        (((worker w).pc.held.isSome.toNat : Nat) : Int) =
      (∑ v, (((worker v).pc.held.isSome.toNat : Nat) : Int)) + ((k.pc.held.isSome.toNat : Nat) : Int) :=
  Lib.sum_update worker w k (fun k => ((k.pc.held.isSome.toNat : Nat) : Int))

/-- A worker's step that neither takes nor lets go of an entry, and queues `es`. -/
theorem Balanced.quiet [Fintype W] {s : State W} {h : Ledger} {w : W} {s' : Shared} {k' : Worker}
    (es : List FiberAndThread) (hb : Balanced s h) (hheld : k'.pc.held = (s.worker w).pc.held)
    (hfibers : s'.fibers = s.shared.fibers ++ es) (hactive : s'.active = s.shared.active) :
    Balanced ⟨s', Function.update s.worker w k'⟩ { h with scheduled := h.scheduled ++ es } := by
  have hall := heldAll_update s.worker w k'
  have hcount := holders_update s.worker w k'
  rw [hheld] at hall hcount
  refine ⟨?_, ?_, ?_, hb.dead, ?_⟩
  · simp only [hfibers, ← Multiset.coe_add, hb.scheduled]
    abel
  · rw [add_right_cancel hall]
    exact hb.taken
  · simp only [hfibers]
    exact hb.order.append_right es
  · simp only [hactive, add_right_cancel hcount]
    exact hb.active

omit [DecidableEq W] in
/-- A call of schedule() from outside the workers' loops. -/
theorem Balanced.push [Fintype W] {s : State W} {h : Ledger} {s' : Shared}
    {es : List FiberAndThread} (hb : Balanced s h)
    (hfibers : s'.fibers = s.shared.fibers ++ es) (hactive : s'.active = s.shared.active) :
    Balanced { s with shared := s' } { h with scheduled := h.scheduled ++ es } := by
  refine ⟨?_, hb.taken, ?_, hb.dead, by rw [hactive]; exact hb.active⟩
  · simp only [hfibers, ← Multiset.coe_add, hb.scheduled]
    abel
  · simp only [hfibers]
    exact hb.order.append_right es

/-- What the scan leaves and what it takes make up the queue. -/
theorem scan_splits (tid : Int) (state : FiberId → FiberState) (fibers : List FiberAndThread) :
    (fibers : Multiset FiberAndThread) =
      ((scan tid state fibers).rest : Multiset FiberAndThread) +
        ((scan tid state fibers).taken.toList : Multiset FiberAndThread) ∧
    (scan tid state fibers).rest.Sublist fibers := by
  rcases scan_spec tid state fibers with ⟨skipped, ft, rest, hf, ht, hr, _⟩ | ⟨ht, hr, _⟩
  · rw [ht, hr, hf]
    constructor
    · simp only [← Multiset.coe_add, ← Multiset.cons_coe, Option.toList_some, Multiset.coe_nil,
        ← Multiset.singleton_add]
      abel
    · exact List.Sublist.append_left (List.sublist_cons_self ft rest) skipped
  · rw [ht, hr]
    simp

theorem Balanced.take [Fintype W] {s : State W} {h : Ledger} {w : W} {s' : Shared} (k' : Worker)
    {taken : Option FiberAndThread} (hb : Balanced s h) (hold : (s.worker w).pc.held = none)
    (hnew : k'.pc.held = taken)
    (hfibers : (s.shared.fibers : Multiset FiberAndThread) =
      (s'.fibers : Multiset FiberAndThread) + (taken.toList : Multiset FiberAndThread))
    (hsub : s'.fibers.Sublist s.shared.fibers)
    (hactive : s'.active = s.shared.active + taken.isSome.toNat) :
    Balanced ⟨s', Function.update s.worker w k'⟩ { h with taken := h.taken ++ taken.toList } := by
  have hall := heldAll_update s.worker w k'
  have hcount := holders_update s.worker w k'
  simp only [hold, hnew, Option.toList_none, Multiset.coe_nil, add_zero, Option.isSome_none,
    Bool.toNat_false, Nat.cast_zero] at hall hcount
  refine ⟨?_, ?_, hsub.trans hb.order, hb.dead, ?_⟩
  · simp only [← Multiset.coe_add]
    rw [hb.scheduled, hfibers]
    abel
  · simp only [← Multiset.coe_add]
    rw [hb.taken, hall]
    abel
  · simp only [hcount, hactive, hb.active]

/-- Letting go of an entry: run()'s `--m_active_thread_count_`. -/
theorem Balanced.letGo [Fintype W] {s : State W} {h h' : Ledger} {w : W} {k' : Worker}
    (ft : FiberAndThread) (hb : Balanced s h) (hold : (s.worker w).pc.held = some ft)
    (hnew : k'.pc.held = none) (hsch : h'.scheduled = h.scheduled) (htaken : h'.taken = h.taken)
    (hgone : (h'.executed : Multiset FiberAndThread) + (h'.discarded.map Prod.fst) =
      (h.executed : Multiset FiberAndThread) + (h.discarded.map Prod.fst) + {ft})
    (hdead : ∀ d ∈ h'.discarded, (∃ f, d.1.task = .fiber f) ∧ d.2.dead = true) :
    Balanced ⟨{ s.shared with active := s.shared.active - 1 }, Function.update s.worker w k'⟩ h' := by
  have hall := heldAll_update s.worker w k'
  have hcount := holders_update s.worker w k'
  rw [hold, hnew] at hall hcount
  refine ⟨by rw [hsch, htaken]; exact hb.scheduled, ?_, by rw [hsch]; exact hb.order, hdead, ?_⟩
  · simp only [Option.toList_some, Option.toList_none, Multiset.coe_singleton, Multiset.coe_nil,
      add_zero] at hall
    rw [htaken, hb.taken, ← hall, add_assoc (heldAll _) _ (h'.discarded.map Prod.fst : Multiset _),
      hgone]
    abel
  · simp only [Option.isSome_some, Option.isSome_none, Bool.toNat_true, Bool.toNat_false,
      Nat.cast_one, Nat.cast_zero, add_zero] at hcount
    simp only [hb.active, ← hcount]
    omega

/-- A worker's step keeps the books, whichever exit of the loop it takes. -/
theorem Balanced.ran [Fintype W] {tid : Int} {s : State W} {h : Ledger} {w : W} {l : RunLabel}
    {s' : Shared} {k' : Worker} {tk : Bool} (hb : Balanced s h)
    (hr : Ran tid s.shared (s.worker w) l s' k' tk) :
    Balanced ⟨s', Function.update s.worker w k'⟩
      (h.after s (.run w l) ⟨s', Function.update s.worker w k'⟩) := by
  -- Steps that hold on to what they held and queue nothing.
  have same : ∀ {s' : Shared} {k' : Worker}, k'.pc.held = (s.worker w).pc.held →
      s'.fibers = s.shared.fibers → s'.active = s.shared.active →
      Balanced ⟨s', Function.update s.worker w k'⟩ h := by
    intro s' k' hheld hf ha
    simpa using hb.quiet [] hheld (by simpa using hf) ha
  cases hr with
  | begin hpc | leaveIdle _ hpc | yieldToHold _ _ hpc | swapIn _ _ hpc | yieldToReady _ _ hpc
  | finish _ _ _ hpc =>
    simp only [Ledger.after, requests, List.append_nil]
    exact same (by simp [hpc, Pc.held]) rfl rfl
  | dequeue hpc =>
    obtain ⟨hsplit, hsub⟩ := scan_splits tid s.shared.state s.shared.fibers
    simpa [Ledger.after, Pc.held] using
      hb.take { s.worker w with pc := .dispatch (scan tid s.shared.state s.shared.fibers).taken }
        (by simp [hpc, Pc.held]) rfl hsplit hsub rfl
  | exit hpc | goIdle hpc =>
    simp only [Ledger.after, Function.update_self, hpc, Pc.held, Option.toList_none, List.map_nil,
      List.append_nil, ↓reduceIte]
    exact same (by simp [hpc, Pc.held]) rfl rfl
  | discard ft f hpc htask hdead =>
    simp only [Ledger.after, Function.update_self, hpc, Pc.held, Option.toList_some, List.map_cons,
      List.map_nil, ↓reduceIte]
    refine hb.letGo ft (by simp [hpc, Pc.held]) rfl rfl rfl ?_ ?_
    · simp only [List.map_append, List.map_cons, List.map_nil, ← Multiset.coe_add,
        Multiset.coe_singleton]
      abel
    · intro d hd
      rcases List.mem_append.mp hd with hd | hd
      · exact hb.dead d hd
      · rcases List.mem_singleton.mp hd with rfl
        exact ⟨⟨f, htask⟩, by simpa [taskState, htask] using hdead⟩
  | enterFiber ft f hpc | reuseCb ft _ f hpc | newCb ft _ hpc =>
    simp only [Ledger.after, Function.update_self, Pc.held, reduceCtorEq, ↓reduceIte]
    exact same (by simp [hpc, Pc.held]) rfl rfl
  | release ft f hpc =>
    simp only [Ledger.after, hpc, Pc.held, Option.toList_some]
    refine hb.letGo ft (by simp [hpc, Pc.held]) rfl rfl rfl ?_ hb.dead
    simp only [← Multiset.coe_add, Multiset.coe_singleton]
    abel
  | requeue ft f hpc hstate =>
    simp only [Ledger.after, requests, hpc, hstate, ↓reduceIte]
    exact hb.quiet _ (by simp [hpc, Pc.held]) rfl rfl
  | endedFiber ft f g hpc _ hdead | endedCb ft f _ hpc _ hdead =>
    have hnot : s.shared.state f ≠ .ready := by
      intro he
      simp [he, FiberState.dead] at hdead
    simp only [Ledger.after, requests, hpc, hnot, ↓reduceIte, List.append_nil]
    exact same (by simp [hpc, Pc.held]) rfl rfl
  | hold ft f hpc hnot =>
    simp only [Ledger.after, requests, hpc, hnot, ↓reduceIte, List.append_nil]
    exact same (by simp [hpc, Pc.held]) rfl rfl

theorem Balanced.step [Fintype W] {tid : W → Int} {s t : State W} {h : Ledger} {l : Label W}
    {tk : Bool} (hb : Balanced s h) (hs : step tid s l = some (t, tk)) :
    Balanced t (h.after s l t) := by
  cases l with
  | schedule fc thread =>
    simp only [Scheduler.step] at hs
    split at hs <;> cases hs
    exact hb.push rfl rfl
  | scheduleRange fcs =>
    simp only [Scheduler.step] at hs
    split at hs <;> cases hs
    exact hb.push (scheduleRange_fibers _ _) rfl
  | newFiber | setAutoStop | setStopping =>
    cases hs
    exact hb.push (by simp [Shared.newFiber, Shared.setState, requests]) rfl
  | run w l =>
    obtain ⟨s', k', hr, rfl⟩ := step_run hs
    exact hb.ran hr

theorem reachable_balanced [Fintype W] {tid : W → Int} {p : State W × Ledger}
    (h : (recorded tid).Reachable p) : Balanced p.1 p.2 := by
  refine Lib.Machine.Reachable.invariant (P := fun p => Balanced p.1 p.2) ?_ ?_ h
  · intro ⟨s, h⟩ hinit
    obtain ⟨rfl, rfl⟩ := hinit
    exact ⟨rfl, by simp [heldAll, Pc.held], .slnil, by simp, by simp [Pc.held]⟩
  · intro ⟨s, h⟩ l ⟨t, h'⟩ hb hstep
    obtain ⟨hs, hh⟩ := Lib.Machine.observe_step hstep
    obtain ⟨tk, hs⟩ := machine_step hs
    simp only at hh
    subst hh
    exact hb.step hs

/-- The active counter counts the workers that hold an entry. -/
theorem reachable_active [Fintype W] {tid : W → Int} {s : State W}
    (hr : (machine tid).Reachable s) :
    s.shared.active = ∑ w, (((s.worker w).pc.held.isSome.toNat : Nat) : Int) := by
  obtain ⟨h, hobs⟩ := hr.observe {} Ledger.after
  exact (reachable_balanced hobs).active

/-- Tasks are conserved in every run: what was ever scheduled is what is queued and
what was taken; what was taken is what workers hold, what was executed and what
was dropped with its fiber already ended. The queue keeps the order in which
entries came, a scan cuts out at most the one entry it takes, and the active
counter is the number of workers that hold an entry. -/
theorem tasks_conserved [Fintype W] (tid : W → Int) {s : State W} {h : Ledger}
    (hr : (recorded tid).Reachable (s, h)) :
    (h.scheduled : Multiset FiberAndThread) = s.shared.fibers + h.taken ∧
    (h.taken : Multiset FiberAndThread) =
      heldAll s.worker + h.executed + (h.discarded.map Prod.fst) ∧
    (∀ d ∈ h.discarded, (∃ f, d.1.task = .fiber f) ∧ d.2.dead = true) ∧
    s.shared.fibers.Sublist h.scheduled ∧
    (∀ w t, (machine tid).step s (.run w .dequeue) = some t →
      t.shared.fibers = s.shared.fibers ∧ (t.worker w).pc.held = none ∨
      ∃ skipped ft rest, s.shared.fibers = skipped ++ ft :: rest ∧
        t.shared.fibers = skipped ++ rest ∧ (t.worker w).pc.held = some ft) ∧
    s.shared.active = (Finset.univ.filter (fun w => (s.worker w).pc.held.isSome)).card := by
  have hb := reachable_balanced hr
  refine ⟨hb.scheduled, hb.taken, hb.dead, hb.order, ?_, ?_⟩
  · intro w t ht
    obtain ⟨tk, ht⟩ := machine_step ht
    obtain ⟨s', k', hran, rfl⟩ := step_run ht
    cases hran with
    | dequeue hpc =>
      simp only [Function.update_self, Pc.held]
      rcases scan_spec (tid w) s.shared.state s.shared.fibers with
        ⟨skipped, ft, rest, hf, htk, hrest, _⟩ | ⟨htk, hrest, _⟩
      · exact .inr ⟨skipped, ft, rest, hf, hrest, htk⟩
      · exact .inl ⟨hrest, htk⟩
  · have hbit : ∀ o : Option FiberAndThread, o.isSome.toNat = if o.isSome = true then 1 else 0 := by
      intro o
      cases o <;> rfl
    have ha := hb.active
    simp only [hbit] at ha
    rw [ha, Finset.card_filter, Nat.cast_sum]

/-- Two workers and a batch of three: one entry is queued, one is held, one was
dropped because its fiber had ended, and one was executed to that end. -/
theorem tasks_conserved_run :
    ∃ p : State (Fin 2) × Ledger, (recorded (fun w : Fin 2 => (w.val : Int) + 1)).Reachable p ∧
      p.1.shared.fibers = [⟨.cb 5, -1⟩] ∧ p.2.executed = [⟨.fiber 0, -1⟩] ∧
      p.2.discarded = [(⟨.fiber 0, -1⟩, .term)] ∧
      p.1.shared.active = (Finset.univ.filter (fun w => (p.1.worker w).pc.held.isSome)).card := by
  have hr : (recorded (fun w : Fin 2 => (w.val : Int) + 1)).Reachable _ :=
    Lib.Machine.reachable_of_exec (s := (({} : State (Fin 2)), ({} : Ledger)))
      [.newFiber, .scheduleRange [some (.fiber 0), some (.fiber 0), none, some (.cb 4)],
        .schedule (some (.cb 5)) (-1), .run 0 .begin, .run 1 .begin, .run 0 .dequeue,
        .run 0 .dispatch, .run 0 .swapIn, .run 0 (.finish false), .run 0 .release,
        .run 0 .writeBack, .run 0 .dequeue, .run 0 .dispatch, .run 1 .dequeue] ⟨rfl, rfl⟩ rfl
  exact ⟨_, hr, rfl, rfl, rfl, (tasks_conserved _ hr).2.2.2.2.2⟩

end HxSylar.Scheduler
