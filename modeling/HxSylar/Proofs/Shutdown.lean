import Mathlib.Algebra.Order.BigOperators.Group.Finset
import HxSylar.Proofs.Conservation
import HxSylar.Proofs.StopReads

namespace HxSylar

theorem pushes_length (ps : List Push) :
    ps.length = (ps.filter (fun p => p.event = .none)).length +
      (ps.filter (fun p => p.event = .read)).length +
      (ps.filter (fun p => p.event = .write)).length := by
  induction ps with
  | nil => rfl
  | cons p ps ih =>
    cases he : p.event <;> simp [he] <;> omega

/-- Whoever is woken was registered, and leaves. -/
theorem Turn.le {c : SectionCall} {e : Event} {w w' : Option Task} {ps : List Push}
    (h : Turn c e w w' ps) (hc : c.adds = false) :
    w'.isSome.toNat + ps.length ≤ w.isSome.toNat := by
  cases h with
  | keep => simp
  | start cb who rt hstart => simp [hstart, SectionCall.adds] at hc
  | wake => simp
  | drop => simp

/-- A section that registers nothing takes at least the bits it has waiters to push. -/
theorem Section.Spec.bits_le {s : Slot} {n : Int} {c : SectionCall} {out : Section}
    (h : Section.Spec s n c out) (hs : s.Coherent) (hc : c.adds = false) :
    out.slot.ctx.events.bits + out.pushes.length ≤ s.ctx.events.bits := by
  have hnone := (h.turn .none).le hc
  have hread := (h.turn .read).le hc
  have hwrite := (h.turn .write).le hc
  simp only [← hs.ctx.has, ← h.coherent.ctx.has, Mask.has, Bool.toNat_false] at hnone hread hwrite
  have hlen := pushes_length out.pushes
  simp only [Mask.bits]
  omega

namespace IOManager
open scoped BigOperators
variable {W O F : Type} [DecidableEq F] [DecidableEq W] [DecidableEq O]

/-- The registry as it will be when every thread has made the decrements it owes. -/
def settled [Fintype W] [Fintype O] (s : State W O F) : Registry F :=
  { s.registry with pending := s.registry.pending - ∑ th, (owed s th : Int) }

section Counting
variable [Fintype W] [Fintype O]

theorem sum_owed {s t : State W O F} {th : W ⊕ O} {n : Nat}
    (h : owed t = Function.update (owed s) th n) :
    (∑ u, (owed t u : Int)) + owed s th = (∑ u, (owed s u : Int)) + n := by
  rw [h]
  exact Lib.sum_update (owed s) th n (fun n => (n : Int))

variable [Fintype F]

/-- A step keeps the registry sound up to what is owed, and only addEvent counts up. -/
theorem Accounts.settled {s t : State W O F} {l : Label W O F} (h : Accounts s l t)
    (hs : (settled s).Sound) :
    (settled t).Sound ∧ (l.addsEvent = false → t.registry.pending ≤ s.registry.pending) := by
  cases h with
  | keep hreg howed =>
    have he : IOManager.settled t = IOManager.settled s := by
      simp only [IOManager.settled, hreg, howed]
    exact ⟨he ▸ hs, fun _ => by rw [hreg]⟩
  | enter th i c out hfree hadds hcall hreg howed =>
    have hcoh : (s.registry.slot i).Coherent := hs.slots i
    have hspec := call_spec hcoh hcall
    have hsum := sum_owed howed
    have hpend := hspec.pending
    refine ⟨?_, ?_⟩
    · simp only [IOManager.settled, hreg]
      apply hs.put (i := i) hspec.coherent
      simp only [IOManager.settled]
      omega
    · intro hno
      have hle := hspec.bits_le hcoh (by
        rw [← Bool.not_eq_true]
        intro hc
        rw [hadds hc] at hno
        cases hno)
      simp only [hreg]
      omega
  | pay th n hn hreg howed =>
    have hsum := sum_owed howed
    have he : IOManager.settled t = IOManager.settled s := by
      simp only [IOManager.settled, hreg]
      congr 1
      omega
    refine ⟨he ▸ hs, fun _ => ?_⟩
    simp only [hreg]
    omega

end Counting

/-- The worker has something to queue that no counter shows: a READY fiber it has let
go of, or callbacks that listExpiredCb gave it. -/
def uncounted (s : State W O F) (w : W) : Bool :=
  match (s.sched.worker w).pc with
  | .writeBack _ f => s.sched.shared.state f == .ready
  | .idle =>
    match s.idlePc w with
    | .expired cbs _ => !cbs.isEmpty
    | _ => false
  | _ => false

/-- The order of steps under which stopping() can be relied on. No timer is added
behind the read of the timers and no event behind the read of the counter; the
clock does not show 0; and when both flags are set, the last read meets a worker
with uncounted work only beside an entry that is queued or held. -/
def Undisturbed (s : State W O F) : Label W O F → Prop
  | .act _ (.addTimer ..) => ∀ th, reading s th = none ∨ reading s th = some .timer
  | .act _ (.fd _ (.addEvent ..)) => ∀ th, reading s th ≠ some .queue
  | .stopRead th now =>
    (reading s th = some .timer → now ≠ 0) ∧
    (reading s th = some .queue → s.sched.shared.autoStop = true → s.sched.shared.stopping = true →
      ∀ w, uncounted s w = true →
        s.sched.shared.fibers ≠ [] ∨ ∃ v, (s.sched.worker v).pc.held.isSome = true)
  | _ => True

omit [DecidableEq F] [DecidableEq W] [DecidableEq O] in
theorem Undisturbed.addsTimer {s : State W O F} {l : Label W O F} {th : W ⊕ O} {r : StopRead}
    (h : Undisturbed s l) (hr : reading s th = some r) (hne : r ≠ .timer) :
    l.addsTimer = false := by
  rw [← Bool.not_eq_true]
  intro hadds
  unfold Label.addsTimer at hadds
  split at hadds
  · rcases h th with hno | htimer
    · rw [hno] at hr
      cases hr
    · rw [htimer] at hr
      cases hr
      exact hne rfl
  · cases hadds

omit [DecidableEq F] [DecidableEq W] [DecidableEq O] in
theorem Undisturbed.addsEvent {s : State W O F} {l : Label W O F} {th : W ⊕ O}
    (h : Undisturbed s l) (hr : reading s th = some .queue) : l.addsEvent = false := by
  rw [← Bool.not_eq_true]
  intro hadds
  unfold Label.addsEvent at hadds
  split at hadds
  · exact h th hr
  · cases hadds

/-- What the reads made so far are still worth. -/
structure Accounted [Fintype W] [Fintype O] [Fintype F] (s : State W O F) : Prop where
  registry : (settled s).Sound
  timers : ∀ th r, reading s th = some r → r ≠ .timer → s.timers.timers = []
  events : ∀ th, reading s th = some .queue → s.registry.pending ≤ 0

section Runs
variable [Fintype W] [Fintype O] [Fintype F]

omit [DecidableEq W] [DecidableEq O] in
/-- A read that lets the evaluation go on has seen no timer, or a counter at zero. -/
theorem Advances.seen {s : State W O F} {l : Label W O F} {th : W ⊕ O} {r : StopRead}
    (hs : Accounted s) (hok : Undisturbed s l) (h : Advances s l th r) :
    s.timers.timers = [] ∧ (r = .queue → s.registry.pending ≤ 0) := by
  obtain ⟨now, r₀, rfl, hr₀, hnext⟩ := h
  cases r₀ with
  | timer =>
    simp only [readStop] at hnext
    split at hnext
    · rename_i hnone
      cases hnext
      exact ⟨TimerManager.getNextTimer_none (hok.1 hr₀) hnone, by simp⟩
    · cases hnext
  | pending =>
    simp only [readStop] at hnext
    split at hnext
    · rename_i hzero
      exact ⟨hs.timers th _ hr₀ (by simp), fun _ => hzero.le⟩
    · cases hnext
  | queue => cases hnext

theorem Accounted.step {tid : W → Int} {s t : State W O F} {l : Label W O F} (hs : Accounted s)
    (hok : Undisturbed s l) (h : step tid s l = some t) : Accounted t := by
  have he := step_effect h
  obtain ⟨hsound, hdown⟩ := he.accounts.settled hs.registry
  refine ⟨hsound, ?_, ?_⟩
  · intro th r hr hne
    -- Whoever is past the first read was so before, or has just seen no timer.
    have hbefore : s.timers.timers = [] ∧ l.addsTimer = false := by
      rcases he.reading th r hr with rfl | hold | hadv
      · exact absurd rfl hne
      · exact ⟨hs.timers th r hold hne, hok.addsTimer hold hne⟩
      · refine ⟨(hadv.seen hs hok).1, ?_⟩
        obtain ⟨now, r₀, rfl, _⟩ := hadv
        rfl
    exact he.timers hbefore.2 hbefore.1
  · intro th hr
    have hbefore : s.registry.pending ≤ 0 ∧ l.addsEvent = false := by
      rcases he.reading th .queue hr with hq | hold | hadv
      · cases hq
      · exact ⟨hs.events th hold, hok.addsEvent hold⟩
      · refine ⟨(hadv.seen hs hok).2 rfl, ?_⟩
        obtain ⟨now, r₀, rfl, _⟩ := hadv
        rfl
    exact (hdown hbefore.2).trans hbefore.1

theorem reachable_accounted {tid : W → Int} {s : State W O F}
    (hr : (machine tid).ReachableUnder Undisturbed s) : Accounted s := by
  refine Lib.Machine.ReachableUnder.invariant (P := Accounted) ?_ (fun s l t => Accounted.step) hr
  intro s hinit
  obtain ⟨now, rfl⟩ := hinit
  refine ⟨?_, ?_, ?_⟩
  · have hzero : settled ({ timers := { previouseTime := now } } : State W O F) = {} := by
      simp [settled, owed]
    rw [hzero]
    exact Registry.sound_init
  · intro _ _ _ _
    rfl
  · intro _ _
    exact le_rfl

omit [DecidableEq W] [DecidableEq O] in
/-- A counter at zero means that no event is registered and none is being triggered. -/
theorem Accounted.no_event {s : State W O F} (hs : Accounted s) (hp : s.registry.pending ≤ 0) :
    (∀ i, (s.registry.slot i).ctx.events = Mask.none) ∧ ∀ th, Todo.dec ∉ (s.hand th).todo := by
  have hcount : s.registry.pending - ∑ th, (owed s th : Int) =
      ∑ i, ((s.registry.slot i).ctx.events.bits : Int) := hs.registry.pending
  have howed : (0 : Int) ≤ ∑ th, (owed s th : Int) :=
    Finset.sum_nonneg (fun _ _ => Int.natCast_nonneg _)
  have hbits : (0 : Int) ≤ ∑ i, ((s.registry.slot i).ctx.events.bits : Int) :=
    Finset.sum_nonneg (fun _ _ => Int.natCast_nonneg _)
  have hb : ∑ i, ((s.registry.slot i).ctx.events.bits : Int) = 0 := by omega
  have ho : ∑ th, (owed s th : Int) = 0 := by omega
  rw [Finset.sum_eq_zero_iff_of_nonneg (fun _ _ => Int.natCast_nonneg _)] at hb ho
  constructor
  · intro i
    have hi := hb i (Finset.mem_univ i)
    generalize (s.registry.slot i).ctx.events = m at hi
    obtain ⟨r, w⟩ := m
    cases r <;> cases w <;> simp_all [Mask.bits, Mask.none]
  · intro th
    have hth := ho th (Finset.mem_univ th)
    exact List.count_eq_zero.mp (by exact_mod_cast hth)

/-- The thread makes the last read of an evaluation of stopping(), which comes out true. -/
def StopsTrue (s : State W O F) (th : W ⊕ O) (now : UInt64) : Prop :=
  ∃ r, reading s th = some r ∧ (readStop s now r).2 = .inr true

/-- No outstanding work of any of the kinds that stopping() is to account for. -/
structure NoWork (s : State W O F) : Prop where
  queue : s.sched.shared.fibers = []
  executing : ∀ w, (s.sched.worker w).pc.held = none
  yielded : ∀ w ft f, (s.sched.worker w).pc = .writeBack ft f → s.sched.shared.state f ≠ .ready
  timers : s.timers.timers = []
  expired : ∀ w cbs events, inIdle s w = true → s.idlePc w = .expired cbs events → cbs = []
  events : ∀ i, (s.registry.slot i).ctx.events = Mask.none
  triggers : ∀ th, Todo.dec ∉ (s.hand th).todo

/-- Shutdown is sound in every run whose steps all come in an undisturbed order: when
stopping() comes out true on some thread, there is no outstanding work. -/
theorem shutdown_sound (tid : W → Int) {s : State W O F} {th : W ⊕ O} {now : UInt64}
    (hr : (machine tid).ReachableUnder Undisturbed s) (hok : Undisturbed s (.stopRead th now))
    (htrue : StopsTrue s th now) : NoWork s := by
  have hs := reachable_accounted hr
  obtain ⟨r, hread, htrue⟩ := htrue
  cases r with
  | timer =>
    simp only [readStop] at htrue
    split at htrue <;> cases htrue
  | pending =>
    simp only [readStop] at htrue
    split at htrue <;> cases htrue
  | queue =>
    have hstop : s.sched.shared.isStopping = true := by simpa [readStop] using htrue
    simp only [Scheduler.Shared.isStopping, Bool.and_eq_true, List.isEmpty_iff, decide_eq_true_eq]
      at hstop
    obtain ⟨⟨⟨hauto, hflag⟩, hqueue⟩, hactive⟩ := hstop
    have hheld : ∀ w, (s.sched.worker w).pc.held = none := by
      have hsum := Scheduler.reachable_active (sched_reachable hr.reachable)
      rw [hactive, eq_comm,
        Finset.sum_eq_zero_iff_of_nonneg (fun _ _ => Int.natCast_nonneg _)] at hsum
      intro w
      simpa using hsum w (Finset.mem_univ w)
    have hnone : ∀ w, uncounted s w = false := by
      intro w
      rw [← Bool.not_eq_true]
      intro hw
      rcases hok.2 hread hauto hflag w hw with hne | ⟨v, hv⟩
      · exact hne hqueue
      · simp [hheld v] at hv
    obtain ⟨hevents, htriggers⟩ := hs.no_event (hs.events th hread)
    refine ⟨hqueue, hheld, ?_, hs.timers th .queue hread (by simp), ?_, hevents, htriggers⟩
    · intro w ft f hpc hready
      simpa [uncounted, hpc, hready] using hnone w
    · intro w cbs events hin hpc
      simp only [inIdle, beq_iff_eq] at hin
      simpa [uncounted, hin, hpc] using hnone w

instance (s : State W O F) (l : Label W O F) : Decidable (Undisturbed s l) :=
  match l with
  | .act _ (.addTimer ..) => inferInstanceAs (Decidable (∀ _ : W ⊕ O, _ ∨ _))
  | .act _ (.fd _ (.addEvent ..)) => inferInstanceAs (Decidable (∀ _ : W ⊕ O, _ ≠ _))
  | .stopRead .. => inferInstanceAs (Decidable (_ ∧ _))
  | .act _ (.fd _ (.delEvent ..)) | .act _ (.fd _ (.cancelEvent ..)) | .act _ (.fd _ (.cancelAll _))
  | .act _ (.schedule ..) | .act _ (.scheduleRange _) | .act _ .newFiber | .act _ .setAutoStop
  | .act _ .setStopping | .act _ .stopping | .act _ .tickle | .act _ (.cancelTimer _)
  | .act _ (.refreshTimer ..) | .act _ (.resetTimer ..) | .run .. | .wake .. | .expire .. | .flush _
  | .handle .. | .leave _ | .tickle _ | .section _ => isTrue trivial

end Runs

/-- A timer is added, expires and is served; then the worker finds that it may stop. -/
theorem shutdown_sound_run :
    ∃ s : State (Fin 1) (Fin 1) (Fin 1), (machine (fun _ => 7)).ReachableUnder Undisturbed s ∧
      StopsTrue s (.inl 0) 300 ∧ NoWork s := by
  obtain ⟨s, hr, hread, hstop, hok⟩ :=
    Lib.Machine.exists_of_execUnder (machine (fun _ : Fin 1 => 7))
      (Undisturbed (O := Fin 1) (F := Fin 1))
      (fun s => reading s (.inl 0) = some .queue ∧ s.sched.shared.isStopping = true ∧
        Undisturbed s (.stopRead (.inl 0) 300))
      [.act (.inr 0) (.addTimer 0 10 (some 4) false 100), .tickle (.inr 0), .tickle (.inr 0),
        .run 0 .begin, .run 0 .dequeue, .run 0 .dispatch, .stopRead (.inl 0) 105, .wake 0 [.tickle],
        .expire 0 200 9, .flush 0, .tickle (.inl 0), .handle 0 true, .leave 0, .run 0 .dequeue,
        .run 0 .dispatch, .run 0 .swapIn, .run 0 (.finish false), .run 0 .release, .run 0 .writeBack,
        .act (.inr 0) .setAutoStop, .act (.inr 0) .setStopping, .run 0 .dequeue, .run 0 .dispatch,
        .stopRead (.inl 0) 300, .stopRead (.inl 0) 300]
      (s := { timers := { previouseTime := 0 } }) ⟨0, rfl⟩ (by decide)
  have htrue : StopsTrue s (.inl 0) 300 := ⟨.queue, hread, by simp [readStop, hstop]⟩
  exact ⟨s, hr, htrue, shutdown_sound _ hr hok htrue⟩

/-- A fiber yields READY and its worker lets go of it; before it is queued again, the
thread in stop() finds the queue empty and nobody active. -/
theorem shutdown_unsound :
    ∃ s : State (Fin 1) (Fin 1) (Fin 1), (machine (fun _ => 7)).Reachable s ∧
      (s.hand (.inr 0)).free = true ∧ StopsTrue s (.inr 0) 300 ∧ ¬ NoWork s := by
  obtain ⟨s, hr, hfree, hread, hstop, hpc, hready⟩ :=
    Lib.Machine.exists_of_exec (machine (O := Fin 1) (F := Fin 1) (fun _ : Fin 1 => 7))
      (fun s => (s.hand (.inr 0)).free = true ∧ reading s (.inr 0) = some .queue ∧
        s.sched.shared.isStopping = true ∧
        (s.sched.worker 0).pc = .writeBack ⟨.fiber 0, -1⟩ 0 ∧ s.sched.shared.state 0 = .ready)
      [.act (.inr 0) .newFiber, .act (.inr 0) (.schedule (some (.fiber 0)) (-1)),
        .tickle (.inr 0), .tickle (.inr 0), .run 0 .begin, .run 0 .dequeue, .run 0 .dispatch,
        .run 0 .swapIn, .run 0 .yieldToReady, .act (.inr 0) .setAutoStop,
        .act (.inr 0) .setStopping, .act (.inr 0) .stopping, .stopRead (.inr 0) 300,
        .stopRead (.inr 0) 300, .run 0 .release]
      (s := { timers := { previouseTime := 0 } }) ⟨0, rfl⟩ (by decide)
  refine ⟨s, hr, hfree, ⟨.queue, hread, by simp [readStop, hstop]⟩, ?_⟩
  intro hno
  exact hno.yielded 0 _ 0 hpc hready

end IOManager
end HxSylar
