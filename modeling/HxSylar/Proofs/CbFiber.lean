import HxSylar.Proofs.Exclusion

namespace HxSylar.Scheduler

/-- The fibers that have yielded. -/
abbrev Yields := FiberId → Bool

/-- The worker got to the fiber with a callback. -/
def Place.byCb : Place → Bool
  | .entering b | .executing b | .leaving b => b
  | _ => false

/-- What the fiber kept as a worker's `cb_fiber` may be like: its state, its entries in the
queue, whether it has yielded, and where the worker is. Only while the state is EXEC can
entries of it wait in the queue, since the scan passes those over. -/
inductive Phase : FiberState → Nat → Bool → Place → Prop
  | away : Phase .init 0 false .away
  | entering : Phase .init 0 false (.entering true)
  | executing (q : Nat) : Phase .exec q false (.executing true)
  | held (q : Nat) : Phase .exec q true (.leaving true)
  | ready : Phase .ready 0 true (.leaving true)
  | ended {st : FiberState} (hdead : st.dead = true) : Phase st 0 false (.leaving true)

/-- One fiber, kept for callbacks by at most one worker, whom nobody disturbs. -/
structure Life.Reserved {W : Type} (a : Life W) (y : Bool) : Prop where
  fresh : a.made = false → a.queued = 0 ∧ y = false ∧ ∀ v, a.view v = {}
  alone : ∀ u v, (a.view u).owns = true → v ≠ u → a.view v = {}
  phase : ∀ u, (a.view u).owns = true → Phase a.state a.queued y (a.view u).place

theorem Phase.more {q : Nat} {y : Bool} {p : Place} (h : Phase .exec q y p) (n : Nat) :
    Phase .exec (q + n) y p := by
  cases h with
  | executing => exact .executing _
  | held => exact .held _
  | ended hdead => cases hdead

/-- More entries of the fiber, which must exist and execute if it is somebody's. -/
theorem Life.Reserved.push {W : Type} {a : Life W} {y : Bool} {n : Nat} (h : a.Reserved y)
    (hn : n ≠ 0 → a.made = true ∧ ∀ u, (a.view u).owns = true → a.state = .exec) :
    ({ a with queued := a.queued + n } : Life W).Reserved y := by
  by_cases hz : n = 0
  · subst hz
    exact h
  obtain ⟨hmade, hexec⟩ := hn hz
  refine ⟨?_, h.alone, ?_⟩
  · intro hm
    rw [hmade] at hm
    cases hm
  · intro u hu
    have hp := h.phase u hu
    rw [hexec u hu] at hp ⊢
    exact hp.more n

variable {W : Type} [DecidableEq W]

def Yields.after (y : Yields) (s : State W) (l : Label W) (_ : State W) : Yields :=
  match l with
  | .run w .yieldToReady | .run w .yieldToHold =>
    match (s.worker w).pc with
    | .exec _ f => Function.update y f true
    | _ => y
  | _ => y

/-- The scheduler with the yields of its run beside it. -/
def yielding (tid : W → Int) : Lib.Machine (State W × Yields) (Label W) :=
  (machine tid).observe (fun _ => false) Yields.after

/-- A worker's `cb_fiber` is passed to `schedule` only while it executes, and ends or yields
to READY only while no entry of it is queued. -/
def CbUnclaimed (q : State W × Yields) : Label W → Prop
  | .schedule fc _ => ∀ f w, fc = some (.fiber f) → (q.1.worker w).cbFiber = some f →
      q.1.shared.state f = .exec
  | .scheduleRange fcs => ∀ f w, some (.fiber f) ∈ fcs → (q.1.worker w).cbFiber = some f →
      q.1.shared.state f = .exec
  | .run w .yieldToReady | .run w (.finish _) =>
      ∀ ft f, (q.1.worker w).pc = .exec ft f → (q.1.worker w).cbFiber = some f →
        queuedOf q.1.shared f = 0
  | _ => True

section Worker
variable {tid : Int} {s s' : Shared} {k k' : Worker} {l : RunLabel} {tk : Bool} {f : FiberId}

/-- A worker that is on a fiber with a callback keeps the fiber as its `cb_fiber`. -/
def Worker.Via (k : Worker) : Prop := ∀ g, (k.pc.place g).byCb = true → k.cbFiber = some g

theorem dispatch_byCb (ft : Option FiberAndThread) (g : FiberId) :
    ((Pc.dispatch ft).place g).byCb = false := by
  cases ft with
  | none => rfl
  | some ft =>
    simp only [Pc.place]
    split <;> rfl

theorem on_byCb {ft : FiberAndThread} {f g : FiberId} {p : Bool → Place}
    (hp : ∀ b, (p b).byCb = b) (h : (if f = g then p (viaCb ft) else Place.away).byCb = true) :
    f = g ∧ viaCb ft = true := by
  split at h
  · rw [hp] at h
    exact ⟨‹_›, h⟩
  · cases h

/-- On its way through a fiber the worker keeps what it came for. -/
theorem Worker.Via.on {ft : FiberAndThread} {pc : Pc} (hv : k.Via) {p : Bool → Place}
    (hp : ∀ b, (p b).byCb = b) (hpc : ∀ g, k.pc.place g = if f = g then p (viaCb ft) else .away)
    {q : Bool → Place} (hq : ∀ b, (q b).byCb = b)
    (hpc' : ∀ g, pc.place g = if f = g then q (viaCb ft) else .away) :
    Worker.Via { k with pc := pc } := by
  intro g hg
  rw [hpc'] at hg
  obtain ⟨he, hcb⟩ := on_byCb hq hg
  apply hv
  rw [hpc, if_pos he, hp, hcb]

theorem Ran.via (h : Ran tid s k l s' k' tk) (hv : k.Via) : k'.Via := by
  cases h with
  | begin | exit | goIdle | discard | requeue | endedFiber | endedCb | hold | leaveIdle =>
    intro g hg
    cases hg
  | dequeue =>
    intro g hg
    exact absurd hg (by simp only [dispatch_byCb, Bool.false_eq_true, not_false_eq_true])
  | enterFiber ft f hpc htask hlive =>
    intro g hg
    obtain ⟨-, hcb⟩ := on_byCb (p := .entering) (fun _ => rfl) hg
    simp [viaCb, htask] at hcb
  | reuseCb ft c f hpc htask hcb hended =>
    intro g hg
    obtain ⟨he, -⟩ := on_byCb (p := .entering) (fun _ => rfl) hg
    rw [← he]
    exact hcb
  | newCb ft c hpc htask hcb =>
    intro g hg
    obtain ⟨he, -⟩ := on_byCb (p := .entering) (fun _ => rfl) hg
    rw [← he]
  | swapIn ft f hpc hstate =>
    exact hv.on (p := .entering) (fun _ => rfl) (fun g => by rw [hpc]; rfl)
      (q := .executing) (fun _ => rfl) (fun _ => rfl)
  | yieldToReady ft f hpc hstate | yieldToHold ft f hpc hstate | finish ft f except hpc =>
    exact hv.on (p := .executing) (fun _ => rfl) (fun g => by rw [hpc]; rfl)
      (q := .leaving) (fun _ => rfl) (fun _ => rfl)
  | release ft f hpc =>
    exact hv.on (p := .leaving) (fun _ => rfl) (fun g => by rw [hpc]; rfl)
      (q := .leaving) (fun _ => rfl) (fun _ => rfl)

theorem ne_of_away {g : FiberId} {p : Place} (hp : p ≠ .away)
    (h : (if g = f then p else Place.away) = .away) : f ≠ g := by
  intro he
  rw [if_pos he.symm] at h
  exact hp h

/-- Letting go of `cb_fiber` behind another fiber concerns no third one. -/
theorem Worker.Via.keepCb {ft : FiberAndThread} {g : FiberId} (hv : k.Via)
    (hpc : k.pc = .writeBack ft g) (hne : f ≠ g) :
    decide (keepCb ft k.cbFiber = some f) = decide (k.cbFiber = some f) := by
  rw [keepCb_self]
  cases hcb : viaCb ft with
  | false => simp
  | true =>
    have hown : k.cbFiber = some g := hv g (by simp [hpc, Pc.place, hcb, Place.byCb])
    simp [hown, Ne.symm hne]

/-- A scan leaves the entries of an executing fiber, and so of a fiber that is queued only
while it executes. -/
theorem scan_leaves (tid : Int) (s : Shared) (hq : queuedOf s f ≠ 0 → s.state f = .exec)
    (active : Int) :
    queuedOf { s with fibers := (scan tid s.state s.fibers).rest, active := active } f =
        queuedOf s f ∧
      (Pc.dispatch (scan tid s.state s.fibers).taken).place f = .away := by
  rcases scan_spec tid s.state s.fibers with
    ⟨skipped, ft, rest, hf, ht, hr, -, -, hnot⟩ | ⟨ht, hr, -⟩
  · have htask : ft.task ≠ .fiber f := by
      intro htask
      have hexec : s.state f = .exec := by
        apply hq
        simp [queuedOf, hf, isFiber, htask]
      simp [executing, htask, hexec] at hnot
    constructor
    · rw [queuedOf, queuedOf, hr, hf]
      simp [isFiber, htask]
    · simp [ht, Pc.place, htask]
  · rw [ht, hr]
    exact ⟨rfl, rfl⟩

/-- A fiber that the worker has nothing to do with, except perhaps as its `cb_fiber`, is left
alone by the worker's step, or entered with the next callback. -/
theorem Ran.away (h : Ran tid s k l s' k' tk) (hv : k.Via) (haway : k.pc.place f = .away)
    (hq : queuedOf s f ≠ 0 → s.state f = .exec) (hf : f < s.nextFiber ∨ s'.nextFiber ≤ f) :
    (s'.state f = s.state f ∧ queuedOf s' f = queuedOf s f ∧ k'.view f = k.view f) ∨
    (k.cbFiber = some f ∧ s'.state f = .init ∧ queuedOf s' f = queuedOf s f ∧
      k'.view f = ⟨.entering true, true⟩) := by
  cases h with
  | begin hpc | exit hpc | goIdle hpc | leaveIdle _ hpc =>
    exact .inl ⟨rfl, rfl, by simp [Worker.view, hpc, Pc.place]⟩
  | release ft g hpc => exact .inl ⟨rfl, rfl, by simp [Worker.view, hpc, Pc.place]⟩
  | dequeue hpc =>
    obtain ⟨hleft, hplace⟩ := scan_leaves tid s hq
      (s.active + (scan tid s.state s.fibers).taken.isSome.toNat)
    exact .inl ⟨rfl, hleft, by rw [Worker.view, Worker.view, hplace, haway]⟩
  | discard ft g hpc htask hdead =>
    exact .inl ⟨rfl, rfl, by rw [Worker.view, Worker.view, haway]; rfl⟩
  | enterFiber ft g hpc htask hlive =>
    have hne : f ≠ g := by
      intro he
      simp [hpc, Pc.place, htask, he] at haway
    exact .inl ⟨rfl, rfl, by simp [Worker.view, hpc, Pc.place, htask, Ne.symm hne]⟩
  | reuseCb ft c g hpc htask hcb hended =>
    by_cases he : f = g
    · subst he
      refine .inr ⟨hcb, setState_self _ _ _, rfl, ?_⟩
      simp [Worker.view, Pc.place, viaCb, htask, hcb]
    · exact .inl ⟨setState_other _ _ he, rfl,
        by simp [Worker.view, hpc, Pc.place, htask, Ne.symm he]⟩
  | newCb ft c hpc htask hcb =>
    have hne : f ≠ s.nextFiber := by
      intro he
      have hf : f < s.nextFiber ∨ s.nextFiber + 1 ≤ f := hf
      rw [he] at hf
      exact hf.elim (Nat.lt_irrefl _) (Nat.not_succ_le_self _)
    exact .inl ⟨setState_other _ _ hne, rfl,
      by simp [Worker.view, hpc, Pc.place, htask, hcb, Ne.symm hne]⟩
  | swapIn ft g hpc hstate =>
    rw [hpc] at haway
    have hne := ne_of_away (by simp) haway
    exact .inl ⟨setState_other _ _ hne, rfl, by simp [Worker.view, hpc, Pc.place, Ne.symm hne]⟩
  | yieldToReady ft g hpc hstate | finish ft g except hpc =>
    rw [hpc] at haway
    have hne := ne_of_away (by simp) haway
    exact .inl ⟨setState_other _ _ hne, rfl, by simp [Worker.view, hpc, Pc.place, Ne.symm hne]⟩
  | yieldToHold ft g hpc hstate =>
    rw [hpc] at haway
    have hne := ne_of_away (by simp) haway
    exact .inl ⟨rfl, rfl, by simp [Worker.view, hpc, Pc.place, Ne.symm hne]⟩
  | requeue ft g hpc hstate =>
    have hne := ne_of_away (p := .leaving (viaCb ft)) (by simp) (by rw [hpc] at haway; exact haway)
    refine .inl ⟨rfl, by simp [queuedOf_append, isFiber, Ne.symm hne], ?_⟩
    simp [Worker.view, hpc, Pc.place, Ne.symm hne, hv.keepCb hpc hne]
  | endedFiber ft g g' hpc htask hdead =>
    exact .inl ⟨rfl, rfl, by rw [Worker.view, Worker.view, haway]; rfl⟩
  | endedCb ft g c hpc htask hdead =>
    have hne := ne_of_away (p := .leaving (viaCb ft)) (by simp) (by rw [hpc] at haway; exact haway)
    exact .inl ⟨setState_other _ _ hne, rfl, by rw [Worker.view, Worker.view, haway]; rfl⟩
  | hold ft g hpc hready hlive =>
    have hne := ne_of_away (p := .leaving (viaCb ft)) (by simp) (by rw [hpc] at haway; exact haway)
    refine .inl ⟨setState_other _ _ hne, rfl, ?_⟩
    simp [Worker.view, hpc, Pc.place, Ne.symm hne, hv.keepCb hpc hne]

def RunLabel.yields : RunLabel → Bool
  | .yieldToReady | .yieldToHold => true
  | _ => false

namespace Phase
variable {st : FiberState} {q : Nat} {y b : Bool} {p : Place}

/-- A dequeued fiber is no worker's `cb_fiber`. -/
theorem not_taken (h : Phase st q y p) : p ≠ .taken := by
  cases h <;> simp

theorem of_away (h : Phase st q y .away) : st = .init ∧ q = 0 ∧ y = false := by
  cases h
  exact ⟨rfl, rfl, rfl⟩

theorem of_entering (h : Phase st q y (.entering b)) :
    b = true ∧ st = .init ∧ q = 0 ∧ y = false := by
  cases h
  exact ⟨rfl, rfl, rfl, rfl⟩

theorem of_executing (h : Phase st q y (.executing b)) : b = true ∧ st = .exec ∧ y = false := by
  cases h
  exact ⟨rfl, rfl, rfl⟩

theorem of_leaving (h : Phase st q y (.leaving b)) :
    b = true ∧ (st.dead = true → q = 0 ∧ y = false) := by
  cases h with
  | held | ready => exact ⟨rfl, fun hd => Bool.noConfusion hd⟩
  | ended hdead => exact ⟨rfl, fun _ => ⟨rfl, rfl⟩⟩

/-- Entries of the fiber wait only while it executes. -/
theorem exec_of_queued (h : Phase st q y p) (hq : q ≠ 0) : st = .exec := by
  cases h with
  | executing | held => rfl
  | away | entering | ready | ended => exact absurd rfl hq

end Phase

/-- A worker on its own `cb_fiber` goes on to the next phase, or lets the fiber go. -/
theorem Ran.phase {y : Bool} (h : Ran tid s k l s' k' tk)
    (hp : Phase (s.state f) (queuedOf s f) y (k.pc.place f)) (hon : k.pc.place f ≠ .away)
    (hc : l = .yieldToReady ∨ (∃ except, l = .finish except) → queuedOf s f = 0)
    (hkeep : k'.cbFiber = some f) :
    Phase (s'.state f) (queuedOf s' f) (y || l.yields) (k'.pc.place f) := by
  -- The worker is on `f` itself.
  have hg : ∀ {g p}, k.pc.place f = (if g = f then p else .away) →
      g = f ∧ Phase (s.state f) (queuedOf s f) y p := by
    intro g p he
    split at he
    · exact ⟨‹_›, he ▸ hp⟩
    · exact absurd he hon
  cases h with
  | begin hpc | exit hpc | goIdle hpc | leaveIdle _ hpc | dequeue hpc =>
    rw [hpc] at hon
    exact absurd rfl hon
  | discard ft g hpc htask hdead | enterFiber ft g hpc htask hlive =>
    obtain ⟨-, hp⟩ := hg (g := g) (p := .taken) (by simp [hpc, Pc.place, htask])
    exact absurd rfl hp.not_taken
  | reuseCb ft c g hpc htask hcb hended | newCb ft c hpc htask hcb =>
    exact absurd (by simp [hpc, Pc.place, htask]) hon
  | swapIn ft g hpc hstate =>
    obtain ⟨he, hp⟩ := hg (g := g) (p := .entering (viaCb ft)) (by rw [hpc]; rfl)
    subst he
    obtain ⟨hcb, -, -, hy⟩ := hp.of_entering
    rw [setState_self, hy]
    simp only [Pc.place, if_true, hcb]
    exact .executing _
  | yieldToReady ft g hpc hstate =>
    obtain ⟨he, hp⟩ := hg (g := g) (p := .executing (viaCb ft)) (by rw [hpc]; rfl)
    subst he
    obtain ⟨hcb, -, hy⟩ := hp.of_executing
    have hq : queuedOf (s.setState g .ready) g = 0 := hc (.inl rfl)
    rw [setState_self, hq, hy]
    simp only [Pc.place, if_true, hcb]
    exact .ready
  | yieldToHold ft g hpc hstate =>
    obtain ⟨he, hp⟩ := hg (g := g) (p := .executing (viaCb ft)) (by rw [hpc]; rfl)
    subst he
    obtain ⟨hcb, -, hy⟩ := hp.of_executing
    rw [hstate, hy]
    simp only [Pc.place, if_true, hcb]
    exact .held _
  | finish ft g except hpc =>
    obtain ⟨he, hp⟩ := hg (g := g) (p := .executing (viaCb ft)) (by rw [hpc]; rfl)
    subst he
    obtain ⟨hcb, -, hy⟩ := hp.of_executing
    have hq : queuedOf (s.setState g (if except then .except else .term)) g = 0 :=
      hc (.inr ⟨except, rfl⟩)
    rw [setState_self, hq, hy]
    simp only [Pc.place, if_true, hcb]
    exact .ended (by cases except <;> rfl)
  | release ft g hpc =>
    obtain ⟨he, hp⟩ := hg (g := g) (p := .leaving (viaCb ft)) (by rw [hpc]; rfl)
    subst he
    have hy : (y || RunLabel.release.yields) = y := Bool.or_false y
    rw [hy]
    simp only [Pc.place, if_true]
    exact hp
  | requeue ft g hpc hstate | hold ft g hpc hready hlive =>
    obtain ⟨he, hp⟩ := hg (g := g) (p := .leaving (viaCb ft)) (by rw [hpc]; rfl)
    have hgone := keepCb_self ft k.cbFiber f
    rw [hp.of_leaving.1] at hgone
    exact absurd hkeep (by simpa using hgone)
  | endedFiber ft g g' hpc htask hdead =>
    obtain ⟨he, hp⟩ := hg (g := g) (p := .leaving (viaCb ft)) (by rw [hpc]; rfl)
    have hcb := hp.of_leaving.1
    simp [viaCb, htask] at hcb
  | endedCb ft g c hpc htask hdead =>
    obtain ⟨he, hp⟩ := hg (g := g) (p := .leaving (viaCb ft)) (by rw [hpc]; rfl)
    subst he
    obtain ⟨hq, hy⟩ := hp.of_leaving.2 hdead
    have hq : queuedOf (s.setState g .init) g = 0 := hq
    rw [setState_self, hq, hy]
    exact .away

/-- The only fiber that a worker makes is its next `cb_fiber`. -/
theorem Ran.makes (h : Ran tid s k l s' k' tk) :
    s'.nextFiber = s.nextFiber ∧ (k'.cbFiber = some f → k.cbFiber = some f) ∨
    s' = s.newFiber ∧ k'.cbFiber = some s.nextFiber ∧
      k'.view s.nextFiber = ⟨.entering true, true⟩ := by
  cases h with
  | newCb ft c hpc htask hnone =>
    exact .inr ⟨rfl, rfl, by simp [Worker.view, Pc.place, viaCb, htask]⟩
  | requeue ft g hpc hstate | hold ft g hpc hready hlive =>
    refine .inl ⟨rfl, fun hcb => ?_⟩
    cases htask : ft.task <;> simp only [keepCb, htask] at hcb
    · exact hcb
    · cases hcb
  | _ => exact .inl ⟨rfl, id⟩

/-- Only the fiber that the worker is on yields. -/
theorem Ran.yields_on (h : Ran tid s k l s' k' tk) (hy : l.yields = true) :
    ∃ ft g, k.pc = .exec ft g := by
  cases h with
  | yieldToReady ft g hpc hstate | yieldToHold ft g hpc hstate => exact ⟨ft, g, hpc⟩
  | _ => cases hy

end Worker

section Fiber
variable {tid : Int} {s : State W} {y : Yields} {w : W} {r : RunLabel} {s' : Shared} {k' : Worker}
  {tk : Bool} {f : FiberId}

omit [DecidableEq W] in
theorem after_of_not_yields {t : State W} (hr : r.yields = false) : y.after s (.run w r) t = y := by
  cases r with
  | yieldToReady | yieldToHold => cases hr
  | _ => rfl

omit [DecidableEq W] in
theorem after_of_yields {t : State W} {ft : FiberAndThread} {g : FiberId} (hr : r.yields = true)
    (hpc : (s.worker w).pc = .exec ft g) :
    y.after s (.run w r) t = Function.update y g true := by
  cases r with
  | yieldToReady | yieldToHold => simp only [Yields.after, hpc]
  | _ => cases hr

omit [DecidableEq W] in
theorem after_away {t : State W} (haway : (s.worker w).pc.place f = .away)
    (h : Ran tid s.shared (s.worker w) r s' k' tk) : y.after s (.run w r) t f = y f := by
  cases hr : r.yields with
  | false => rw [after_of_not_yields hr]
  | true =>
    obtain ⟨ft, g, hpc⟩ := h.yields_on hr
    rw [hpc] at haway
    rw [after_of_yields hr hpc, Function.update_of_ne (ne_of_away (by simp) haway)]

omit [DecidableEq W] in
theorem after_on {t : State W} (hon : (s.worker w).pc.place f ≠ .away)
    (h : Ran tid s.shared (s.worker w) r s' k' tk) :
    y.after s (.run w r) t f = (y f || r.yields) := by
  cases hr : r.yields with
  | false => rw [after_of_not_yields hr, Bool.or_false]
  | true =>
    obtain ⟨ft, g, hpc⟩ := h.yields_on hr
    have he : g = f := by
      by_contra hne
      simp [hpc, Pc.place, hne] at hon
    rw [after_of_yields hr hpc, he, Function.update_self, Bool.or_true]

omit [DecidableEq W] in
/-- What the condition asks of a `cb_fiber` that ends or yields to READY. -/
theorem CbUnclaimed.on (hc : CbUnclaimed (s, y) (.run w r)) (hown : (s.worker w).cbFiber = some f)
    (hran : Ran tid s.shared (s.worker w) r s' k' tk) (hon : (s.worker w).pc.place f ≠ .away)
    (hr : r = .yieldToReady ∨ ∃ except, r = .finish except) : queuedOf s.shared f = 0 := by
  have hpc : ∀ {ft g}, (s.worker w).pc = .exec ft g → (s.worker w).pc = .exec ft f := by
    intro ft g hpc
    by_cases he : g = f
    · rw [hpc, he]
    · exact absurd (by simp [hpc, Pc.place, he]) hon
  rcases hr with hr | ⟨except, hr⟩
  · subst hr
    cases hran with
    | yieldToReady ft g hexec _ => exact hc ft f (hpc hexec) hown
  · subst hr
    cases hran with
    | finish ft g _ hexec => exact hc ft f (hpc hexec) hown

omit [DecidableEq W] in
/-- The step of a worker, seen from the fiber that is its own `cb_fiber`. -/
theorem phase_own (hv : (s.worker w).Via) (h : (lifeOf s f).Reserved (y f))
    (hc : CbUnclaimed (s, y) (.run w r)) (hran : Ran tid s.shared (s.worker w) r s' k' tk)
    (hmade : f < s.shared.nextFiber) (hown : (s.worker w).cbFiber = some f)
    (hkeep : k'.cbFiber = some f) (t : State W) :
    Phase (s'.state f) (queuedOf s' f) (y.after s (.run w r) t f) (k'.pc.place f) := by
  have hp : Phase (s.shared.state f) (queuedOf s.shared f) (y f) ((s.worker w).pc.place f) :=
    h.phase w (by simp [lifeOf, Worker.view, hown])
  by_cases haway : (s.worker w).pc.place f = .away
  · rw [after_away haway hran]
    rcases hran.away hv haway hp.exec_of_queued (.inl hmade) with
      ⟨hstate, hq, hview⟩ | ⟨-, hstate, hq, hview⟩
    · have hplace : k'.pc.place f = (s.worker w).pc.place f := congrArg View.place hview
      rw [hstate, hq, hplace]
      exact hp
    · have hplace : k'.pc.place f = .entering true := congrArg View.place hview
      rw [haway] at hp
      obtain ⟨-, hzero, hy⟩ := hp.of_away
      rw [hstate, hq, hplace, hzero, hy]
      exact .entering
  · rw [after_on haway hran]
    exact hran.phase hp haway (hc.on hown hran haway) hkeep

/-- A fiber that does not exist yet, or that some other worker keeps, is left alone. -/
theorem reserved_same (hv : (s.worker w).Via) (h : (lifeOf s f).Reserved (y f))
    (hran : Ran tid s.shared (s.worker w) r s' k' tk) (hview : (s.worker w).view f = {})
    (hq : queuedOf s.shared f ≠ 0 → s.shared.state f = .exec)
    (hmade : f < s'.nextFiber ↔ f < s.shared.nextFiber) (t : State W)
    (ht : t = ⟨s', Function.update s.worker w k'⟩) :
    (lifeOf t f).Reserved (y.after s (.run w r) t f) := by
  have haway : (s.worker w).pc.place f = .away := congrArg View.place hview
  have hnot : (s.worker w).cbFiber ≠ some f := of_decide_eq_false (congrArg View.owns hview)
  have hf : f < s.shared.nextFiber ∨ s'.nextFiber ≤ f := by
    rw [← hmade]
    exact Nat.lt_or_ge _ _
  rw [after_away haway hran]
  rcases hran.away hv haway hq hf with ⟨hstate, hq, hsame⟩ | ⟨hown, -⟩
  · rw [ht, life_same hstate hq hmade hsame]
    exact h
  · exact absurd hown hnot

/-- The fiber that a worker has just made for a callback. -/
theorem reserved_made (h : (lifeOf s s.shared.nextFiber).Reserved (y s.shared.nextFiber))
    (hran : Ran tid s.shared (s.worker w) r s.shared.newFiber k' tk)
    (hview : k'.view s.shared.nextFiber = ⟨.entering true, true⟩) (t : State W)
    (ht : t = ⟨s.shared.newFiber, Function.update s.worker w k'⟩) :
    (lifeOf t s.shared.nextFiber).Reserved (y.after s (.run w r) t s.shared.nextFiber) := by
  obtain ⟨hq, hy, hnone⟩ := h.fresh (by simp [lifeOf])
  have haway : (s.worker w).pc.place s.shared.nextFiber = .away := congrArg View.place (hnone w)
  have hlife : lifeOf t s.shared.nextFiber = ⟨.init, 0, true,
      Function.update (lifeOf s s.shared.nextFiber).view w ⟨.entering true, true⟩⟩ := by
    rw [ht, life_run, hview]
    have hq : queuedOf s.shared.newFiber s.shared.nextFiber = 0 := hq
    rw [hq]
    simp [Shared.newFiber, Shared.setState]
  have hothers : ∀ v, v ≠ w →
      (Function.update (lifeOf s s.shared.nextFiber).view w ⟨.entering true, true⟩) v = {} := by
    intro v hv
    rw [Function.update_of_ne hv, hnone]
  have howner : ∀ u, ((Function.update (lifeOf s s.shared.nextFiber).view w
      ⟨.entering true, true⟩) u).owns = true → u = w := by
    intro u hu
    by_contra hne
    rw [hothers u hne] at hu
    cases hu
  rw [after_away haway hran, hlife, hy]
  refine ⟨fun hm => Bool.noConfusion hm, ?_, ?_⟩
  · intro u v hu hv
    rw [howner u hu] at hv
    exact hothers v hv
  · intro u hu
    rw [howner u hu]
    simp only [Function.update_self]
    exact .entering

theorem view_run_same (s : State W) (s' : Shared) (k' : Worker) (w : W) (f : FiberId) :
    (lifeOf ⟨s', Function.update s.worker w k'⟩ f).view w = k'.view f := by
  simp [lifeOf]

theorem view_run_other (s : State W) (s' : Shared) (k' : Worker) {w u : W} (f : FiberId)
    (hu : u ≠ w) : (lifeOf ⟨s', Function.update s.worker w k'⟩ f).view u = (lifeOf s f).view u := by
  simp [lifeOf, hu]

/-- A step that neither makes the fiber nor takes it as a new `cb_fiber`. -/
theorem reserved_kept (hv : (s.worker w).Via) (h : (lifeOf s f).Reserved (y f))
    (hc : CbUnclaimed (s, y) (.run w r)) (hran : Ran tid s.shared (s.worker w) r s' k' tk)
    (hmade : f < s'.nextFiber ↔ f < s.shared.nextFiber)
    (hkeeps : k'.cbFiber = some f → (s.worker w).cbFiber = some f) (t : State W)
    (ht : t = ⟨s', Function.update s.worker w k'⟩) :
    (lifeOf t f).Reserved (y.after s (.run w r) t f) := by
  by_cases hf : f < s.shared.nextFiber
  · by_cases hother : ∃ u, u ≠ w ∧ ((lifeOf s f).view u).owns = true
    · obtain ⟨u, hu, hown⟩ := hother
      exact reserved_same hv h hran (h.alone u w hown hu.symm) (h.phase u hown).exec_of_queued
        hmade t ht
    -- From here on the fiber has no other owner than `w`.
    have howner : ∀ u, ((lifeOf t f).view u).owns = true → u = w := by
      intro u hu
      by_contra hne
      rw [ht, view_run_other s s' k' f hne] at hu
      exact hother ⟨u, hne, hu⟩
    have hown : ∀ u, ((lifeOf t f).view u).owns = true →
        k'.cbFiber = some f ∧ (s.worker w).cbFiber = some f := by
      intro u hu
      have hu' := hu
      rw [howner u hu, ht, view_run_same] at hu'
      have hk : k'.cbFiber = some f := of_decide_eq_true hu'
      exact ⟨hk, hkeeps hk⟩
    refine ⟨?_, ?_, ?_⟩
    · intro hm
      rw [ht] at hm
      exact absurd (hmade.mpr hf) (of_decide_eq_false hm)
    · intro u v hu hne
      rw [howner u hu] at hne
      rw [ht, view_run_other s s' k' f hne]
      exact h.alone w v (decide_eq_true (hown u hu).2) hne
    · intro u hu
      have hp := phase_own hv h hc hran hf (hown u hu).2 (hown u hu).1 t
      rw [howner u hu]
      rw [ht] at hp ⊢
      rw [view_run_same]
      exact hp
  · obtain ⟨hq, -, hnone⟩ := h.fresh (decide_eq_false hf)
    exact reserved_same hv h hran (hnone w) (fun hne => absurd hq hne) hmade t ht

/-- What a worker's step leaves of every fiber's reservation. -/
theorem reserved_run (hv : (s.worker w).Via) (h : (lifeOf s f).Reserved (y f))
    (hc : CbUnclaimed (s, y) (.run w r)) (hran : Ran tid s.shared (s.worker w) r s' k' tk)
    (t : State W) (ht : t = ⟨s', Function.update s.worker w k'⟩) :
    (lifeOf t f).Reserved (y.after s (.run w r) t f) := by
  rcases hran.makes (f := f) with ⟨hnext, hkeeps⟩ | ⟨hs', hcb', hview⟩
  · exact reserved_kept hv h hc hran (by rw [hnext]) hkeeps t ht
  · subst hs'
    by_cases hf : f = s.shared.nextFiber
    · subst hf
      exact reserved_made h hran hview t ht
    · apply reserved_kept hv h hc hran (made_other hf) ?_ t ht
      intro hcb
      rw [hcb'] at hcb
      exact absurd (Option.some.inj hcb).symm hf

omit [DecidableEq W] in
theorem reserved_push {es : List FiberAndThread} (h : (lifeOf s f).Reserved (y f))
    (hn : es.countP (isFiber f) ≠ 0 → f < s.shared.nextFiber ∧
      ∀ w, (s.worker w).cbFiber = some f → s.shared.state f = .exec) :
    (lifeOf { s with shared := { s.shared with fibers := s.shared.fibers ++ es } } f).Reserved
      (y f) := by
  have hlife : lifeOf { s with shared := { s.shared with fibers := s.shared.fibers ++ es } } f =
      { lifeOf s f with queued := (lifeOf s f).queued + es.countP (isFiber f) } := by
    simp only [lifeOf, queuedOf_append]
  rw [hlife]
  apply h.push
  intro hne
  obtain ⟨hmade, hexec⟩ := hn hne
  exact ⟨decide_eq_true hmade, fun u hu => hexec u (of_decide_eq_true hu)⟩

/-- A call from any thread adds entries, those of a `cb_fiber` only while it executes, or
makes a new fiber. -/
theorem reserved_call {tid : W → Int} {t : State W} {l : Label W} (hl : ∀ w r, l ≠ .run w r)
    (h : (lifeOf s f).Reserved (y f)) (hc : CbUnclaimed (s, y) l)
    (hs : step tid s l = some (t, tk)) : (lifeOf t f).Reserved (y.after s l t f) := by
  cases l with
  | schedule fc thread =>
    simp only [step] at hs
    split at hs <;> cases hs
    rename_i hvalid
    apply reserved_push h
    intro hne
    cases fc with
    | none => exact absurd rfl hne
    | some task =>
      have htask : task = .fiber f := by
        by_contra htask
        exact hne (by simp [isFiber, htask])
      subst htask
      exact ⟨by simpa [Shared.valid] using hvalid, fun w hw => hc f w rfl hw⟩
  | scheduleRange fcs =>
    simp only [step] at hs
    split at hs <;> cases hs
    rename_i hvalid
    simp only [Shared.scheduleRange, scheduleRange_fibers]
    apply reserved_push h
    rw [countP_range]
    intro hne
    have hmem : some (.fiber f) ∈ fcs := by
      by_contra hmem
      exact hne (List.count_eq_zero.mpr hmem)
    have hmade := List.all_eq_true.mp hvalid _ hmem
    exact ⟨by simpa [Shared.valid] using hmade, fun w hw => hc f w hmem hw⟩
  | newFiber =>
    cases hs
    by_cases hf : f = s.shared.nextFiber
    · subst hf
      obtain ⟨-, -, hnone⟩ := h.fresh (by simp [lifeOf])
      have howner : ∀ u, ¬((lifeOf s s.shared.nextFiber).view u).owns = true := by
        intro u hu
        rw [hnone u] at hu
        cases hu
      refine ⟨fun hm => absurd hm (by simp [lifeOf, Shared.newFiber]), ?_, ?_⟩
      · intro u v hu
        exact absurd hu (howner u)
      · intro u hu
        exact absurd hu (howner u)
    · have hlife : lifeOf { s with shared := s.shared.newFiber } f = lifeOf s f := by
        simp [lifeOf, Shared.newFiber, queuedOf, Shared.setState, hf, made_other hf]
      rw [hlife]
      exact h
  | setAutoStop | setStopping =>
    cases hs
    exact h
  | run w r => exact absurd rfl (hl w r)

end Fiber

/-- In every run that meets the condition, each fiber is reserved, and each worker keeps the
fiber of the callback it is on. -/
theorem reachable_reserved {tid : W → Int} {q : State W × Yields}
    (hr : (yielding tid).ReachableUnder CbUnclaimed q) :
    (∀ w, (q.1.worker w).Via) ∧ ∀ f, (lifeOf q.1 f).Reserved (q.2 f) := by
  refine Lib.Machine.ReachableUnder.invariant
    (P := fun q => (∀ w, (q.1.worker w).Via) ∧ ∀ f, (lifeOf q.1 f).Reserved (q.2 f)) ?_ ?_ hr
  · intro q hinit
    obtain ⟨s, y⟩ := q
    obtain ⟨hs, hy⟩ := hinit
    cases hs
    cases hy
    refine ⟨fun w g hg => Bool.noConfusion hg, fun f => ⟨?_, ?_, ?_⟩⟩
    · exact fun _ => ⟨rfl, rfl, fun _ => rfl⟩
    · exact fun u v hu => Bool.noConfusion hu
    · exact fun u hu => Bool.noConfusion hu
  · intro q l q' h hc hstep
    obtain ⟨s, y⟩ := q
    obtain ⟨t, y'⟩ := q'
    obtain ⟨hvia, hres⟩ := h
    obtain ⟨hs, hy⟩ := Lib.Machine.observe_step hstep
    obtain ⟨tk, hs⟩ := machine_step hs
    simp only at hy
    subst hy
    by_cases hl : ∃ w r, l = .run w r
    · obtain ⟨w, r, rfl⟩ := hl
      obtain ⟨s', k', hran, ht⟩ := step_run hs
      refine ⟨?_, fun f => reserved_run (hvia w) (hres f) hc hran t ht⟩
      intro v
      subst ht
      by_cases hv : v = w
      · subst hv
        simpa using hran.via (hvia v)
      · simpa [hv] using hvia v
    · have hl : ∀ w r, l ≠ .run w r := fun w r he => hl ⟨w, r, he⟩
      refine ⟨?_, fun f => reserved_call hl (hres f) hc hs⟩
      rw [call_worker hl hs]
      exact hvia

/-- `Fiber::reset` is about to be applied to `f` by worker `w`: with the next callback
(scheduler.cc:185), or with null behind one that has ended (scheduler.cc:197). -/
def Resets (s : State W) (w : W) (f : FiberId) : Prop :=
  (∃ ft c, (s.worker w).pc = .dispatch (some ft) ∧ ft.task = .cb c ∧
    (s.worker w).cbFiber = some f) ∨
  (∃ ft c, (s.worker w).pc = .writeBack ft f ∧ ft.task = .cb c ∧ (s.shared.state f).dead = true)

/-- The fiber that is reset has ended or was never started, no entry of it is queued and no
other worker is at it; and a callback starts in a fiber that has never yielded. -/
structure SafeReuse (s : State W) (y : Yields) : Prop where
  ended : ∀ w f, Resets s w f → s.shared.state f = .init ∨ (s.shared.state f).dead = true
  unqueued : ∀ w f, Resets s w f → queuedOf s.shared f = 0
  alone : ∀ w f v, Resets s w f → v ≠ w → (s.worker v).pc.place f = .away
  unyielded : ∀ w f ft c, (s.worker w).pc = .swapIn ft f → ft.task = .cb c → y f = false

omit [DecidableEq W] in
/-- A fiber that is reset is the worker's own, before or behind a callback. -/
theorem Resets.own {s : State W} {y : Yields} {w : W} {f : FiberId} (hv : (s.worker w).Via)
    (h : (lifeOf s f).Reserved (y f)) (hr : Resets s w f) :
    ((lifeOf s f).view w).owns = true ∧ queuedOf s.shared f = 0 ∧
      (s.shared.state f = .init ∨ (s.shared.state f).dead = true) := by
  rcases hr with ⟨ft, c, hpc, htask, hcb⟩ | ⟨ft, c, hpc, htask, hdead⟩
  · have hown : ((lifeOf s f).view w).owns = true := decide_eq_true hcb
    have hp := h.phase w hown
    have hplace : ((lifeOf s f).view w).place = .away := by
      simp [lifeOf, Worker.view, hpc, Pc.place, htask]
    rw [hplace] at hp
    obtain ⟨hstate, hq, -⟩ := hp.of_away
    exact ⟨hown, hq, .inl hstate⟩
  · have hplace : (s.worker w).pc.place f = .leaving true := by
      simp [hpc, Pc.place, viaCb, htask]
    have hown : ((lifeOf s f).view w).owns = true := by
      apply decide_eq_true
      apply hv f
      rw [hplace]
      rfl
    have hp : Phase (s.shared.state f) (queuedOf s.shared f) (y f) ((s.worker w).pc.place f) :=
      h.phase w hown
    rw [hplace] at hp
    exact ⟨hown, (hp.of_leaving.2 hdead).1, .inr hdead⟩

/-- Callback fibers are reused safely in every run in which a worker's `cb_fiber` is scheduled
only while it executes, and has no entry in the queue when it ends or yields to READY. -/
theorem callback_fiber_reuse (tid : W → Int) {s : State W} {y : Yields}
    (hr : (yielding tid).ReachableUnder CbUnclaimed (s, y)) : SafeReuse s y := by
  obtain ⟨hvia, hres⟩ := reachable_reserved hr
  refine ⟨?_, ?_, ?_, ?_⟩
  · intro w f hreset
    exact (hreset.own (hvia w) (hres f)).2.2
  · intro w f hreset
    exact (hreset.own (hvia w) (hres f)).2.1
  · intro w f v hreset hne
    exact congrArg View.place ((hres f).alone w v (hreset.own (hvia w) (hres f)).1 hne)
  · intro w f ft c hpc htask
    have hplace : (s.worker w).pc.place f = .entering true := by
      simp [hpc, Pc.place, viaCb, htask]
    have hcb : (s.worker w).cbFiber = some f := by
      apply hvia w f
      rw [hplace]
      rfl
    have hp : Phase (s.shared.state f) (queuedOf s.shared f) (y f) ((s.worker w).pc.place f) :=
      (hres f).phase w (decide_eq_true hcb)
    rw [hplace] at hp
    exact hp.of_entering.2.2.2

/-- One worker, whose first callback threw, is about to reuse the fiber for the second. -/
theorem callback_fiber_reuse_run :
    ∃ q : State (Fin 1) × Yields, (yielding (fun _ : Fin 1 => 1)).ReachableUnder CbUnclaimed q ∧
      Resets q.1 0 0 ∧ SafeReuse q.1 q.2 := by
  have hcb : ∀ (q : State (Fin 1) × Yields) c thread, CbUnclaimed q (.schedule (some (.cb c)) thread) := by
    intro q c thread f w he
    cases he
  have hr : (yielding (fun _ : Fin 1 => 1)).ReachableUnder CbUnclaimed _ :=
    Lib.Machine.ReachableUnder.exec (s := (({} : State (Fin 1)), fun _ => false))
      (.start ⟨rfl, rfl⟩)
      [.schedule (some (.cb 3)) (-1), .run 0 .begin, .run 0 .dequeue, .run 0 .dispatch,
        .run 0 .swapIn, .run 0 (.finish true), .run 0 .release, .run 0 .writeBack,
        .schedule (some (.cb 4)) (-1), .run 0 .dequeue]
      (.cons rfl (hcb _ _ _) <| .cons rfl trivial <| .cons rfl trivial <| .cons rfl trivial <|
        .cons rfl trivial <| .cons rfl
          (by
            intro ft f hpc _
            cases hpc
            rfl) <|
        .cons rfl trivial <| .cons rfl trivial <| .cons rfl (hcb _ _ _) <| .cons rfl trivial trivial)
      rfl
  exact ⟨_, hr, .inl ⟨_, 4, rfl, rfl, rfl⟩, callback_fiber_reuse _ hr⟩

/-- A callback passes its own fiber to `schedule` and returns. The fiber is reset while its
entry is queued; the second worker takes the entry and enters the fiber, and the first
one applies `reset` for its next callback to a fiber in EXEC. -/
theorem callback_fiber_reuse_broken :
    ∃ q : State (Fin 2) × Yields,
      (yielding (fun w : Fin 2 => (w.val : Int) + 1)).Reachable q ∧ Resets q.1 0 0 ∧
        q.1.shared.state 0 = .exec ∧ ¬SafeReuse q.1 q.2 := by
  refine ⟨_, Lib.Machine.reachable_of_exec (s := (({} : State (Fin 2)), fun _ => false))
    [.schedule (some (.cb 3)) (-1), .run 0 .begin, .run 1 .begin, .run 0 .dequeue,
      .run 0 .dispatch, .run 0 .swapIn, .schedule (some (.fiber 0)) (-1), .run 0 (.finish false),
      .run 0 .release, .run 0 .writeBack, .run 1 .dequeue, .run 1 .dispatch, .run 1 .swapIn,
      .schedule (some (.cb 4)) (-1), .run 0 .dequeue] ⟨rfl, rfl⟩ rfl,
    .inl ⟨_, 4, rfl, rfl, rfl⟩, rfl, ?_⟩
  intro hsafe
  rcases hsafe.ended 0 0 (.inl ⟨_, 4, rfl, rfl, rfl⟩) with hstate | hstate
  · cases hstate
  · cases hstate

end HxSylar.Scheduler
