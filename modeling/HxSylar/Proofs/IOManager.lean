import HxSylar.IOManager
import HxSylar.Proofs.Run

namespace HxSylar.IOManager

variable {W O F : Type} [DecidableEq W] [DecidableEq O]

section Fields
variable (s : State W O F) (th : W ⊕ O) (tk : Bool)

@[simp] theorem oweTickle_sched : (oweTickle s th tk).sched = s.sched := by
  unfold oweTickle; split <;> rfl

@[simp] theorem oweTickle_idlePc : (oweTickle s th tk).idlePc = s.idlePc := by
  unfold oweTickle; split <;> rfl

@[simp] theorem oweTickle_outside : (oweTickle s th tk).outside = s.outside := by
  unfold oweTickle; split <;> rfl

@[simp] theorem oweTickle_pipe : (oweTickle s th tk).pipe = s.pipe := by
  unfold oweTickle; split <;> rfl

@[simp] theorem oweTickle_timers : (oweTickle s th tk).timers = s.timers := by
  unfold oweTickle; split <;> rfl

@[simp] theorem oweTickle_registry : (oweTickle s th tk).registry = s.registry := by
  unfold oweTickle; split <;> rfl

@[simp] theorem oweTickle_todo (u : W ⊕ O) :
    ((oweTickle s th tk).hand u).todo = (s.hand u).todo := by
  unfold oweTickle
  split
  · by_cases hu : u = th
    · subst hu; simp [setHand]
    · simp [setHand, hu]
  · rfl

/-- Owing a tickle never cancels one that is owed. -/
theorem oweTickle_keeps {u : W ⊕ O} (h : (s.hand u).tickling ≠ .no) :
    ((oweTickle s th tk).hand u).tickling ≠ .no := by
  unfold oweTickle
  split
  · by_cases hu : u = th
    · subst hu; simp [setHand]
    · simpa [setHand, hu] using h
  · exact h

/-- Neither does work on the list of obligations. -/
theorem setHand_keeps {h : Hand F} {u : W ⊕ O} (hh : h.tickling = (s.hand th).tickling)
    (hu : (s.hand u).tickling ≠ .no) : ((setHand s th h).hand u).tickling ≠ .no := by
  by_cases hth : u = th
  · subst hth
    simpa [setHand, hh] using hu
  · simpa [setHand, hth] using hu

theorem oweTickle_owes : ((oweTickle s th true).hand th).tickling ≠ .no := by
  simp [oweTickle, setHand]

end Fields

theorem schedStep_ok {tid : W → Int} {s t : State W O F} {th : W ⊕ O} {l : Scheduler.Label W}
    (h : schedStep tid s th l = some t) :
    ∃ sc tk, Scheduler.step tid s.sched l = some (sc, tk) ∧
      t = oweTickle { s with sched := sc } th tk := by
  obtain ⟨⟨sc, tk⟩, ho, rfl⟩ := Option.map_eq_some_iff.mp h
  exact ⟨sc, tk, ho, rfl⟩

theorem idleAfter_stopping {x : StopRead ⊕ Bool} {r : StopRead} :
    idleAfter (F := F) x = .stopping r ↔ x = .inl r := by
  rcases x with x | (_ | _) <;> simp [idleAfter]

theorem outsideAfter_some {x : StopRead ⊕ Bool} {r : StopRead} :
    outsideAfter x = some r ↔ x = .inl r := by
  rcases x with x | b <;> simp [outsideAfter]

/-- The scheduler underneath stands still or takes a step of its own. -/
def Follows (tid : W → Int) (s t : State W O F) : Prop :=
  t.sched = s.sched ∨ ∃ l, (Scheduler.machine tid).step s.sched l = some t.sched

theorem schedStep_follows {tid : W → Int} {s t : State W O F} {th : W ⊕ O}
    {l : Scheduler.Label W} (h : schedStep tid s th l = some t) : Follows tid s t := by
  obtain ⟨sc, tk, hs, rfl⟩ := schedStep_ok h
  exact .inr ⟨l, by simp [Scheduler.machine, hs]⟩

theorem runStep_ok {tid : W → Int} {s t : State W O F} {w : W} {l : Scheduler.RunLabel}
    (h : runStep tid s w l = some t) :
    ∃ u, schedStep tid s (.inl w) (.run w l) = some u ∧
      t = if inIdle u w then setIdle u w (.stopping .timer) else u := by
  unfold runStep at h
  split at h
  · cases h
  · obtain ⟨u, hu, rfl⟩ := Option.map_eq_some_iff.mp h
    exact ⟨u, hu, rfl⟩

omit [DecidableEq W] [DecidableEq O] in
theorem reading_inl {s : State W O F} {w : W} {r : StopRead} :
    reading s (.inl w) = some r ↔ inIdle s w = true ∧ s.idlePc w = .stopping r := by
  simp only [reading]
  split
  · rename_i r' hpc
    simp [hpc]
  · rename_i hno
    simp only [reduceCtorEq, false_iff, not_and]
    exact fun _ hpc => hno r hpc

omit [DecidableEq W] [DecidableEq O] in
theorem reading_congr {s t : State W O F} {th : W ⊕ O} (hout : t.outside = s.outside)
    (hid : ∀ w, th = .inl w → t.idlePc w = s.idlePc w)
    (hin : ∀ w, th = .inl w → inIdle t w = inIdle s w) : reading t th = reading s th := by
  cases th with
  | inl w => simp only [reading, hid w rfl, hin w rfl]
  | inr o => simp only [reading, hout]

omit [DecidableEq W] [DecidableEq O] in
/-- A step of a worker's own moves nobody else. -/
theorem reading_other {s t : State W O F} {w : W} (hout : t.outside = s.outside)
    (hid : ∀ v, v ≠ w → t.idlePc v = s.idlePc v) (hin : ∀ v, v ≠ w → inIdle t v = inIdle s v)
    {th : W ⊕ O} (hth : th ≠ .inl w) : reading t th = reading s th := by
  have hne : ∀ v, th = .inl v → v ≠ w := by
    rintro v rfl rfl
    exact hth rfl
  exact reading_congr hout (fun v hv => hid v (hne v hv)) (fun v hv => hin v (hne v hv))

theorem reading_worker {s t : State W O F} {w : W} (hout : t.outside = s.outside)
    (hid : ∀ v, v ≠ w → t.idlePc v = s.idlePc v) (hin : ∀ v, v ≠ w → inIdle t v = inIdle s v)
    (hself : ∀ r, reading t (.inl w) = some r → r = .timer) (th : W ⊕ O) (r : StopRead)
    (h : reading t th = some r) : r = .timer ∨ reading s th = some r := by
  by_cases hth : th = .inl w
  · subst hth
    exact .inl (hself r h)
  · rw [reading_other hout hid hin hth] at h
    exact .inr h

omit [DecidableEq W] [DecidableEq O] in
/-- A worker that is outside idle(), or at the top of its loop, is at the first read at most. -/
theorem reading_top {s : State W O F} {w : W} {r : StopRead}
    (h : inIdle s w = false ∨ s.idlePc w = .stopping .timer) (hr : reading s (.inl w) = some r) :
    r = .timer := by
  obtain ⟨hin, hpc⟩ := reading_inl.mp hr
  rcases h with h | h
  · simp [h] at hin
  · rw [h] at hpc
    cases hpc
    rfl

theorem stopReadStep_sched {s t : State W O F} {th : W ⊕ O} {now : UInt64}
    (h : stopReadStep s th now = some t) : t.sched = s.sched := by
  unfold stopReadStep at h
  split at h
  · cases h
  · cases th <;> cases h <;> rfl

variable [DecidableEq F]

/-- Entering a critical section moves no thread and no timer. -/
theorem sectionStep_frame {s t : State W O F} {th : W ⊕ O} {i : F} {c : SectionCall}
    (h : sectionStep s th i c = some t) :
    t.timers = s.timers ∧ t.outside = s.outside ∧ t.idlePc = s.idlePc ∧ t.sched = s.sched := by
  unfold sectionStep at h
  split at h
  · cases h
  · split at h <;> cases h
    exact ⟨rfl, rfl, rfl, rfl⟩

theorem idleStep_follows {tid : W → Int} {s t : State W O F} {w : W} {l : Label W O F}
    (h : idleStep tid s w l = some t) : Follows tid s t := by
  unfold idleStep at h
  split at h
  · split at h
    · split at h <;> cases h
      exact .inl rfl
    · cases h
  · split at h <;> cases h
    exact .inl rfl
  · split at h
    · split at h
      · cases h
        exact .inl rfl
      · obtain ⟨u, hu, rfl⟩ := Option.map_eq_some_iff.mp h
        have hf := schedStep_follows hu
        exact hf
    · cases h
  · split at h
    · cases h
      exact .inl rfl
    · have he := (sectionStep_frame h).2.2.2
      exact .inl he
    · cases h
  · split at h
    · exact schedStep_follows h
    · exact schedStep_follows h
    · cases h
  · cases h

theorem actStep_follows {tid : W → Int} {s t : State W O F} {th : W ⊕ O} {f : Option FiberId}
    {a : Act F} (h : actStep tid s th f a = some t) : Follows tid s t := by
  cases a with
  | schedule | scheduleRange | newFiber | setAutoStop | setStopping => exact schedStep_follows h
  | stopping =>
    cases th <;> cases h
    exact .inl rfl
  | tickle =>
    cases h
    exact .inl (by simp)
  | addTimer | cancelTimer | refreshTimer | resetTimer =>
    obtain ⟨r, _, rfl⟩ := Option.map_eq_some_iff.mp h
    exact .inl (by simp)
  | fd i c =>
    obtain ⟨c', _, h⟩ := Option.bind_eq_some_iff.mp h
    exact .inl (sectionStep_frame h).2.2.2

theorem sectionNext_follows {tid : W → Int} {s t : State W O F} {th : W ⊕ O}
    (h : sectionNext tid s th = some t) : Follows tid s t := by
  unfold sectionNext at h
  split at h
  · cases h
  · simp only at h
    split at h
    · have hf := schedStep_follows h
      exact hf
    · cases h
      exact .inl rfl
    · cases h
      exact .inl rfl

/-- The IOManager refines the Scheduler it derives from. -/
theorem step_follows {tid : W → Int} {s t : State W O F} {l : Label W O F}
    (h : step tid s l = some t) : Follows tid s t := by
  unfold step at h
  split at h
  · unfold tickleStep at h
    split at h <;> cases h <;> exact .inl rfl
  · split at h
    · exact sectionNext_follows h
    · cases h
  · split at h
    · obtain ⟨u, hu, rfl⟩ := runStep_ok h
      have hf := schedStep_follows hu
      split
      · exact hf
      · exact hf
    · cases h
  · split at h
    · exact .inl (stopReadStep_sched h)
    · cases h
  · split at h
    · obtain ⟨f, _, h⟩ := Option.bind_eq_some_iff.mp h
      exact actStep_follows h
    · cases h
  all_goals
    split at h
    · exact idleStep_follows h
    · cases h

theorem sched_reachable {tid : W → Int} {s : State W O F} (hr : (machine tid).Reachable s) :
    (Scheduler.machine tid).Reachable s.sched := by
  refine Lib.Machine.Reachable.invariant
    (P := fun s : State W O F => (Scheduler.machine tid).Reachable s.sched) ?_ ?_ hr
  · intro s hinit
    obtain ⟨now, rfl⟩ := hinit
    exact .start rfl
  · intro s l t h ht
    rcases step_follows ht with he | ⟨l', hl⟩
    · rw [he]
      exact h
    · exact .next h trivial hl

end HxSylar.IOManager
