import HxSylar.Proofs.IOManager
import HxSylar.Proofs.Registration

namespace HxSylar

namespace TimerManager

theorem getNextTimer_timers (m : TimerManager) (now : UInt64) :
    (m.getNextTimer now).1.timers = m.timers := by
  simp only [getNextTimer]
  split <;> rfl

/-- `~0ull` means that there is no timer, unless the clock shows 0: a timer due at
`~0ull` is then `~0ull` away. -/
theorem getNextTimer_none {m : TimerManager} {now : UInt64} (hnow : now ≠ 0)
    (h : (m.getNextTimer now).2 = noTimer) : m.timers = [] := by
  simp only [getNextTimer] at h
  split at h
  · assumption
  · simp only [noTimer] at h
    split at h
    · cases h
    · rename_i t _ _ hle
      have hlt : now.toNat < (nextOf { m with tickled := false } t).toNat := by
        simpa [UInt64.le_iff_toNat_le] using hle
      have hn : now.toNat ≠ 0 := fun h0 => hnow (UInt64.toNat_inj.mp h0)
      have hv := congrArg UInt64.toNat h
      rw [UInt64.toNat_sub_of_le _ _ (UInt64.le_iff_toNat_le.mpr (by omega))] at hv
      have hmax := (nextOf { m with tickled := false } t).toNat_lt
      have hlit : (0xffffffffffffffff : UInt64).toNat = 18446744073709551615 := rfl
      omega

section Empty
variable {m : TimerManager} (he : m.timers = [])
include he

/-- What is no longer in the set comes back only through addTimer. -/
theorem cancel_empty {t : TimerId} {r : TimerManager × Bool} (h : m.cancel t = some r) :
    r.1.timers = [] := by
  unfold cancel at h
  split at h
  · cases h
  · split at h
    · simp [he, setErase] at h
    · cases h
      exact he

theorem refresh_empty {t : TimerId} {now : UInt64} {r : TimerManager × Bool}
    (h : m.refresh t now = some r) : r.1.timers = [] := by
  unfold refresh at h
  simp only [he, setErase] at h
  split at h
  · cases h
  · split at h <;> cases h <;> exact he

theorem reset_empty {t : TimerId} {ms : UInt64} {fromNow : Bool} {now : UInt64}
    {r : TimerManager × Bool × Bool} (h : m.reset t ms fromNow now = some r) :
    r.1.timers = [] := by
  unfold reset at h
  simp only [he, setErase] at h
  split at h
  · cases h
  · split at h
    · cases h
      exact he
    · split at h <;> cases h <;> exact he

theorem listExpiredCb_empty (now : UInt64) (addr : TimerId) :
    (m.listExpiredCb now addr).1.timers = [] := by
  unfold listExpiredCb
  split
  · assumption
  · simp_all

end Empty
end TimerManager

namespace SectionCall

/-- The one call that registers an event. -/
def adds : SectionCall → Bool
  | .addEvent .. => true
  | _ => false

end SectionCall

namespace IOManager
variable {W O F : Type} [DecidableEq F]

/-- How often a thread has yet to decrement `m_pendingEventCount`. -/
def owed (s : State W O F) (th : W ⊕ O) : Nat := (s.hand th).todo.count .dec

theorem count_pushes (ps : List Push) (i : F) :
    List.count (Todo.dec : Todo F)
      (ps.flatMap (fun p => [.push p.task, .dec]) ++ [.unlock i]) = ps.length := by
  induction ps with
  | nil => rfl
  | cons p ps ih => simp_all

theorem owed_free {s : State W O F} {th : W ⊕ O} (h : (s.hand th).free = true) : owed s th = 0 := by
  simp only [Hand.free, Bool.and_eq_true, List.isEmpty_iff] at h
  simp [owed, h.2]

/-- The one label that registers an event, and the one that registers a timer. -/
def Label.addsEvent : Label W O F → Bool
  | .act _ (.fd _ (.addEvent ..)) => true
  | _ => false

def Label.addsTimer : Label W O F → Bool
  | .act _ (.addTimer ..) => true
  | _ => false

variable [DecidableEq W] [DecidableEq O]

/-- All that a step can do to the descriptors and to what the threads owe them. -/
inductive Accounts (s : State W O F) (l : Label W O F) (t : State W O F) : Prop
  | keep (hreg : t.registry = s.registry) (howed : owed t = owed s)
  | enter (th : W ⊕ O) (i : F) (c : SectionCall) (out : Section) (hfree : owed s th = 0)
      (hadds : c.adds = true → l.addsEvent = true)
      (hcall : (s.registry.slot i).call s.registry.pending c = .ok out)
      (hreg : t.registry = ⟨Function.update s.registry.slot i out.slot,
        out.pending + out.pushes.length⟩)
      (howed : owed t = Function.update (owed s) th out.pushes.length)
  | pay (th : W ⊕ O) (n : Nat) (hn : owed s th = n + 1)
      (hreg : t.registry = { s.registry with pending := s.registry.pending - 1 })
      (howed : owed t = Function.update (owed s) th n)

/-- A thread that has made one more read of stopping(), the outcome being open. -/
def Advances (s : State W O F) (l : Label W O F) (th : W ⊕ O) (r : StopRead) : Prop :=
  ∃ now r₀, l = .stopRead th now ∧ reading s th = some r₀ ∧ (readStop s now r₀).2 = .inl r

/-- All that a step can do to what stopping() reads before the queue. -/
structure Effect (s : State W O F) (l : Label W O F) (t : State W O F) : Prop where
  accounts : Accounts s l t
  timers : l.addsTimer = false → s.timers.timers = [] → t.timers.timers = []
  reading : ∀ th r, reading t th = some r → r = .timer ∨ reading s th = some r ∨ Advances s l th r

/-- A step that starts no evaluation but one at its first read, and moves no timer. -/
theorem Effect.quiet {s t : State W O F} {l : Label W O F} (hacc : Accounts s l t)
    (htimers : t.timers = s.timers)
    (hread : ∀ th r, IOManager.reading t th = some r →
      r = .timer ∨ IOManager.reading s th = some r) : Effect s l t :=
  ⟨hacc, fun _ he => by rw [htimers]; exact he, fun th r h => (hread th r h).imp_right .inl⟩

omit [DecidableEq W] [DecidableEq O] in
theorem owed_congr {s t : State W O F} (h : ∀ th, (t.hand th).todo = (s.hand th).todo) :
    owed t = owed s := by
  funext th
  simp only [owed, h th]

/-- Taking the next obligation off a thread's list. -/
theorem owed_setHand {s t : State W O F} {th : W ⊕ O} {h : Hand F}
    (ht : ∀ u, (t.hand u).todo = ((setHand s th h).hand u).todo) :
    owed t = Function.update (owed s) th (h.todo.count .dec) := by
  funext u
  by_cases hu : u = th
  · subst hu
    simp [owed, ht, setHand]
  · simp [owed, ht, setHand, hu]

/-- Entering a section, perhaps after a move that touches neither accounts nor registry. -/
theorem sectionStep_accounts {s u t : State W O F} {l : Label W O F} {th : W ⊕ O} {i : F}
    {c : SectionCall} (h : sectionStep u th i c = some t) (hreg : u.registry = s.registry)
    (howed : owed u = owed s) (hfree : owed s th = 0)
    (hadds : c.adds = true → l.addsEvent = true) : Accounts s l t := by
  unfold sectionStep at h
  split at h
  · cases h
  · split at h
    · cases h
    · rename_i r out hcall
      cases h
      rw [hreg] at hcall
      obtain ⟨hslot, rfl⟩ := Registry.call_ok hcall
      apply Accounts.enter th i c out hfree hadds hslot rfl
      rw [← howed, ← count_pushes out.pushes i]
      exact owed_setHand (fun _ => rfl)

/-- A step of the scheduler underneath leaves the rest to the IOManager. -/
theorem schedStep_frame {tid : W → Int} {s t : State W O F} {th : W ⊕ O} {l : Scheduler.Label W}
    (h : schedStep tid s th l = some t) :
    t.registry = s.registry ∧ owed t = owed s ∧ t.timers = s.timers ∧ t.outside = s.outside ∧
      t.idlePc = s.idlePc := by
  obtain ⟨sc, tk, _, rfl⟩ := schedStep_ok h
  exact ⟨by simp, owed_congr (by simp), by simp, by simp, by simp⟩

/-- A call of schedule() or the like moves nobody. -/
theorem call_reading {tid : W → Int} {s t : State W O F} {th : W ⊕ O} {c : Scheduler.Label W}
    (hc : ∀ w r, c ≠ .run w r) (h : schedStep tid s th c = some t) : reading t = reading s := by
  obtain ⟨_, _, _, hout, hid⟩ := schedStep_frame h
  obtain ⟨sc, tk, hstep, rfl⟩ := schedStep_ok h
  have hw := Scheduler.call_worker hc hstep
  funext u
  refine reading_congr hout (fun w _ => by rw [hid]) (fun w _ => ?_)
  simp [inIdle, hw]

theorem call_effect {tid : W → Int} {s t : State W O F} {th : W ⊕ O} {l : Label W O F}
    {c : Scheduler.Label W} (hc : ∀ w r, c ≠ .run w r) (h : schedStep tid s th c = some t) :
    Effect s l t := by
  obtain ⟨hreg, howed, htimers, _, _⟩ := schedStep_frame h
  exact .quiet (.keep hreg howed) htimers (fun u r hu => .inr (call_reading hc h ▸ hu))

theorem sectionNext_effect {tid : W → Int} {s t : State W O F} {th : W ⊕ O} {l : Label W O F}
    (h : sectionNext tid s th = some t) : Effect s l t := by
  unfold sectionNext at h
  split at h
  · cases h
  · rename_i x rest htodo
    have hpop : owed (setHand s th { s.hand th with todo := rest }) =
        Function.update (owed s) th (rest.count .dec) := owed_setHand (fun _ => rfl)
    -- An obligation that is no decrement leaves the count of those to come.
    have hsame : x ≠ .dec → owed (setHand s th { s.hand th with todo := rest }) = owed s := by
      intro hx
      rw [hpop, Function.update_eq_self_iff, owed, htodo, List.count_cons_of_ne hx]
    simp only at h
    split at h
    · obtain ⟨hreg, howed, htimers, _, _⟩ := schedStep_frame h
      have hread := call_reading (by simp) h
      exact .quiet (.keep hreg (howed.trans (hsame (by simp)))) htimers
        (fun u r hu => .inr (hread ▸ hu))
    · cases h
      refine .quiet (.pay th (rest.count Todo.dec) ?_ rfl (owed_setHand (fun _ => rfl))) rfl
        (fun u r hu => .inr hu)
      rw [owed, htodo, List.count_cons_self]
    · cases h
      exact .quiet (.keep rfl (hsame (by simp))) rfl (fun u r hu => .inr hu)

theorem runStep_effect {tid : W → Int} {s t : State W O F} {w : W} {l : Label W O F}
    {k : Scheduler.RunLabel} (h : runStep tid s w k = some t) : Effect s l t := by
  obtain ⟨u, hu, rfl⟩ := runStep_ok h
  obtain ⟨hreg, howed, htimers, hout, hid⟩ := schedStep_frame hu
  have hin : ∀ v, v ≠ w → inIdle u v = inIdle s v := by
    intro v hv
    obtain ⟨sc, tk, hstep, rfl⟩ := schedStep_ok hu
    obtain ⟨s', k', _, rfl⟩ := Scheduler.step_run hstep
    simp [inIdle, hv]
  split
  · refine .quiet (.keep hreg howed) htimers (reading_worker (w := w) hout ?_ hin ?_)
    · intro v hv
      simp [setIdle, hv, hid]
    · intro r hr
      exact reading_top (.inr (by simp [setIdle])) hr
  · rename_i hnot
    refine .quiet (.keep hreg howed) htimers (reading_worker (w := w) hout ?_ hin ?_)
    · intro v _
      rw [hid]
    · intro r hr
      exact reading_top (.inl (by simpa using hnot)) hr

omit [DecidableEq F] [DecidableEq W] [DecidableEq O] in
theorem readStop_timers (s : State W O F) (now : UInt64) (r : StopRead) :
    (readStop s now r).1.timers = s.timers.timers := by
  cases r with
  | timer => exact TimerManager.getNextTimer_timers _ _
  | pending | queue => rfl

theorem stopReadStep_effect {s t : State W O F} {th : W ⊕ O} {now : UInt64}
    (h : stopReadStep s th now = some t) : Effect s (.stopRead th now) t := by
  unfold stopReadStep at h
  split at h
  · cases h
  · rename_i r₀ hr₀
    have htimers : (readStop s now r₀).1.timers = s.timers.timers := readStop_timers s now r₀
    cases th with
    | inl w =>
      cases h
      refine ⟨.keep rfl rfl, fun _ he => htimers.trans he, fun u r hu => .inr ?_⟩
      by_cases hw : u = .inl w
      · subst hw
        obtain ⟨_, hpc⟩ := reading_inl.mp hu
        simp only [setIdle, Function.update_self] at hpc
        exact .inr ⟨now, r₀, rfl, hr₀, idleAfter_stopping.mp hpc⟩
      · refine .inl ((reading_other (w := w) ?_ ?_ ?_ hw).symm.trans hu)
        · rfl
        · intro v hv
          simp [setIdle, hv]
        · intro v _
          rfl
    | inr o =>
      cases h
      refine ⟨.keep rfl rfl, fun _ he => htimers.trans he, fun u r hu => .inr ?_⟩
      by_cases ho : u = .inr o
      · subst ho
        simp only [reading, Function.update_self] at hu
        exact .inr ⟨now, r₀, rfl, hr₀, outsideAfter_some.mp hu⟩
      · left
        cases u with
        | inl v => exact hu
        | inr x =>
          have hx : x ≠ o := fun hx => ho (by rw [hx])
          simpa [reading, hx] using hu

theorem leaveIdle_effect {tid : W → Int} {s t : State W O F} {w : W} {l : Label W O F} {b : Bool}
    (h : schedStep tid s (.inl w) (.run w (.leaveIdle b)) = some t) : Effect s l t := by
  obtain ⟨hreg, howed, htimers, hout, hid⟩ := schedStep_frame h
  obtain ⟨sc, tk, hstep, rfl⟩ := schedStep_ok h
  obtain ⟨s', k', hran, rfl⟩ := Scheduler.step_run hstep
  refine .quiet (.keep hreg howed) htimers (reading_worker (w := w) hout ?_ ?_ ?_)
  · intro v _
    rw [hid]
  · intro v hv
    simp [inIdle, hv]
  · intro r hr
    cases hran
    exact reading_top (.inl (by simp [inIdle])) hr

/-- Inside idle() and past stopping(), a worker is at none of its reads. -/
theorem idleStep_effect {tid : W → Int} {s t : State W O F} {w : W} {l : Label W O F}
    (hfree : (s.hand (.inl w)).free = true) (h : idleStep tid s w l = some t) : Effect s l t := by
  have hmoves : ∀ (u : State W O F) (p : IdlePc F), u.outside = s.outside → u.idlePc = s.idlePc →
      u.sched.worker = s.sched.worker → (∀ r, p ≠ .stopping r) →
      ∀ th r, reading (setIdle u w p) th = some r → r = .timer ∨ reading s th = some r := by
    intro u p hout hid hw hp
    refine reading_worker (w := w) hout ?_ ?_ ?_
    · intro v hv
      simp [setIdle, hv, hid]
    · intro v _
      simp [inIdle, setIdle, hw]
    · intro r hr
      obtain ⟨_, hpc⟩ := reading_inl.mp hr
      simp only [setIdle, Function.update_self] at hpc
      exact absurd hpc (hp r)
  unfold idleStep at h
  split at h
  · split at h
    · split at h <;> cases h
      exact .quiet (.keep rfl rfl) rfl (hmoves s _ rfl rfl rfl (by simp))
    · cases h
  · split at h <;> cases h
    refine ⟨.keep rfl rfl, fun _ he => TimerManager.listExpiredCb_empty he _ _, fun th r hr => ?_⟩
    exact (hmoves _ _ rfl rfl rfl (by simp) th r hr).imp_right .inl
  · split at h
    · split at h
      · cases h
        exact .quiet (.keep rfl rfl) rfl (hmoves s _ rfl rfl rfl (by simp))
      · obtain ⟨u, hu, rfl⟩ := Option.map_eq_some_iff.mp h
        obtain ⟨hreg, howed, htimers, hout, hid⟩ := schedStep_frame hu
        obtain ⟨sc, tk, hstep, rfl⟩ := schedStep_ok hu
        have hw := Scheduler.call_worker (by simp) hstep
        exact .quiet (.keep hreg howed) htimers (hmoves _ _ hout hid (by simpa using hw) (by simp))
    · cases h
  · split at h
    · cases h
      exact .quiet (.keep rfl rfl) rfl (hmoves s _ rfl rfl rfl (by simp))
    · rename_i i m events _
      obtain ⟨htimers, hout, hid, hsched⟩ := sectionStep_frame h
      refine .quiet ?_ htimers (fun th r hr => ?_)
      · exact sectionStep_accounts h rfl rfl (owed_free hfree) (by simp [SectionCall.adds])
      · rw [reading_congr (s := setIdle s w (.handling events)) hout (fun v _ => by rw [hid])
          (fun v _ => by simp [inIdle, hsched])] at hr
        exact hmoves s _ rfl rfl rfl (by simp) th r hr
    · cases h
  · split at h
    · exact leaveIdle_effect h
    · exact leaveIdle_effect h
    · cases h
  · cases h

omit [DecidableEq F] [DecidableEq W] [DecidableEq O] in
theorem sectionCall_adds {s : State W O F} {f : Option FiberId} {c : FdCall} {c' : SectionCall}
    (th : W ⊕ O) (i : F) (h : sectionCall s f c = some c') (hadds : c'.adds = true) :
    (Label.act th (.fd i c) : Label W O F).addsEvent = true := by
  cases c with
  | addEvent => rfl
  | delEvent | cancelEvent | cancelAll =>
    cases h
    cases hadds

theorem actStep_effect {tid : W → Int} {s t : State W O F} {th : W ⊕ O} {f : Option FiberId}
    {a : Act F} (hfree : (s.hand th).free = true) (h : actStep tid s th f a = some t) :
    Effect s (.act th a) t := by
  -- The timer calls touch the timers and perhaps owe a tickle.
  have htimer : ∀ (m : TimerManager) tk,
      ((Label.act th a : Label W O F).addsTimer = false → s.timers.timers = [] → m.timers = []) →
      Effect s (.act th a) (oweTickle { s with timers := m } th tk) := by
    intro m tk hm
    refine ⟨.keep (by simp) (owed_congr (by simp)), by simpa using hm, fun u r hu => .inr (.inl ?_)⟩
    refine (reading_congr ?_ ?_ ?_).symm.trans hu <;> simp [inIdle]
  cases a with
  | schedule | scheduleRange | newFiber | setAutoStop | setStopping =>
    exact call_effect (by simp) h
  | stopping =>
    cases th with
    | inl w => cases h
    | inr o =>
      cases h
      refine .quiet (.keep rfl rfl) rfl (fun u r hu => ?_)
      cases u with
      | inl w => exact .inr hu
      | inr x =>
        by_cases hx : x = o
        · subst hx
          simp only [reading, Function.update_self, Option.some.injEq] at hu
          exact .inl hu.symm
        · simp only [reading, Function.update_of_ne hx] at hu
          exact .inr hu
  | tickle =>
    cases h
    exact htimer s.timers true (fun _ he => he)
  | addTimer =>
    obtain ⟨r, _, rfl⟩ := Option.map_eq_some_iff.mp h
    exact htimer r.1 r.2 (fun hno _ => by cases hno)
  | cancelTimer =>
    obtain ⟨r, hr, rfl⟩ := Option.map_eq_some_iff.mp h
    exact htimer r.1 false (fun _ he => TimerManager.cancel_empty he hr)
  | refreshTimer =>
    obtain ⟨r, hr, rfl⟩ := Option.map_eq_some_iff.mp h
    exact htimer r.1 false (fun _ he => TimerManager.refresh_empty he hr)
  | resetTimer =>
    obtain ⟨r, hr, rfl⟩ := Option.map_eq_some_iff.mp h
    exact htimer r.1 r.2.2 (fun _ he => TimerManager.reset_empty he hr)
  | fd i c =>
    obtain ⟨c', hc, h⟩ := Option.bind_eq_some_iff.mp h
    obtain ⟨htimers, hout, hid, hsched⟩ := sectionStep_frame h
    refine .quiet ?_ htimers (fun u r hu => .inr ?_)
    · exact sectionStep_accounts h rfl rfl (owed_free hfree) (sectionCall_adds th i hc)
    · refine (reading_congr hout ?_ ?_).symm.trans hu
      · intro w _
        rw [hid]
      · intro w _
        simp only [inIdle, hsched]

theorem tickleStep_effect {s t : State W O F} {th : W ⊕ O} {l : Label W O F}
    (h : tickleStep s th = some t) : Effect s l t := by
  have hsame : ∀ tickling, owed (setHand s th { s.hand th with tickling := tickling }) = owed s := by
    intro tickling
    rw [owed_setHand (fun _ => rfl), Function.update_eq_self_iff]
    rfl
  unfold tickleStep at h
  split at h
  · cases h
  · cases h
    exact .quiet (.keep rfl (hsame _)) rfl (fun u r hu => .inr hu)
  · cases h
    exact .quiet (.keep rfl (hsame _)) rfl (fun u r hu => .inr hu)

theorem step_effect {tid : W → Int} {s t : State W O F} {l : Label W O F}
    (h : step tid s l = some t) : Effect s l t := by
  unfold step at h
  split at h
  · exact tickleStep_effect h
  · split at h
    · exact sectionNext_effect h
    · cases h
  · split at h
    · exact runStep_effect h
    · cases h
  · split at h
    · exact stopReadStep_effect h
    · cases h
  · split at h
    · rename_i hfree
      obtain ⟨f, _, h⟩ := Option.bind_eq_some_iff.mp h
      exact actStep_effect hfree h
    · cases h
  all_goals
    split at h
    · rename_i hfree
      exact idleStep_effect (Bool.and_eq_true_iff.mp hfree).1 h
    · cases h

end IOManager
end HxSylar
