import Mathlib.Logic.Function.Basic
import Mathlib.Tactic.TypeStar

namespace HxSylar.Lib

/-- A machine whose labels carry every choice of the environment, so that one
label leads to at most one state. `none` means the label is not enabled, or the
process dies while executing it. -/
structure Machine (σ ι : Type*) where
  init : σ → Prop
  step : σ → ι → Option σ

namespace Machine
variable {σ ι η : Type*}

/-- States at the end of a run all of whose steps met `ok`. The premise looks at
the state before the step, never at what the step computes. -/
inductive ReachableUnder (M : Machine σ ι) (ok : σ → ι → Prop) : σ → Prop
  | start {s : σ} : M.init s → ReachableUnder M ok s
  | next {s t : σ} {l : ι} : ReachableUnder M ok s → ok s l → M.step s l = some t →
      ReachableUnder M ok t

/-- States at the end of an arbitrary run. -/
def Reachable (M : Machine σ ι) (s : σ) : Prop := M.ReachableUnder (fun _ _ => True) s

/-- The invariance rule: what holds at the start and is kept by each step that
meets the condition holds in every state of such a run. -/
theorem ReachableUnder.invariant {M : Machine σ ι} {ok : σ → ι → Prop} {P : σ → Prop}
    (h0 : ∀ s, M.init s → P s)
    (hs : ∀ s l t, P s → ok s l → M.step s l = some t → P t)
    {s : σ} (hr : M.ReachableUnder ok s) : P s := by
  induction hr with
  | start hi => exact h0 _ hi
  | next _ ho ht ih => exact hs _ _ _ ih ho ht

theorem Reachable.invariant {M : Machine σ ι} {P : σ → Prop}
    (h0 : ∀ s, M.init s → P s) (hs : ∀ s l t, P s → M.step s l = some t → P t)
    {s : σ} (hr : M.Reachable s) : P s :=
  ReachableUnder.invariant h0 (fun s l t hp _ ht => hs s l t hp ht) hr

theorem ReachableUnder.mono {M : Machine σ ι} {ok ok' : σ → ι → Prop}
    (h : ∀ s l, ok s l → ok' s l) {s : σ} (hr : M.ReachableUnder ok s) :
    M.ReachableUnder ok' s := by
  induction hr with
  | start hi => exact .start hi
  | next _ ho ht ih => exact .next ih (h _ _ ho) ht

theorem ReachableUnder.reachable {M : Machine σ ι} {ok : σ → ι → Prop} {s : σ}
    (hr : M.ReachableUnder ok s) : M.Reachable s :=
  hr.mono (fun _ _ _ => trivial)

/-- Replaying a list of labels. -/
def exec (M : Machine σ ι) : σ → List ι → Option σ
  | s, [] => some s
  | s, l :: ls => (M.step s l).bind (fun t => M.exec t ls)

/-- Every step of the replay meets the condition. -/
def Meets (M : Machine σ ι) (ok : σ → ι → Prop) : σ → List ι → Prop
  | _, [] => True
  | s, l :: ls => ok s l ∧ ∀ t, M.step s l = some t → M.Meets ok t ls

theorem ReachableUnder.exec {M : Machine σ ι} {ok : σ → ι → Prop} {s t : σ}
    (hr : M.ReachableUnder ok s) (ls : List ι) (hm : M.Meets ok s ls)
    (he : M.exec s ls = some t) : M.ReachableUnder ok t := by
  induction ls generalizing s with
  | nil =>
    cases he
    exact hr
  | cons l ls ih =>
    obtain ⟨u, hu, he⟩ := Option.bind_eq_some_iff.mp he
    exact ih (.next hr hm.1 hu) (hm.2 u hu) he

theorem Meets.cons {M : Machine σ ι} {ok : σ → ι → Prop} {s t : σ} {l : ι} {ls : List ι}
    (ht : M.step s l = some t) (ho : ok s l) (hm : M.Meets ok t ls) : M.Meets ok s (l :: ls) := by
  refine ⟨ho, fun u hu => ?_⟩
  rw [ht] at hu
  cases hu
  exact hm

theorem meets_true (M : Machine σ ι) (s : σ) (ls : List ι) :
    M.Meets (fun _ _ => True) s ls := by
  induction ls generalizing s with
  | nil => trivial
  | cons l ls ih => exact ⟨trivial, fun t _ => ih t⟩

/-- A replay that succeeds ends in a reachable state. -/
theorem reachable_of_exec {M : Machine σ ι} {s t : σ} (ls : List ι) (hi : M.init s)
    (he : M.exec s ls = some t) : M.Reachable t :=
  ReachableUnder.exec (.start hi) ls (M.meets_true s ls) he

/-- Replaying a list of labels for as long as every step meets the condition. -/
def execUnder (M : Machine σ ι) (ok : σ → ι → Prop) [∀ s l, Decidable (ok s l)] :
    σ → List ι → Option σ
  | s, [] => some s
  | s, l :: ls => if ok s l then (M.step s l).bind (fun t => M.execUnder ok t ls) else none

theorem ReachableUnder.execUnder {M : Machine σ ι} {ok : σ → ι → Prop} [∀ s l, Decidable (ok s l)]
    {s t : σ} {ls : List ι} (hr : M.ReachableUnder ok s) (he : M.execUnder ok s ls = some t) :
    M.ReachableUnder ok t := by
  induction ls generalizing s with
  | nil =>
    cases he
    exact hr
  | cons l ls ih =>
    simp only [Machine.execUnder] at he
    split at he
    · rename_i ho
      obtain ⟨u, hu, he⟩ := Option.bind_eq_some_iff.mp he
      exact ih (.next hr ho hu) he
    · cases he

/-- A replay that succeeds under a condition meets it. -/
theorem meets_of_execUnder {M : Machine σ ι} {ok : σ → ι → Prop} [∀ s l, Decidable (ok s l)]
    {s t : σ} {ls : List ι} (he : M.execUnder ok s ls = some t) :
    M.Meets ok s ls ∧ M.exec s ls = some t := by
  induction ls generalizing s with
  | nil => exact ⟨trivial, he⟩
  | cons l ls ih =>
    simp only [Machine.execUnder] at he
    split at he
    · rename_i ho
      obtain ⟨u, hu, he⟩ := Option.bind_eq_some_iff.mp he
      obtain ⟨hmeets, hexec⟩ := ih he
      exact ⟨.cons hu ho hmeets, by rw [exec, hu, Option.bind_some, hexec]⟩
    · cases he

/-- A test passed by the end of a replay is passed by a reachable state. -/
theorem exists_of_execUnder (M : Machine σ ι) (ok : σ → ι → Prop) [∀ s l, Decidable (ok s l)]
    {s : σ} (p : σ → Prop) [DecidablePred p] (ls : List ι) (hi : M.init s)
    (h : (M.execUnder ok s ls).any (fun t => decide (p t)) = true) :
    ∃ t, M.ReachableUnder ok t ∧ p t := by
  obtain ⟨t, ht, hp⟩ := (Option.any_eq_true _ _).mp h
  exact ⟨t, ReachableUnder.execUnder (.start hi) ht, of_decide_eq_true hp⟩

theorem exists_of_exec (M : Machine σ ι) {s : σ} (p : σ → Prop) [DecidablePred p] (ls : List ι)
    (hi : M.init s) (h : (M.exec s ls).any (fun t => decide (p t)) = true) :
    ∃ t, M.Reachable t ∧ p t := by
  obtain ⟨t, ht, hp⟩ := (Option.any_eq_true _ _).mp h
  exact ⟨t, reachable_of_exec ls hi ht, of_decide_eq_true hp⟩

/-- The property holds in every state that the replay passes. -/
def Always (M : Machine σ ι) (P : σ → Prop) : σ → List ι → Prop
  | s, [] => P s
  | s, l :: ls => P s ∧ ∀ t, M.step s l = some t → M.Always P t ls

/-- A property that a step keeps exactly when its label is good holds throughout a
replay exactly when every label is. -/
theorem always_iff {M : Machine σ ι} {I P : σ → Prop} {good : ι → Prop}
    (hstep : ∀ s l t, I s → P s → M.step s l = some t → I t ∧ (P t ↔ good l))
    {s t : σ} {ls : List ι} (hi : I s) (hp : P s) (he : M.exec s ls = some t) :
    M.Always P s ls ↔ ∀ l ∈ ls, good l := by
  induction ls generalizing s with
  | nil => simp [Always, hp]
  | cons l ls ih =>
    obtain ⟨u, hu, he⟩ := Option.bind_eq_some_iff.mp he
    obtain ⟨hiu, hpu⟩ := hstep s l u hi hp hu
    have hrest : M.Always P u ls → P u := by
      cases ls with
      | nil => exact id
      | cons => exact And.left
    simp only [Always, hu, Option.some.injEq, forall_eq', List.forall_mem_cons, hp, true_and]
    constructor
    · intro ha
      have hpu' := hrest ha
      exact ⟨hpu.mp hpu', (ih hiu hpu' he).mp ha⟩
    · intro hg
      exact (ih hiu (hpu.mpr hg.1) he).mpr hg.2

/-- A property that a step loses exactly when it does not meet the condition holds throughout
a replay exactly when every step meets it. -/
theorem always_iff_meets {M : Machine σ ι} {I P : σ → Prop} {ok : σ → ι → Prop}
    (hp : ∀ s, I s → P s) (hok : ∀ s l t, I s → ok s l → M.step s l = some t → I t)
    (hbad : ∀ s l t, I s → ¬ok s l → M.step s l = some t → ¬P t)
    {s t : σ} {ls : List ι} (hi : I s) (he : M.exec s ls = some t) :
    M.Always P s ls ↔ M.Meets ok s ls := by
  induction ls generalizing s with
  | nil => simp [Always, Meets, hp s hi]
  | cons l ls ih =>
    obtain ⟨u, hu, he⟩ := Option.bind_eq_some_iff.mp he
    simp only [Always, Meets, hu, Option.some.injEq, forall_eq', hp s hi, true_and]
    constructor
    · intro ha
      have ho : ok s l := by
        refine Classical.byContradiction (fun hno => hbad s l u hi hno hu ?_)
        cases ls with
        | nil => exact ha
        | cons => exact ha.1
      exact ⟨ho, (ih (hok s l u hi ho hu) he).mp ha⟩
    · intro hm
      exact (ih (hok s l u hi hm.1 hu) he).mpr hm.2

theorem execUnder_some {M : Machine σ ι} {ok : σ → ι → Prop} [∀ s l, Decidable (ok s l)]
    {s t : σ} {ls : List ι} (he : M.execUnder ok s ls = some t) :
    M.exec s ls = some t ∧ M.Meets ok s ls := by
  induction ls generalizing s with
  | nil => exact ⟨he, trivial⟩
  | cons l ls ih =>
    simp only [Machine.execUnder] at he
    split at he
    · rename_i ho
      obtain ⟨u, hu, he⟩ := Option.bind_eq_some_iff.mp he
      obtain ⟨hexec, hmeets⟩ := ih he
      exact ⟨by rw [exec, hu, Option.bind_some, hexec], .cons hu ho hmeets⟩
    · cases he

/-- The machine with a history variable beside the state. The update sees the
step's two states and its label but cannot influence the step. -/
def observe (M : Machine σ ι) (h₀ : η) (upd : η → σ → ι → σ → η) : Machine (σ × η) ι where
  init p := M.init p.1 ∧ p.2 = h₀
  step p l := (M.step p.1 l).map (fun t => (t, upd p.2 p.1 l t))

theorem observe_step {M : Machine σ ι} {h₀ : η} {upd : η → σ → ι → σ → η}
    {p q : σ × η} {l : ι} (h : (M.observe h₀ upd).step p l = some q) :
    M.step p.1 l = some q.1 ∧ q.2 = upd p.2 p.1 l q.1 := by
  obtain ⟨t, ht, he⟩ := Option.map_eq_some_iff.mp h
  subst he
  exact ⟨ht, rfl⟩

/-- Every run can be observed. -/
theorem Reachable.observe {M : Machine σ ι} (h₀ : η) (upd : η → σ → ι → σ → η) {s : σ}
    (hr : M.Reachable s) : ∃ h, (M.observe h₀ upd).Reachable (s, h) := by
  induction hr with
  | start hi => exact ⟨h₀, .start ⟨hi, rfl⟩⟩
  | @next s t l _ _ ht ih =>
    obtain ⟨h, ih⟩ := ih
    refine ⟨upd h s l t, .next (l := l) ih trivial ?_⟩
    simp only [Machine.observe, ht, Option.map_some]

end Machine
end HxSylar.Lib
