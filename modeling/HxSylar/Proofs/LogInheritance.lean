import HxSylar.LogInheritance

namespace HxSylar.LogInheritance
open Lib
variable {n m : Nat}

/-- What an appender of a logger with this formatter promises. -/
def Inherited (formatter : Option FormatterPtr) (a : Appender) : Prop :=
  a.formatter ≠ none ∧ (a.hasFormatter = false → a.formatter = formatter)

/-- Every appender of a logger has a formatter, which is the logger's if it is not its own. -/
def Inherits (s : State n m) : Prop :=
  ∀ l, ∀ a ∈ (s.loggers l).appenders, Inherited (s.loggers l).formatter (s.appenders a)

/-- No call of `log` goes through a null pointer. -/
def LogSafe (s : State n m) : Prop := ∀ l level, s.log l level ≠ none

/-- The calls that keep the formatters: an appender that is added has its own formatter, or takes
that of the logger, or has it already; and a null pointer is set only where no appender is left
without a formatter. -/
def Allowed (s : State n m) : Call n m → Prop
  | .addAppender l a =>
    (s.appenders a).hasFormatter = true ∨
      (s.loggers l).formatter ≠ none ∧
        ((s.appenders a).formatter = none ∨ (s.appenders a).formatter = (s.loggers l).formatter)
  | .setFormatter l val =>
    val ≠ none ∨ ∀ a ∈ (s.loggers l).appenders, (s.appenders a).hasFormatter = true
  | .setAppenderFormatter a val => val ≠ none ∨ ∀ l, a ∉ (s.loggers l).appenders
  | .delAppender _ _ | .clearAppenders _ | .setPattern _ _ _ => True

instance (s : State n m) : DecidablePred (Allowed s)
  | .addAppender l a => inferInstanceAs (Decidable ((s.appenders a).hasFormatter = true ∨
      (s.loggers l).formatter ≠ none ∧
        ((s.appenders a).formatter = none ∨ (s.appenders a).formatter = (s.loggers l).formatter)))
  | .setFormatter l val => inferInstanceAs (Decidable (val ≠ none ∨
      ∀ a ∈ (s.loggers l).appenders, (s.appenders a).hasFormatter = true))
  | .setAppenderFormatter a val =>
    inferInstanceAs (Decidable (val ≠ none ∨ ∀ l, a ∉ (s.loggers l).appenders))
  | .delAppender _ _ | .clearAppenders _ | .setPattern _ _ _ => isTrue trivial

/-- No appender is in two loggers, and one with its own formatter has a formatter. -/
structure Sound (s : State n m) : Prop where
  exclusive : ∀ l l' a, a ∈ (s.loggers l).appenders → a ∈ (s.loggers l').appenders → l = l'
  owned : ∀ a, (s.appenders a).hasFormatter = true → (s.appenders a).formatter ≠ none

section Log
variable {s : State n m}

theorem logAppender_safe (level : LogLevel) {a : Fin m} (h : (s.appenders a).formatter ≠ none) :
    ∃ written, s.logAppender level a = some written := by
  obtain ⟨formatter, hformatter⟩ := Option.ne_none_iff_exists'.mp h
  unfold State.logAppender
  split
  · exact ⟨[formatter], by rw [hformatter]; rfl⟩
  · exact ⟨[], rfl⟩

theorem logAppenders_safe (level : LogLevel) {appenders : List (Fin m)}
    (h : ∀ a ∈ appenders, (s.appenders a).formatter ≠ none) :
    s.logAppenders level appenders ≠ none := by
  induction appenders with
  | nil => exact Option.some_ne_none _
  | cons a rest ih =>
    obtain ⟨ha, hrest⟩ := List.forall_mem_cons.mp h
    obtain ⟨written, hwritten⟩ := logAppender_safe level ha
    obtain ⟨more, hmore⟩ := Option.ne_none_iff_exists'.mp (ih hrest)
    simp [State.logAppenders, hwritten, hmore]

/-- With a formatter in every appender, logging is safe. -/
theorem Inherits.logSafe (h : Inherits s) : LogSafe s := by
  have hall : ∀ l level, s.logAppenders level (s.loggers l).appenders ≠ none := by
    intro l level
    exact logAppenders_safe level fun a ha => (h l a ha).1
  intro l level
  unfold State.log
  split
  · split
    · exact hall l level
    · split
      · rename_i root _
        unfold State.logRoot
        split
        · exact hall root level
        · exact Option.some_ne_none _
      · exact Option.some_ne_none _
  · exact Option.some_ne_none _

end Log

section Calls
variable {s : State n m}

/-- What one call keeps, and when it keeps the formatters. -/
structure Keeps (s t : State n m) (allowed : Prop) : Prop where
  sound : Sound t
  inherits : Inherits t ↔ allowed

/-- A logger with fewer appenders, and nothing else changed. -/
theorem keeps_fewer (hs : Sound s) (hi : Inherits s) (l : Fin n) {appenders : List (Fin m)}
    (hsub : appenders ⊆ (s.loggers l).appenders) :
    Keeps s { s with
      loggers := Function.update s.loggers l { s.loggers l with appenders := appenders } } True := by
  have hfewer : ∀ l' a, a ∈ (Function.update s.loggers l
      { s.loggers l with appenders := appenders } l').appenders → a ∈ (s.loggers l').appenders := by
    intro l' a ha
    by_cases hl : l' = l
    · subst l'
      rw [Function.update_self] at ha
      exact hsub ha
    · rwa [Function.update_of_ne hl] at ha
  have hformatter : ∀ l', (Function.update s.loggers l
      { s.loggers l with appenders := appenders } l').formatter = (s.loggers l').formatter := by
    intro l'
    by_cases hl : l' = l
    · subst l'
      rw [Function.update_self]
    · rw [Function.update_of_ne hl]
  constructor
  · constructor
    · intro l₁ l₂ a h₁ h₂
      exact hs.exclusive l₁ l₂ a (hfewer l₁ a h₁) (hfewer l₂ a h₂)
    · exact hs.owned
  · apply iff_of_true ?_ trivial
    intro l' a ha
    dsimp only
    rw [hformatter]
    exact hi l' a (hfewer l' a ha)

theorem setFormatter_logger (l l' : Fin n) (val : Option FormatterPtr) :
    (s.setFormatter l val).loggers l' =
      if l' = l then { s.loggers l with formatter := val } else s.loggers l' :=
  Function.update_apply ..

theorem setFormatter_appender (l : Fin n) (val : Option FormatterPtr) (a : Fin m) :
    (s.setFormatter l val).appenders a =
      if a ∈ (s.loggers l).appenders ∧ (s.appenders a).hasFormatter = false then
        { s.appenders a with formatter := val }
      else s.appenders a := by
  simp [State.setFormatter]

/-- The appenders that follow the logger are set, and no other logger has them. -/
theorem keeps_setFormatter (hs : Sound s) (hi : Inherits s) (l : Fin n)
    (val : Option FormatterPtr) :
    Keeps s (s.setFormatter l val) (Allowed s (.setFormatter l val)) := by
  have happenders : ∀ l', ((s.setFormatter l val).loggers l').appenders = (s.loggers l').appenders := by
    intro l'
    rw [setFormatter_logger]
    split
    · rename_i hl
      rw [hl]
    · rfl
  have howned : ∀ a, (s.appenders a).hasFormatter = true →
      (s.setFormatter l val).appenders a = s.appenders a := by
    intro a ha
    rw [setFormatter_appender, if_neg (by simp [ha])]
  constructor
  · constructor
    · intro l₁ l₂ a h₁ h₂
      rw [happenders] at h₁ h₂
      exact hs.exclusive l₁ l₂ a h₁ h₂
    · intro a ha
      by_cases hown : (s.appenders a).hasFormatter = true
      · rw [howned a hown]
        exact hs.owned a hown
      · rw [setFormatter_appender] at ha
        split at ha
        · exact absurd ha hown
        · exact absurd ha hown
  · constructor
    · intro h
      by_cases hval : val = none
      · refine Or.inr fun a ha => ?_
        by_cases hown : (s.appenders a).hasFormatter = true
        · exact hown
        · have hnull := (h l a (by rwa [happenders])).1
          rw [setFormatter_appender, if_pos ⟨ha, Bool.eq_false_iff.mpr hown⟩] at hnull
          exact absurd hval hnull
      · exact Or.inl hval
    · intro hallowed l' a ha
      rw [happenders] at ha
      by_cases hown : (s.appenders a).hasFormatter = true
      · rw [howned a hown]
        exact ⟨(hi l' a ha).1, fun hfalse => absurd (hown.symm.trans hfalse) (by decide)⟩
      · rw [setFormatter_logger, setFormatter_appender]
        by_cases hl : l' = l
        · subst l'
          have hval := hallowed.resolve_right fun hall => hown (hall a ha)
          rw [if_pos rfl, if_pos ⟨ha, Bool.eq_false_iff.mpr hown⟩]
          exact ⟨hval, fun _ => rfl⟩
        · have hother : a ∉ (s.loggers l).appenders := fun hmem => hl (hs.exclusive l' l a ha hmem)
          rw [if_neg hl, if_neg (fun hand => hother hand.1)]
          exact hi l' a ha

theorem keeps_setPattern (hs : Sound s) (hi : Inherits s) (l : Fin n) (address : Nat) (val : Text) :
    Keeps s (s.setPattern l address val) True := by
  unfold State.setPattern
  dsimp only
  split
  · exact ⟨hs, iff_of_true hi trivial⟩
  · have h := keeps_setFormatter hs hi l (some ⟨address, LogFormatter.create val⟩)
    exact ⟨h.sound, iff_of_true (h.inherits.mpr (Or.inl (Option.some_ne_none _))) trivial⟩

theorem setAppenderFormatter_appender (a a' : Fin m) (val : Option FormatterPtr) :
    (s.setAppenderFormatter a val).appenders a' =
      if a' = a then { s.appenders a with formatter := val, hasFormatter := val.isSome }
      else s.appenders a' :=
  Function.update_apply ..

theorem keeps_setAppenderFormatter (hs : Sound s) (hi : Inherits s) (a : Fin m)
    (val : Option FormatterPtr) :
    Keeps s (s.setAppenderFormatter a val) (Allowed s (.setAppenderFormatter a val)) := by
  constructor
  · constructor
    · exact hs.exclusive
    · intro a' ha'
      rw [setAppenderFormatter_appender] at ha' ⊢
      split at ha'
      · rename_i heq
        rw [if_pos heq]
        exact Option.isSome_iff_ne_none.mp ha'
      · rename_i hne
        rw [if_neg hne]
        exact hs.owned a' ha'
  · constructor
    · intro h
      by_cases hval : val = none
      · refine Or.inr fun l ha => ?_
        have hnull := (h l a ha).1
        rw [setAppenderFormatter_appender, if_pos rfl] at hnull
        exact hnull hval
      · exact Or.inl hval
    · intro hallowed l a' ha'
      rw [setAppenderFormatter_appender]
      split
      · rename_i heq
        subst a'
        have hval := hallowed.resolve_right fun hall => hall l ha'
        refine ⟨hval, fun hfalse => ?_⟩
        have hsome := Option.isSome_iff_ne_none.mpr hval
        exact absurd (hsome.symm.trans hfalse) (by decide)
      · exact hi l a' ha'

theorem addAppender_logger (l l' : Fin n) (a : Fin m) :
    (s.addAppender l a).loggers l' =
      if l' = l then { s.loggers l with appenders := (s.loggers l).appenders ++ [a] }
      else s.loggers l' :=
  Function.update_apply ..

theorem addAppender_appender (l : Fin n) (a a' : Fin m) :
    (s.addAppender l a).appenders a' =
      if a' = a then
        if (s.appenders a).formatter = none then
          { s.appenders a with formatter := (s.loggers l).formatter }
        else s.appenders a
      else s.appenders a' := by
  unfold State.addAppender
  dsimp only
  rw [Function.update_apply]
  simp only [Option.isNone_iff_eq_none]

theorem addAppender_mem {l l' : Fin n} {a a' : Fin m} :
    a' ∈ ((s.addAppender l a).loggers l').appenders ↔
      a' ∈ (s.loggers l').appenders ∨ l' = l ∧ a' = a := by
  rw [addAppender_logger]
  by_cases hl : l' = l
  · subst l'
    simp
  · simp [hl]

/-- What the added appender promises to its logger. -/
theorem inherited_added (hs : Sound s) (l : Fin n) (a : Fin m) :
    Inherited (s.loggers l).formatter ((s.addAppender l a).appenders a) ↔
      Allowed s (.addAppender l a) := by
  rw [addAppender_appender, if_pos rfl]
  unfold Allowed Inherited
  by_cases hown : (s.appenders a).hasFormatter = true
  · rw [if_neg (hs.owned a hown)]
    apply iff_of_true ?_ (Or.inl hown)
    exact ⟨hs.owned a hown, fun hfalse => absurd (hown.symm.trans hfalse) (by decide)⟩
  · by_cases hnone : (s.appenders a).formatter = none
    · rw [if_pos hnone]
      simp [hown, hnone]
    · rw [if_neg hnone]
      simp only [Bool.eq_false_iff.mpr hown, hnone, ne_eq, not_false_eq_true, true_and,
        forall_const, Bool.false_eq_true, false_or]
      constructor
      · intro heq
        exact ⟨heq ▸ hnone, heq⟩
      · exact And.right

theorem keeps_addAppender (hs : Sound s) (hi : Inherits s) {l : Fin n} {a : Fin m}
    (henabled : Enabled s (.addAppender l a)) :
    Keeps s (s.addAppender l a) (Allowed s (.addAppender l a)) := by
  have hformatter : ∀ l', ((s.addAppender l a).loggers l').formatter = (s.loggers l').formatter := by
    intro l'
    rw [addAppender_logger]
    split
    · rename_i hl
      rw [hl]
    · rfl
  have honly : ∀ l', a ∈ (s.loggers l').appenders → l' = l := by
    intro l' ha
    by_cases hl : l' = l
    · exact hl
    · exact absurd ha (henabled l' hl)
  have hlogger : ∀ l', a ∈ ((s.addAppender l a).loggers l').appenders → l' = l := by
    intro l' ha
    rw [addAppender_mem] at ha
    obtain ha | ha := ha
    · exact honly l' ha
    · exact ha.1
  constructor
  · constructor
    · intro l₁ l₂ a' h₁ h₂
      by_cases ha : a' = a
      · subst a'
        rw [hlogger l₁ h₁, hlogger l₂ h₂]
      · rw [addAppender_mem] at h₁ h₂
        simp only [ha, and_false, or_false] at h₁ h₂
        exact hs.exclusive l₁ l₂ a' h₁ h₂
    · intro a' ha'
      rw [addAppender_appender] at ha' ⊢
      by_cases ha : a' = a
      · subst a'
        rw [if_pos rfl] at ha' ⊢
        by_cases hnone : (s.appenders a).formatter = none
        · rw [if_pos hnone] at ha'
          exact absurd hnone (hs.owned a ha')
        · rwa [if_neg hnone]
      · rw [if_neg ha] at ha' ⊢
        exact hs.owned a' ha'
  · rw [← inherited_added hs l a]
    constructor
    · intro h
      have hadded := h l a (addAppender_mem.mpr (Or.inr ⟨rfl, rfl⟩))
      rwa [hformatter] at hadded
    · intro hadded l' a' ha'
      rw [hformatter]
      by_cases ha : a' = a
      · subst a'
        rw [hlogger l' ha']
        exact hadded
      · rw [addAppender_mem] at ha'
        simp only [ha, and_false, or_false] at ha'
        rw [addAppender_appender, if_neg ha]
        exact hi l' a' ha'

theorem keeps_call (hs : Sound s) (hi : Inherits s) (c : Call n m) (henabled : Enabled s c) :
    Keeps s (call s c) (Allowed s c) := by
  cases c with
  | addAppender l a => exact keeps_addAppender hs hi henabled
  | delAppender l a => exact keeps_fewer hs hi l List.erase_subset
  | clearAppenders l => exact keeps_fewer hs hi l (List.nil_subset _)
  | setFormatter l val => exact keeps_setFormatter hs hi l val
  | setPattern l address val => exact keeps_setPattern hs hi l address val
  | setAppenderFormatter a val => exact keeps_setAppenderFormatter hs hi a val

end Calls

section Runs

/-- The formatters are in place, and no call of `log` goes through a null pointer. -/
def Holds (s : State n m) : Prop := Inherits s ∧ LogSafe s

theorem init_sound {s : State n m} (h : (machine n m).init s) : Sound s ∧ Inherits s := by
  have hnone : ∀ l a, a ∉ (s.loggers l).appenders := by
    intro l a ha
    obtain ⟨_, _, hempty⟩ := h.1 l
    rw [hempty] at ha
    cases ha
  refine ⟨⟨?_, ?_⟩, ?_⟩
  · intro l l' a ha
    exact absurd ha (hnone l a)
  · intro a ha
    rw [(h.2 a).1] at ha
    cases ha
  · intro l a ha
    exact absurd ha (hnone l a)

theorem step_call {s t : State n m} {c : Call n m} (h : (machine n m).step s c = some t) :
    Enabled s c ∧ t = call s c := by
  change (if Enabled s c then some (call s c) else none) = some t at h
  split at h
  · rename_i henabled
    exact ⟨henabled, (Option.some.inj h).symm⟩
  · cases h

/-- The formatters are in place throughout exactly the runs whose calls are all allowed. -/
theorem always_holds_iff {s t : State n m} {cs : List (Call n m)} (hinit : (machine n m).init s)
    (hexec : (machine n m).exec s cs = some t) :
    (machine n m).Always Holds s cs ↔ (machine n m).Meets Allowed s cs := by
  apply Machine.always_iff_meets (I := fun s => Sound s ∧ Inherits s) ?_ ?_ ?_ (init_sound hinit) hexec
  · intro s h
    exact ⟨h.2, h.2.logSafe⟩
  · intro s c t h hallowed hstep
    obtain ⟨henabled, rfl⟩ := step_call hstep
    have hkeeps := keeps_call h.1 h.2 c henabled
    exact ⟨hkeeps.sound, hkeeps.inherits.mpr hallowed⟩
  · intro s c t h hnot hstep hholds
    obtain ⟨henabled, rfl⟩ := step_call hstep
    exact hnot ((keeps_call h.1 h.2 c henabled).inherits.mp hholds.1)

/-- Two loggers and some appenders, as they are made. -/
def start (m : Nat) : State 2 m where
  loggers l := { formatter := some ⟨l, LogFormatter.create defaultPattern⟩ }
  appenders _ := {}

theorem start_init (m : Nat) : (machine 2 m).init (start m) :=
  ⟨fun l => ⟨l, rfl, rfl⟩, fun _ => ⟨rfl, rfl⟩⟩

/-- Appenders that follow their loggers and one that has its own formatter, a pattern with an error,
a null pointer while all have their own, and appenders that are given up and added again. -/
def severalCalls : List (Call 2 3) :=
  [.addAppender 0 0, .setAppenderFormatter 1 (some ⟨9, LogFormatter.create (text "%m%n")⟩),
    .addAppender 0 1, .setPattern 0 7 (text "%d %m"), .addAppender 1 2, .setPattern 1 8 (text "%%"),
    .setFormatter 1 (some ⟨10, LogFormatter.create (text "%p")⟩), .delAppender 0 0,
    .setFormatter 0 none, .clearAppenders 0, .setAppenderFormatter 0 none, .addAppender 1 0]

theorem always_holds_severalCalls : (machine 2 3).Always Holds (start 3) severalCalls := by
  obtain ⟨t, ht⟩ := Option.isSome_iff_exists.mp
    (by decide +kernel : ((machine 2 3).execUnder Allowed (start 3) severalCalls).isSome = true)
  obtain ⟨hmeets, hexec⟩ := Machine.meets_of_execUnder ht
  exact (always_holds_iff (start_init 3) hexec).mpr hmeets

/-- An appender that is attached loses its formatter, and one that moves to another logger keeps the
formatter of the first. -/
theorem attached_loses_formatter :
    ¬(machine 2 1).Always Holds (start 1) [.addAppender 0 0, .setAppenderFormatter 0 none] ∧
      ¬(machine 2 1).Always Holds (start 1)
        [.addAppender 0 0, .delAppender 0 0, .addAppender 1 0] := by
  constructor
  · intro h
    have hholds := (h.2 _ rfl).2 _ rfl
    exact (hholds.1 0 0 List.mem_cons_self).1 rfl
  · intro h
    have hholds := ((h.2 _ rfl).2 _ rfl).2 _ rfl
    have hsame := (hholds.1 1 0 List.mem_cons_self).2 rfl
    have haddress : some 0 = some 1 := congrArg (Option.map FormatterPtr.address) hsame
    exact absurd haddress (by decide)

end Runs

end HxSylar.LogInheritance
