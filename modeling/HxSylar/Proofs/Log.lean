import Mathlib.Data.List.Nodup
import HxSylar.Log

namespace HxSylar
open Lib

namespace LogDefines
variable {s : LogDefines} {d e : LogDefine}

theorem find_some (h : s.find d = some e) : e ∈ s.defs ∧ e.name = d.name := by
  refine ⟨List.mem_of_find?_eq_some h, ?_⟩
  have hp := List.find?_some h
  simp only [Bool.and_eq_true, Bool.not_eq_eq_eq_not, Bool.not_true, decide_eq_false_iff_not] at hp
  exact List.le_antisymm hp.2 hp.1

theorem names_nodup (s : LogDefines) : (s.defs.map LogDefine.name).Nodup := by
  rw [List.Nodup, List.pairwise_map]
  apply s.sorted.imp
  intro d e hlt he
  rw [he] at hlt
  exact List.lt_irrefl _ hlt

theorem find_isSome_iff : (s.find d).isSome ↔ ∃ e ∈ s.defs, e.name = d.name := by
  constructor
  · intro h
    obtain ⟨e, he⟩ := Option.isSome_iff_exists.mp h
    exact ⟨e, find_some he⟩
  · rintro ⟨e, he, hname⟩
    rw [find, List.find?_isSome]
    refine ⟨e, he, ?_⟩
    simp [hname, List.lt_irrefl]

/-- Two sets that `==` calls equal have the same names, and equal definitions under them. -/
theorem eq_spec {t : LogDefines} (h : s.eq t = true) :
    (∀ d ∈ s.defs, ∃ e ∈ t.defs, d.eq e = true) ∧ ∀ e ∈ t.defs, ∃ d ∈ s.defs, d.eq e = true := by
  simp only [LogDefines.eq, Bool.and_eq_true, beq_iff_eq, List.all_eq_true] at h
  obtain ⟨hlen, hall⟩ := h
  have hat : ∀ i (hs : i < s.defs.length) (ht : i < t.defs.length),
      (s.defs[i]).eq t.defs[i] = true := by
    intro i hs ht
    refine hall (s.defs[i], t.defs[i]) (List.mem_iff_getElem.mpr ⟨i, ?_, List.getElem_zip⟩)
    rw [List.length_zip]
    omega
  constructor
  · intro d hd
    obtain ⟨i, hi, rfl⟩ := List.mem_iff_getElem.mp hd
    exact ⟨t.defs[i], List.getElem_mem _, hat i hi (by omega)⟩
  · intro e he
    obtain ⟨i, hi, rfl⟩ := List.mem_iff_getElem.mp he
    exact ⟨s.defs[i], List.getElem_mem _, hat i (by omega) hi⟩

end LogDefines

theorem LogDefine.eq_iff {d e : LogDefine} :
    d.eq e = true ↔ d.name = e.name ∧ d.level = e.level ∧ d.formatter = e.formatter := by
  simp [LogDefine.eq, and_assoc]

/-- The file of an appender counts only when it writes to one. -/
def LogAppenderDefine.used (a : LogAppenderDefine) : LogAppenderDefine :=
  if a.type = 1 then a else { a with file := [] }

/-- Every pattern of the definition can be parsed. -/
def LogDefine.Valid (d : LogDefine) : Prop :=
  (d.formatter ≠ [] → (LogFormatter.create d.formatter).isError = false) ∧
    ∀ a ∈ d.appenders, a.formatter ≠ [] → (LogFormatter.create a.formatter).isError = false

instance (d : LogDefine) : Decidable d.Valid := by
  unfold LogDefine.Valid
  infer_instance

namespace LogIniter

theorem appender_used (a : LogAppenderDefine) : appender a.used = appender a := by
  by_cases h : a.type = 1
  · rw [LogAppenderDefine.used, if_pos h]
  · simp [LogAppenderDefine.used, appender, h]

/-- The appenders of a definition, without what they do not use. -/
theorem mapM_appender_used (as : List LogAppenderDefine) :
    (as.map LogAppenderDefine.used).mapM appender = as.mapM appender := by
  induction as with
  | nil => rfl
  | cons a as ih => simp only [List.map_cons, List.mapM_cons, appender_used, ih]

/-- A definition leaves nothing of the logger but its name, and its formatter if it has none of
its own. -/
theorem define_eq {d : LogDefine} {l : Logger} (hname : l.name = d.name) (hvalid : d.Valid)
    (hfmt : d.formatter = [] → l.formatter = LogFormatter.create defaultPattern) :
    define d l = define d { name := d.name } := by
  by_cases hd : d.formatter = []
  · simp only [define, hd, ne_eq, not_true_eq_false, ↓reduceIte, Logger.clearAppenders, hname,
      hfmt hd]
  · have herr := hvalid.1 hd
    simp only [define, ne_eq, hd, not_false_eq_true, ↓reduceIte, Logger.setFormatter, herr,
      Bool.false_eq_true, Logger.setFormatterPtr, Logger.clearAppenders, hname]

/-- Definitions that `==` calls equal and that use the same appenders do the same. -/
theorem define_congr {d e : LogDefine} {l : Logger} (heq : d.eq e = true)
    (hused : d.appenders.map LogAppenderDefine.used = e.appenders.map LogAppenderDefine.used) :
    define d l = define e l := by
  obtain ⟨_, hlevel, hfmt⟩ := LogDefine.eq_iff.mp heq
  have hmap : d.appenders.mapM appender = e.appenders.mapM appender := by
    rw [← mapM_appender_used, hused, mapM_appender_used]
  simp only [define, hlevel, hfmt, hmap]

theorem define_isSome (d : LogDefine) (l : Logger) :
    (define d l).isSome = (d.appenders.mapM appender).isSome := by
  simp [define]

theorem foldl_addAppender_name (as : List LogAppender) (l : Logger) :
    (as.foldl Logger.addAppender l).name = l.name := by
  induction as generalizing l with
  | nil => rfl
  | cons a as ih => rw [List.foldl_cons, ih]; rfl

theorem define_name {d : LogDefine} {l l' : Logger} (h : define d l = some l') :
    l'.name = l.name := by
  obtain ⟨as, _, he⟩ := Option.map_eq_some_iff.mp h
  rw [← he, foldl_addAppender_name]
  simp only [Logger.clearAppenders]
  split
  · rw [Logger.setFormatter]
    split <;> rfl
  · rfl

/-- A definition that the listener passes over. -/
def Skips (old : LogDefines) (d : LogDefine) : Prop := ∃ e ∈ old.defs, d.eq e = true

theorem skips_iff {old : LogDefines} {d : LogDefine} :
    (old.find d).any (fun e => d.eq e) = true ↔ Skips old d := by
  rw [Option.any_eq_true]
  constructor
  · rintro ⟨e, he, heq⟩
    exact ⟨e, (LogDefines.find_some he).1, heq⟩
  · rintro ⟨e, he, heq⟩
    have hname := (LogDefine.eq_iff.mp heq).1
    obtain ⟨e', he'⟩ := Option.isSome_iff_exists.mp
      (LogDefines.find_isSome_iff.mpr ⟨e, he, hname.symm⟩)
    obtain ⟨hmem, hname'⟩ := LogDefines.find_some he'
    have hsame : e' = e :=
      List.inj_on_of_nodup_map old.names_nodup hmem he (hname'.trans hname)
    exact ⟨e', he', hsame ▸ heq⟩

/-- Each logger goes by the name it is kept under. -/
def Named (m : LoggerManager) : Prop := ∀ n l, m.loggers n = some l → l.name = n

theorem Named.getLogger {m : LoggerManager} (h : Named m) (n : Text) :
    (m.getLogger n).name = n := by
  rw [LoggerManager.getLogger]
  cases hl : m.loggers n with
  | none => rfl
  | some l => exact h n l hl

theorem Named.modify {m : LoggerManager} (h : Named m) {n : Text} {f : Logger → Logger}
    (hf : (f (m.getLogger n)).name = n) : Named (m.modify n f) := by
  intro n' l hl
  simp only [LoggerManager.modify, Function.update_apply] at hl
  split at hl
  · rename_i he
    cases hl
    rw [hf, he]
  · exact h n' l hl

/-- The first loop: every definition that is not passed over acts on its own logger. -/
structure Defined (old : LogDefines) (ds : List LogDefine) (m m' : LoggerManager) : Prop where
  named : Named m'
  others : ∀ n, (∀ d ∈ ds, d.name ≠ n) → m'.loggers n = m.loggers n
  skipped : ∀ d ∈ ds, Skips old d → m'.loggers d.name = m.loggers d.name
  acted : ∀ d ∈ ds, ¬Skips old d →
    ∃ l, define d (m.getLogger d.name) = some l ∧ m'.loggers d.name = some l

theorem defineAll_spec {old : LogDefines} {ds : List LogDefine} {m m' : LoggerManager}
    (hn : Named m) (hnodup : (ds.map LogDefine.name).Nodup) (h : defineAll old ds m = some m') :
    Defined old ds m m' := by
  induction ds generalizing m with
  | nil =>
    cases h
    exact ⟨hn, fun _ _ => rfl, fun _ hd => by simp at hd, fun _ hd => by simp at hd⟩
  | cons d ds ih =>
    simp only [List.map_cons, List.nodup_cons, List.mem_map, not_exists, not_and] at hnodup
    obtain ⟨hfresh, hnodup⟩ := hnodup
    have hother : ∀ e ∈ ds, e.name ≠ d.name := hfresh
    simp only [defineAll] at h
    split at h
    · rename_i hskip
      have hrest := ih hn hnodup h
      have hsame := hrest.others d.name hother
      refine ⟨hrest.named, ?_, ?_, ?_⟩
      · intro n hne
        exact hrest.others n (fun e he => hne e (List.mem_cons_of_mem _ he))
      · intro e he hs
        rcases List.mem_cons.mp he with rfl | he
        · exact hsame
        · exact hrest.skipped e he hs
      · intro e he hs
        rcases List.mem_cons.mp he with rfl | he
        · exact absurd (skips_iff.mp hskip) hs
        · exact hrest.acted e he hs
    · rename_i hskip
      obtain ⟨l, hl, h⟩ := Option.bind_eq_some_iff.mp h
      have hname : l.name = d.name := (define_name hl).trans (hn.getLogger d.name)
      have hrest := ih (hn.modify hname) hnodup h
      have hkept : ∀ n, n ≠ d.name → (m.modify d.name (fun _ => l)).loggers n = m.loggers n := by
        intro n hne
        simp only [LoggerManager.modify, Function.update_of_ne hne]
      have hget : ∀ e ∈ ds, (m.modify d.name (fun _ => l)).getLogger e.name = m.getLogger e.name := by
        intro e he
        simp only [LoggerManager.getLogger, hkept e.name (hother e he)]
      have hnow := hrest.others d.name hother
      refine ⟨hrest.named, ?_, ?_, ?_⟩
      · intro n hne
        rw [hrest.others n (fun e he => hne e (List.mem_cons_of_mem _ he)),
          hkept n (fun he => hne d List.mem_cons_self he.symm)]
      · intro e he hs
        rcases List.mem_cons.mp he with rfl | he
        · exact absurd (skips_iff.mpr hs) hskip
        · rw [hrest.skipped e he hs, hkept e.name (hother e he)]
      · intro e he hs
        rcases List.mem_cons.mp he with rfl | he
        · exact ⟨l, hl, by simpa [LoggerManager.modify] using hnow⟩
        · rw [← hget e he]
          exact hrest.acted e he hs

/-- The first loop gets through if every appender can be made. -/
theorem defineAll_isSome (old : LogDefines) {ds : List LogDefine} (m : LoggerManager)
    (h : ∀ d ∈ ds, (d.appenders.mapM appender).isSome) : (defineAll old ds m).isSome := by
  induction ds generalizing m with
  | nil => rfl
  | cons d ds ih =>
    have hrest := fun m => ih m (fun e he => h e (List.mem_cons_of_mem _ he))
    simp only [defineAll]
    split
    · exact hrest m
    · have hd := h d List.mem_cons_self
      rw [← define_isSome d (m.getLogger d.name)] at hd
      obtain ⟨l, hl⟩ := Option.isSome_iff_exists.mp hd
      rw [hl]
      exact hrest _

/-- The second loop: the loggers of definitions that are gone lose their appenders. -/
structure Removed (new : LogDefines) (ds : List LogDefine) (m m' : LoggerManager) : Prop where
  named : Named m'
  others : ∀ n, (∀ d ∈ ds, d.name = n → (new.find d).isSome) → m'.loggers n = m.loggers n
  gone : ∀ d ∈ ds, ¬(new.find d).isSome → ∀ l ∈ m'.loggers d.name, l.appenders = []

theorem removeAll_spec (new : LogDefines) (ds : List LogDefine) {m : LoggerManager}
    (hn : Named m) : Removed new ds m (removeAll new ds m) := by
  induction ds generalizing m with
  | nil => exact ⟨hn, fun _ _ => rfl, fun _ hd => by simp at hd⟩
  | cons d ds ih =>
    simp only [removeAll]
    split
    · rename_i hfound
      have hrest := ih hn
      refine ⟨hrest.named, ?_, ?_⟩
      · intro n hne
        exact hrest.others n (fun e he => hne e (List.mem_cons_of_mem _ he))
      · intro e he hgone
        rcases List.mem_cons.mp he with rfl | he
        · exact absurd hfound hgone
        · exact hrest.gone e he hgone
    · rename_i hgone
      generalize hm' : m.modify d.name (fun l => { l with level := .unknow }.clearAppenders) = m₁
      have hn₁ : Named m₁ := by
        rw [← hm']
        exact hn.modify (hn.getLogger d.name)
      have hrest := ih hn₁
      have hkept : ∀ n, n ≠ d.name → m₁.loggers n = m.loggers n := by
        intro n hne
        rw [← hm']
        simp only [LoggerManager.modify, Function.update_of_ne hne]
      refine ⟨hrest.named, ?_, ?_⟩
      · intro n hne
        have hnd : n ≠ d.name := fun he => hgone (hne d List.mem_cons_self he.symm)
        rw [hrest.others n (fun e he => hne e (List.mem_cons_of_mem _ he)), hkept n hnd]
      · intro e he hg
        -- a later definition of the same name finds the logger cleared already
        by_cases hlater : ∃ e' ∈ ds, e'.name = e.name ∧ ¬(new.find e').isSome
        · obtain ⟨e', he', hname, hg'⟩ := hlater
          rw [← hname]
          exact hrest.gone e' he' hg'
        · rcases List.mem_cons.mp he with rfl | he
          · intro l hl
            rw [hrest.others e.name (fun e' he' hname =>
              Classical.byContradiction (fun hg' => hlater ⟨e', he', hname, hg'⟩)), ← hm'] at hl
            simp only [LoggerManager.modify, Function.update_self, Option.mem_def,
              Option.some.injEq] at hl
            rw [← hl]
            rfl
          · exact absurd ⟨e, he, rfl, hg⟩ hlater

end LogIniter

namespace Logging
open LogIniter

/-- What an assignment must not do: give other appenders to a definition that `operator==` does
not tell from the present one, or rely on a formatter that was changed to be the default again. -/
def Stable (s : Logging) (v : LogDefines) : Prop :=
  (∀ d ∈ v.defs, ∀ e ∈ s.logs.val.defs, d.eq e = true →
    d.appenders.map LogAppenderDefine.used = e.appenders.map LogAppenderDefine.used) ∧
  ∀ d ∈ v.defs, d.formatter = [] →
    (s.manager.getLogger d.name).formatter = LogFormatter.create defaultPattern

instance (s : Logging) (v : LogDefines) : Decidable (Stable s v) := by
  unfold Stable
  infer_instance

/-- The loggers are as the present value says, for the names that occurred so far. -/
structure Settled (s : Logging) (named : Text → Prop) : Prop where
  listener : s.logs.cbs = [1]
  names : Named s.manager
  defined : ∀ e ∈ s.logs.val.defs,
    ∃ l, define e { name := e.name } = some l ∧ s.manager.loggers e.name = some l
  removed : ∀ n, named n → (∀ e ∈ s.logs.val.defs, e.name ≠ n) →
    ∀ l ∈ s.manager.loggers n, l.appenders = []

/-- The loggers are as this value says. -/
structure Matches (s : Logging) (v : LogDefines) : Prop where
  names : ∀ n, (∃ d ∈ v.defs, d.name = n) ↔ ∃ e ∈ s.logs.val.defs, e.name = n
  defined : ∀ d ∈ v.defs,
    ∃ l, define d { name := d.name } = some l ∧ s.manager.loggers d.name = some l

section Steps
variable {s t : Logging} {v : LogDefines} {named : Text → Prop}

theorem setValue_cases (hone : s.logs.cbs = [1]) (h : s.setValue v = some t) :
    (v.eq s.logs.val = true ∧ t = s) ∨
      ∃ m, onChange s.logs.val v s.manager = some m ∧
        t = { manager := m, logs := { s.logs with val := v } } := by
  simp only [Logging.setValue, ConfigVar.setValue, ConfigVar.notify, hone] at h
  cases heq : v == s.logs.val with
  | true =>
    simp only [heq, ↓reduceIte, List.foldlM_nil, Option.pure_def, Option.map_some,
      Option.some.injEq] at h
    exact .inl ⟨heq, h.symm⟩
  | false =>
    simp only [heq, Bool.false_eq_true, ↓reduceIte, List.map_cons, List.map_nil, List.foldlM_cons,
      List.foldlM_nil, Option.pure_def, Option.bind_eq_bind, Option.bind_fun_some] at h
    obtain ⟨m, hm, ht⟩ := Option.map_eq_some_iff.mp h
    exact .inr ⟨m, hm, ht.symm⟩

/-- The assignment that `operator==` holds for one of the present value. -/
theorem Settled.unchanged (h : Settled s named) (hstable : Stable s v)
    (heq : v.eq s.logs.val = true) :
    Settled s (fun n => named n ∨ ∃ d ∈ v.defs, d.name = n) ∧ Matches s v := by
  obtain ⟨hto, hfrom⟩ := LogDefines.eq_spec heq
  have hnames : ∀ n, (∃ d ∈ v.defs, d.name = n) ↔ ∃ e ∈ s.logs.val.defs, e.name = n := by
    intro n
    constructor
    · rintro ⟨d, hd, rfl⟩
      obtain ⟨e, he, hde⟩ := hto d hd
      exact ⟨e, he, (LogDefine.eq_iff.mp hde).1.symm⟩
    · rintro ⟨e, he, rfl⟩
      obtain ⟨d, hd, hde⟩ := hfrom e he
      exact ⟨d, hd, (LogDefine.eq_iff.mp hde).1⟩
  refine ⟨⟨h.listener, h.names, h.defined, ?_⟩, hnames, ?_⟩
  · rintro n (hn | hn) hout
    · exact h.removed n hn hout
    · obtain ⟨e, he, hname⟩ := (hnames n).mp hn
      exact absurd hname (hout e he)
  · intro d hd
    obtain ⟨e, he, hde⟩ := hto d hd
    obtain ⟨l, hl, hlog⟩ := h.defined e he
    have hname := (LogDefine.eq_iff.mp hde).1
    refine ⟨l, ?_, by rw [hname]; exact hlog⟩
    rw [define_congr hde (hstable.1 d hd e he hde), hname]
    exact hl

/-- The assignment that runs the listener. -/
theorem Settled.changed (h : Settled s named) (hvalid : ∀ d ∈ v.defs, d.Valid)
    (hstable : Stable s v) {m : LoggerManager} (hm : onChange s.logs.val v s.manager = some m)
    (ht : t = { manager := m, logs := { s.logs with val := v } }) :
    Settled t (fun n => named n ∨ ∃ d ∈ v.defs, d.name = n) ∧ Matches t v := by
  obtain ⟨m₁, hm₁, hm⟩ := Option.map_eq_some_iff.mp hm
  have hdef := defineAll_spec h.names v.names_nodup hm₁
  have hrem := removeAll_spec v s.logs.val.defs hdef.named
  rw [hm] at hrem
  have hdefined : ∀ d ∈ v.defs,
      ∃ l, define d { name := d.name } = some l ∧ m.loggers d.name = some l := by
    intro d hd
    have hkept : m.loggers d.name = m₁.loggers d.name := by
      apply hrem.others
      intro e _ hname
      exact LogDefines.find_isSome_iff.mpr ⟨d, hd, hname.symm⟩
    rw [hkept]
    by_cases hskip : Skips s.logs.val d
    · obtain ⟨e, he, hde⟩ := hskip
      obtain ⟨l, hl, hlog⟩ := h.defined e he
      have hname := (LogDefine.eq_iff.mp hde).1
      refine ⟨l, ?_, ?_⟩
      · rw [define_congr hde (hstable.1 d hd e he hde), hname]
        exact hl
      · rw [hdef.skipped d hd ⟨e, he, hde⟩, hname]
        exact hlog
    · obtain ⟨l, hl, hlog⟩ := hdef.acted d hd hskip
      refine ⟨l, ?_, hlog⟩
      rw [← define_eq (h.names.getLogger d.name) (hvalid d hd) (hstable.2 d hd)]
      exact hl
  rw [ht]
  refine ⟨⟨h.listener, hrem.named, hdefined, ?_⟩, fun n => Iff.rfl, hdefined⟩
  rintro n (hn | ⟨d, hd, hname⟩) hout
  · by_cases hold : ∃ e ∈ s.logs.val.defs, e.name = n
    · obtain ⟨e, he, hname⟩ := hold
      rw [← hname]
      apply hrem.gone e he
      intro hfound
      obtain ⟨d, hd, hdn⟩ := LogDefines.find_isSome_iff.mp hfound
      exact hout d hd (hdn.trans hname)
    · have hne : ∀ e ∈ s.logs.val.defs, e.name ≠ n := fun e he hname => hold ⟨e, he, hname⟩
      have hkept : m.loggers n = s.manager.loggers n := by
        rw [hrem.others n (fun e he hname => absurd hname (hne e he)), hdef.others n hout]
      intro l hl
      exact h.removed n hn hne l (hkept ▸ hl)
  · exact absurd hname (hout d hd)

theorem Settled.step (h : Settled s named) (hvalid : ∀ d ∈ v.defs, d.Valid) (hstable : Stable s v)
    (hs : machine.step s v = some t) :
    Settled t (fun n => named n ∨ ∃ d ∈ v.defs, d.name = n) ∧ Matches t v := by
  rcases setValue_cases h.listener hs with ⟨heq, ht⟩ | ⟨m, hm, ht⟩
  · rw [ht]
    exact h.unchanged hstable heq
  · exact h.changed hvalid hstable hm ht

/-- Up to the last assignment of a run. -/
theorem Settled.run (h : Settled s named) {vs : List LogDefines}
    (hvalid : ∀ w ∈ vs ++ [v], ∀ d ∈ w.defs, d.Valid) (hrun : machine.exec s (vs ++ [v]) = some t)
    (hmeets : machine.Meets Stable s (vs ++ [v])) :
    ∃ named', (∀ n, named' n ↔ named n ∨ ∃ w ∈ vs ++ [v], ∃ d ∈ w.defs, d.name = n) ∧
      Settled t named' ∧ Matches t v := by
  induction vs generalizing s named with
  | nil =>
    obtain ⟨u, hu, he⟩ := Option.bind_eq_some_iff.mp hrun
    cases he
    obtain ⟨hsettled, hmatches⟩ := h.step (hvalid v (by simp)) hmeets.1 hu
    exact ⟨_, by simp, hsettled, hmatches⟩
  | cons w ws ih =>
    obtain ⟨u, hu, he⟩ := Option.bind_eq_some_iff.mp hrun
    obtain ⟨hsettled, _⟩ := h.step (hvalid w (by simp)) hmeets.1 hu
    obtain ⟨named', hnamed, hfinal⟩ := ih hsettled
      (fun w' hw' => hvalid w' (List.mem_cons_of_mem _ hw')) he (hmeets.2 u hu)
    refine ⟨named', fun n => ?_, hfinal⟩
    rw [hnamed]
    simp only [List.cons_append, List.mem_cons, or_assoc, exists_eq_or_imp]

theorem settled_start : Settled {} (fun _ => False) := by
  refine ⟨rfl, ?_, fun e he => by simp at he, fun n hn => hn.elim⟩
  intro n l hl
  simp only [LoggerManager.create, Function.update_apply] at hl
  split at hl
  · rename_i he
    cases hl
    rw [he]
    rfl
  · cases hl

theorem stable_start (v : LogDefines) : Stable {} v := by
  refine ⟨fun _ _ e he => by simp at he, ?_⟩
  intro d _ _
  simp only [LoggerManager.getLogger, LoggerManager.create, Function.update_apply]
  split <;> rfl

/-- A value whose appenders can be made can be assigned to new loggers. -/
theorem step_start_isSome (h : ∀ d ∈ v.defs, (d.appenders.mapM appender).isSome) :
    (machine.step {} v).isSome := by
  obtain ⟨m, hm⟩ := Option.isSome_iff_exists.mp
    (defineAll_isSome {} LoggerManager.create h)
  simp only [machine, Logging.setValue, ConfigVar.setValue, ConfigVar.notify]
  cases heq : v == ({} : LogDefines) with
  | true => simp
  | false => simp [onChange, hm]

/-- After the last of any sequence of assignments the loggers it names are as it alone would
have made them, and the other loggers of the sequence have no appenders. -/
theorem reload_converges {vs : List LogDefines}
    (hvalid : ∀ w ∈ vs ++ [v], ∀ d ∈ w.defs, d.Valid) (hrun : machine.exec {} (vs ++ [v]) = some t)
    (hmeets : machine.Meets Stable {} (vs ++ [v])) :
    (∃ fresh, machine.step {} v = some fresh ∧ ∀ d ∈ v.defs,
      ∃ l, t.manager.loggers d.name = some l ∧ fresh.manager.loggers d.name = some l) ∧
    ∀ w ∈ vs, ∀ d ∈ w.defs, (∀ e ∈ v.defs, e.name ≠ d.name) →
      ∀ l ∈ t.manager.loggers d.name, l.appenders = [] := by
  obtain ⟨named, hnamed, hsettled, hmatches⟩ := settled_start.run hvalid hrun hmeets
  constructor
  · have hmake : ∀ d ∈ v.defs, (d.appenders.mapM appender).isSome := by
      intro d hd
      obtain ⟨l, hl, _⟩ := hmatches.defined d hd
      rw [← define_isSome d { name := d.name }, hl]
      rfl
    obtain ⟨fresh, hfresh⟩ := Option.isSome_iff_exists.mp (step_start_isSome hmake)
    obtain ⟨_, halone⟩ := settled_start.step (hvalid v (by simp)) (stable_start v) hfresh
    refine ⟨fresh, hfresh, fun d hd => ?_⟩
    obtain ⟨l, hl, hlog⟩ := hmatches.defined d hd
    obtain ⟨l', hl', hlog'⟩ := halone.defined d hd
    rw [hl] at hl'
    cases hl'
    exact ⟨l, hlog, hlog'⟩
  · intro w hw d hd hout
    apply hsettled.removed
    · rw [hnamed]
      exact .inr ⟨w, List.mem_append_left _ hw, d, hd, rfl⟩
    · intro e he hname
      obtain ⟨d', hd', hname'⟩ := (hmatches.names d.name).mpr ⟨e, he, hname⟩
      exact hout d' hd' hname'

/-- One logger whose level changes and another that comes and goes. -/
theorem reload_after_change :
    let file : LogAppenderDefine := { type := 1, file := text "a.log" }
    let stdout : LogAppenderDefine := { type := 2, formatter := text "%m%n" }
    let v₁ : LogDefines := ⟨[{ name := text "root", level := .info, appenders := [stdout] },
      { name := text "system", formatter := text "%m", appenders := [file] }], by decide⟩
    let v₂ : LogDefines := ⟨[{ name := text "root", level := .warn, appenders := [file, stdout] }],
      by decide⟩
    ∃ t, machine.exec {} [v₁, v₂] = some t ∧
      (∃ fresh, machine.step {} v₂ = some fresh ∧ ∀ d ∈ v₂.defs,
        ∃ l, t.manager.loggers d.name = some l ∧ fresh.manager.loggers d.name = some l) ∧
      ∀ w ∈ [v₁], ∀ d ∈ w.defs, (∀ e ∈ v₂.defs, e.name ≠ d.name) →
        ∀ l ∈ t.manager.loggers d.name, l.appenders = [] := by
  intro file stdout v₁ v₂
  have hrun : (machine.execUnder Stable {} [v₁, v₂]).isSome := by decide
  obtain ⟨t, ht⟩ := Option.isSome_iff_exists.mp hrun
  obtain ⟨he, hm⟩ := Lib.Machine.execUnder_some ht
  have hvalid : ∀ w ∈ [v₁] ++ [v₂], ∀ d ∈ w.defs, d.Valid := by decide
  exact ⟨t, he, reload_converges hvalid he hm⟩

/-- The appenders of a logger change and nothing else does. -/
theorem reload_keeps_appenders :
    ¬∀ (vs : List LogDefines) (v : LogDefines) (t : Logging),
      (∀ w ∈ vs ++ [v], ∀ d ∈ w.defs, d.Valid) → machine.exec {} (vs ++ [v]) = some t →
      ∃ fresh, machine.step {} v = some fresh ∧ ∀ d ∈ v.defs,
        ∃ l, t.manager.loggers d.name = some l ∧ fresh.manager.loggers d.name = some l := by
  intro hall
  let before : LogDefines := ⟨[{ name := text "system", appenders := [{ type := 2 }] }], by decide⟩
  let after : LogDefines :=
    ⟨[{ name := text "system", appenders := [{ type := 1, file := text "a.log" }] }], by decide⟩
  have htargets : (machine.exec {} [before, after]).map (fun t =>
      (t.manager.loggers (text "system")).map (fun l => l.appenders.map LogAppender.target)) =
      some (some [.stdout]) := by decide
  have halone : (machine.step {} after).map (fun t =>
      (t.manager.loggers (text "system")).map (fun l => l.appenders.map LogAppender.target)) =
      some (some [.file (text "a.log")]) := by decide
  obtain ⟨t, ht, hkept⟩ := Option.map_eq_some_iff.mp htargets
  obtain ⟨fresh, hfresh, hsame⟩ := hall [before] after t (by decide) ht
  obtain ⟨l, hl, hl'⟩ := hsame _ List.mem_cons_self
  rw [hfresh, Option.map_some, Option.some.injEq, hl'] at halone
  rw [hl] at hkept
  rw [hkept] at halone
  exact absurd halone (by decide)

end Steps
end Logging
end HxSylar
