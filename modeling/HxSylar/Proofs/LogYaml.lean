import HxSylar.Lib.YamlFlow
import HxSylar.LogYaml

namespace HxSylar
open Lib

namespace LogLevel

theorem fromString_toString (level : LogLevel) : fromString level.toString = level := by
  cases level with
  | unknow => decide
  | debug => decide
  | info => decide
  | warn => decide
  | error => decide
  | fatal => decide

end LogLevel

namespace LogAppenderDefine

/-- An appender as a configuration can describe one: to a file, or to standard output. -/
def Configured (a : LogAppenderDefine) : Prop := a.type = 1 ∨ a.type = 2 ∧ a.file = []

instance (a : LogAppenderDefine) : Decidable a.Configured := inferInstanceAs (Decidable (_ ∨ _))

/-- The fields that the encoder writes. -/
def fields (a : LogAppenderDefine) : List (Text × Option YamlNode) :=
  [(text "type", some (.scalar (text (if a.type = 1 then "FileLogAppender"
      else "StdoutLogAppender")))),
    (text "file", if a.type = 1 then some (.scalar a.file) else none),
    (text "level", if a.level ≠ .unknow then some (.scalar a.level.toString) else none),
    (text "formatter", if a.formatter ≠ [] then some (.scalar a.formatter) else none)]

theorem fields_keys (a : LogAppenderDefine) :
    a.fields.map Prod.fst = [text "type", text "file", text "level", text "formatter"] := rfl

theorem fields_nodup (a : LogAppenderDefine) : (a.fields.map Prod.fst).Nodup := by
  rw [fields_keys]
  decide

theorem writeType_eq {a : LogAppenderDefine} (h : a.Configured) :
    a.writeType = some (.map (YamlNode.fields (a.fields.take 2))) := by
  rcases h with htype | ⟨htype, -⟩
  · rw [writeType, if_pos htype]
    simp only [fields, if_pos htype]
    rfl
  · have hne : ¬a.type = 1 := by omega
    rw [writeType, if_neg hne, if_pos htype]
    simp only [fields, if_neg hne]
    rfl

theorem write_eq {a : LogAppenderDefine} (h : a.Configured) :
    a.write = some (.map (YamlNode.fields a.fields)) := by
  have hlevel : text "level" ∉ (a.fields.take 2).map Prod.fst := by
    rw [List.map_take, fields_keys]
    decide
  have hformatter : text "formatter" ∉ (a.fields.take 3).map Prod.fst := by
    rw [List.map_take, fields_keys]
    decide
  rw [write, writeType_eq h]
  simp only [Option.bind_eq_bind, Option.bind_some, YamlNode.setIf_fields _ _ hlevel]
  exact YamlNode.setIf_fields _ _ hformatter

/-- What is read of a written appender: everything but its level. -/
theorem read_fields {a : LogAppenderDefine} (h : a.Configured) :
    read (some (.map (YamlNode.fields a.fields))) = some (some { a with level := .unknow }) := by
  have htype : YamlNode.getIn (some (.map (YamlNode.fields a.fields))) (text "type") =
      some (some (.scalar (text (if a.type = 1 then "FileLogAppender" else "StdoutLogAppender")))) :=
    YamlNode.get_fields a.fields_nodup (by simp [fields])
  have hfile : YamlNode.getIn (some (.map (YamlNode.fields a.fields))) (text "file") =
      some (if a.type = 1 then some (.scalar a.file) else none) :=
    YamlNode.get_fields a.fields_nodup (by simp [fields])
  have hformatter : YamlNode.stringOr (some (.map (YamlNode.fields a.fields))) (text "formatter") [] =
      some a.formatter :=
    YamlNode.stringOr_fields_nil a.fields_nodup (by simp [fields])
  rcases h with hone | ⟨htwo, hnil⟩
  · rw [if_pos hone] at htype hfile
    rw [read, htype]
    simp only [Option.bind_some, Option.isNone_some, Bool.false_eq_true, if_false, YamlNode.asString,
      if_true, hfile, hformatter, Option.bind_eq_bind, Option.pure_def, ← hone]
  · have hne : ¬a.type = 1 := by omega
    have hstdout : text "StdoutLogAppender" ≠ text "FileLogAppender" := by decide
    rw [if_neg hne] at htype
    rw [read, htype]
    simp only [Option.bind_some, Option.isNone_some, Bool.false_eq_true, if_false, YamlNode.asString,
      if_neg hstdout, if_true, hformatter, Option.bind_eq_bind, Option.pure_def, ← htwo, hnil]

end LogAppenderDefine

namespace LogDefine

/-- The fields that the encoder writes for configured appenders. -/
def fields (d : LogDefine) : List (Text × Option YamlNode) :=
  [(text "name", some (.scalar d.name)),
    (text "level", if d.level ≠ .unknow then some (.scalar d.level.toString) else none),
    (text "formatter", if d.formatter ≠ [] then some (.scalar d.formatter) else none),
    (text "appenders", if d.appenders = [] then none
      else some (.sequence (d.appenders.map (fun a => .map (YamlNode.fields a.fields)))))]

theorem fields_keys (d : LogDefine) :
    d.fields.map Prod.fst = [text "name", text "level", text "formatter", text "appenders"] := rfl

theorem fields_nodup (d : LogDefine) : (d.fields.map Prod.fst).Nodup := by
  rw [fields_keys]
  decide

theorem foldlM_write {as : List LogAppenderDefine} (h : ∀ a ∈ as, a.Configured) (n : YamlNode) :
    as.foldlM (fun n a => a.write.bind (n.pushBack (text "appenders"))) n =
      (as.map (fun a => YamlNode.map (YamlNode.fields a.fields))).foldlM
        (fun n v => n.pushBack (text "appenders") v) n := by
  induction as generalizing n with
  | nil => rfl
  | cons a as ih =>
    rw [List.forall_mem_cons] at h
    rw [List.foldlM_cons, List.map_cons, List.foldlM_cons, LogAppenderDefine.write_eq h.1,
      Option.bind_some]
    congr 1
    funext n'
    exact ih h.2 n'

theorem toString_eq (y : Yaml) {d : LogDefine} (h : ∀ a ∈ d.appenders, a.Configured) :
    d.toString y = some (y.emit (.map (YamlNode.fields d.fields))) := by
  have hlevel : text "level" ∉ (d.fields.take 1).map Prod.fst := by
    rw [List.map_take, fields_keys]
    decide
  have hformatter : text "formatter" ∉ (d.fields.take 2).map Prod.fst := by
    rw [List.map_take, fields_keys]
    decide
  have happenders : text "appenders" ∉ (d.fields.take 3).map Prod.fst := by
    rw [List.map_take, fields_keys]
    decide
  have hname : YamlNode.null.set (text "name") (.scalar d.name) =
      some (.map (YamlNode.fields (d.fields.take 1))) := rfl
  have hpush := YamlNode.foldlM_pushBack happenders
    (d.appenders.map (fun a => .map (YamlNode.fields a.fields)))
  rw [← foldlM_write h] at hpush
  simp only [List.map_eq_nil_iff] at hpush
  rw [toString, hname]
  simp only [Option.bind_eq_bind, Option.bind_some]
  refine (congrArg (fun n => Option.bind n _) (YamlNode.setIf_fields _ _ hlevel)).trans ?_
  refine (congrArg (fun n => Option.bind n _) (YamlNode.setIf_fields _ _ hformatter)).trans ?_
  exact congrArg (fun n => Option.bind n _) hpush

/-- The loop reads every appender of a sequence of them. -/
theorem readAppenders_sequence {as : List LogAppenderDefine} (h : ∀ a ∈ as, a.Configured) :
    readAppenders (some (.sequence (as.map (fun a => .map (YamlNode.fields a.fields))))) =
      some (as.map (fun a => { a with level := .unknow })) := by
  have hread : (as.map (fun a => YamlNode.map (YamlNode.fields a.fields))).mapM (fun n =>
      LogAppenderDefine.read (some n)) =
      some (as.map (fun a => some { a with level := .unknow })) := by
    induction as with
    | nil => rfl
    | cons a as ih =>
      rw [List.forall_mem_cons] at h
      rw [List.map_cons, List.mapM_cons, LogAppenderDefine.read_fields h.1, ih h.2]
      rfl
  rw [readAppenders, YamlNode.mapM_item, hread]
  simp only [Option.bind_eq_bind, Option.bind_some, Option.pure_def, List.filterMap_map,
    Option.some.injEq]
  exact congrFun List.filterMap_eq_map as

/-- What comes back of a definition: everything but the levels of its appenders. -/
theorem fromString_toString (y : Yaml) (hy : y.LoadsEmitted) {d : LogDefine}
    (h : ∀ a ∈ d.appenders, a.Configured) :
    (d.toString y).bind (fromString y) =
      some { d with appenders := d.appenders.map (fun a => { a with level := .unknow }) } := by
  have hname : (YamlNode.map (YamlNode.fields d.fields)).get (text "name") =
      some (some (.scalar d.name)) :=
    YamlNode.get_fields d.fields_nodup (by simp [fields])
  have hlevel : YamlNode.stringOr (some (.map (YamlNode.fields d.fields))) (text "level") [] =
      some (if d.level ≠ .unknow then d.level.toString else []) :=
    YamlNode.stringOr_fields d.fields_nodup [] (by simp [fields])
  have hformatter : YamlNode.stringOr (some (.map (YamlNode.fields d.fields))) (text "formatter") [] =
      some d.formatter :=
    YamlNode.stringOr_fields_nil d.fields_nodup (by simp [fields])
  have happenders : (YamlNode.map (YamlNode.fields d.fields)).get (text "appenders") =
      some (if d.appenders = [] then none
        else some (.sequence (d.appenders.map (fun a => .map (YamlNode.fields a.fields))))) :=
    YamlNode.get_fields d.fields_nodup (by simp [fields])
  have hread : readAppenders (if d.appenders = [] then none
        else some (.sequence (d.appenders.map (fun a => .map (YamlNode.fields a.fields))))) =
      some (d.appenders.map (fun a => { a with level := .unknow })) := by
    split
    · rename_i hnil
      rw [hnil]
      rfl
    · exact readAppenders_sequence h
  have hback : LogLevel.fromString (if d.level ≠ .unknow then d.level.toString else []) = d.level := by
    split
    · exact d.level.fromString_toString
    · rename_i hunknow
      rw [not_not.mp hunknow]
      decide
  rw [toString_eq y h, Option.bind_some, fromString, hy]
  simp only [Option.bind_eq_bind, Option.bind_some, hname, YamlNode.asString, hlevel, hformatter,
    happenders, hread, hback, Option.pure_def]

/-- A definition survives the round trip exactly when no appender has a level of its own: the
decoder never asks for it (log.cc:626-657) while the encoder writes it. -/
theorem round_trip_iff_levels_unknow (y : Yaml) (hy : y.LoadsEmitted) (d : LogDefine)
    (h : ∀ a ∈ d.appenders, a.Configured) :
    (d.toString y).bind (fromString y) = some d ↔ ∀ a ∈ d.appenders, a.level = .unknow := by
  rw [fromString_toString y hy h, Option.some.injEq]
  constructor
  · intro heq a ha
    have hlist : d.appenders.map (fun a => { a with level := .unknow }) = d.appenders :=
      congrArg LogDefine.appenders heq
    rw [← hlist] at ha
    obtain ⟨b, -, rfl⟩ := List.mem_map.mp ha
    rfl
  · intro hlevels
    have hlist : d.appenders.map (fun a => { a with level := .unknow }) = d.appenders := by
      refine (List.map_congr_left (fun a ha => ?_)).trans (List.map_id _)
      rw [← hlevels a ha]
      rfl
    rw [hlist]

/-- The logger `system` with one appender to standard output. -/
def stdoutAt (level : LogLevel) : LogDefine where
  name := text "system"
  appenders := [{ type := 2, level := level }]

/-- What yaml-cpp writes for it. -/
noncomputable def stdoutYaml (level : LogLevel) : Yaml :=
  Yaml.flowYaml.writing (.map (YamlNode.fields (stdoutAt level).fields))
    (text "name: system\nappenders:\n  - type: StdoutLogAppender" ++
      if level = .unknow then [] else text "\n    level: " ++ level.toString)

theorem stdoutYaml_loadsEmitted (level : LogLevel) : (stdoutYaml level).LoadsEmitted := by
  apply Yaml.flowYaml_loadsEmitted.writing
  exact Yaml.flowYaml_fresh (by decide) (Yaml.isDecimal_cons _ (by decide) (by decide))

/-- A logger with a level and a formatter, an appender to a file, which has its own formatter, and
one to standard output. -/
def twoAppenders : LogDefine where
  name := text "web"
  level := .info
  formatter := text "%m%n"
  appenders := [{ type := 1, file := text "/logs/web.txt", formatter := text "%d %m" }, { type := 2 }]

noncomputable def twoAppendersYaml : Yaml :=
  Yaml.flowYaml.writing (.map (YamlNode.fields twoAppenders.fields))
    (text "name: web\nlevel: INFO\nformatter: \"%m%n\"\nappenders:\n" ++
      text "  - type: FileLogAppender\n    file: /logs/web.txt\n    formatter: \"%d %m\"\n" ++
      text "  - type: StdoutLogAppender")

theorem twoAppendersYaml_loadsEmitted : twoAppendersYaml.LoadsEmitted := by
  apply Yaml.flowYaml_loadsEmitted.writing
  exact Yaml.flowYaml_fresh (by decide) (Yaml.isDecimal_cons _ (by decide) (by decide))

theorem round_trip_twoAppenders :
    (twoAppenders.toString twoAppendersYaml).bind (fromString twoAppendersYaml) =
      some twoAppenders :=
  (round_trip_iff_levels_unknow _ twoAppendersYaml_loadsEmitted twoAppenders (by decide)).mpr
    (by decide)

/-- The level `ERROR` of the appender is lost. -/
theorem round_trip_stdout_error :
    (stdoutYaml .error).LoadsEmitted ∧
      ((stdoutAt .error).toString (stdoutYaml .error)).bind (fromString (stdoutYaml .error)) ≠
        some (stdoutAt .error) := by
  refine ⟨stdoutYaml_loadsEmitted .error, ?_⟩
  rw [fromString_toString _ (stdoutYaml_loadsEmitted .error) (by decide)]
  decide

end LogDefine
end HxSylar
