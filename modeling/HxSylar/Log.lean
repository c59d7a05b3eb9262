import HxSylar.Config
import HxSylar.LogFormatter

namespace HxSylar
open Lib

inductive LogLevel
  | unknow | debug | info | warn | error | fatal
  deriving DecidableEq, Repr

inductive LogTarget
  | file (filename : Text)
  | stdout
  deriving DecidableEq, Repr

structure LogAppender where
  target : LogTarget
  level : LogLevel := .debug
  hasFormatter : Bool := false
  formatter : Option LogFormatter := none
  deriving DecidableEq, Repr

def LogAppender.setFormatter (a : LogAppender) (val : Option LogFormatter) : LogAppender :=
  { a with formatter := val, hasFormatter := val.isSome }

def defaultPattern : Text :=
  text "%d\x7b%Y-%m-%d %H:%M:%S\x7d%T%t%T%N%T%F%T[%p]%T[%c]%T%f:%l%T%m%n"

structure Logger where
  name : Text
  level : LogLevel := .debug
  formatter : LogFormatter := LogFormatter.create defaultPattern
  appenders : List LogAppender := []
  deriving DecidableEq, Repr

namespace Logger

def setFormatterPtr (l : Logger) (val : LogFormatter) : Logger :=
  { l with
    formatter := val
    appenders := l.appenders.map (fun a =>
      if a.hasFormatter then a else { a with formatter := some val }) }

def setFormatter (l : Logger) (val : Text) : Logger :=
  let newVal := LogFormatter.create val
  if newVal.isError then l else l.setFormatterPtr newVal

def addAppender (l : Logger) (a : LogAppender) : Logger :=
  let a := if a.formatter.isNone then { a with formatter := some l.formatter } else a
  { l with appenders := l.appenders ++ [a] }

def clearAppenders (l : Logger) : Logger := { l with appenders := [] }

end Logger

structure LoggerManager where
  loggers : Text → Option Logger

namespace LoggerManager

/-- The constructor: there is the root logger, which writes to standard output. -/
def create : LoggerManager where
  loggers := Function.update (fun _ => none) (text "root")
    (some (Logger.addAppender { name := text "root" } { target := .stdout }))

def getLogger (m : LoggerManager) (name : Text) : Logger := (m.loggers name).getD { name := name }

def modify (m : LoggerManager) (name : Text) (f : Logger → Logger) : LoggerManager where
  loggers := Function.update m.loggers name (some (f (m.getLogger name)))

end LoggerManager

structure LogAppenderDefine where
  type : Int := 0
  level : LogLevel := .unknow
  formatter : Text := []
  file : Text := []
  deriving DecidableEq, Repr

structure LogDefine where
  name : Text
  level : LogLevel := .unknow
  formatter : Text := []
  appenders : List LogAppenderDefine := []
  deriving DecidableEq, Repr

/-- `LogDefine::operator==`, which compares `appenders` with itself. -/
def LogDefine.eq (d oth : LogDefine) : Bool :=
  d.name == oth.name && d.level == oth.level && d.formatter == oth.formatter &&
    d.appenders == d.appenders

structure LogDefines where
  defs : List LogDefine := []
  sorted : defs.Pairwise (fun d e => d.name < e.name) := by simp

namespace LogDefines

/-- `find`: an element that is neither before nor after. -/
def find (s : LogDefines) (d : LogDefine) : Option LogDefine :=
  s.defs.find? (fun e => !decide (e.name < d.name) && !decide (d.name < e.name))

def eq (s oth : LogDefines) : Bool :=
  s.defs.length == oth.defs.length && (s.defs.zip oth.defs).all (fun p => p.1.eq p.2)

instance : BEq LogDefines := ⟨eq⟩

end LogDefines

namespace LogIniter

/-- The appender of a definition (log.cc:730-750); `none` is a call through a null pointer. -/
def appender (a : LogAppenderDefine) : Option LogAppender :=
  let ap : Option LogAppender :=
    if a.type = 1 then some { target := .file a.file }
    else if a.type = 2 then some { target := .stdout }
    else none
  ap.map (fun ap =>
    let ap := { ap with level := a.level }
    if a.formatter ≠ [] then
      let fmt := LogFormatter.create a.formatter
      if fmt.isError then ap else ap.setFormatter (some fmt)
    else ap)

def define (d : LogDefine) (l : Logger) : Option Logger :=
  let l := { l with level := d.level }
  let l := if d.formatter ≠ [] then l.setFormatter d.formatter else l
  (d.appenders.mapM appender).map (fun as => as.foldl Logger.addAppender l.clearAppenders)

/-- The first loop of the listener (log.cc:707-753). -/
def defineAll (old : LogDefines) : List LogDefine → LoggerManager → Option LoggerManager
  | [], m => some m
  | d :: ds, m =>
    if (old.find d).any (fun e => d.eq e) then defineAll old ds m
    else (define d (m.getLogger d.name)).bind (fun l =>
      defineAll old ds (m.modify d.name (fun _ => l)))

/-- The second loop (log.cc:755-763). -/
def removeAll (new : LogDefines) : List LogDefine → LoggerManager → LoggerManager
  | [], m => m
  | d :: ds, m =>
    if (new.find d).isSome then removeAll new ds m
    else removeAll new ds (m.modify d.name (fun l =>
      { l with level := .unknow }.clearAppenders))

def onChange (old new : LogDefines) (m : LoggerManager) : Option LoggerManager :=
  (defineAll old new.defs m).map (removeAll new old.defs)

end LogIniter

structure Logging where
  manager : LoggerManager := LoggerManager.create
  logs : ConfigVar LogDefines := { val := {}, cbs := [1] }

namespace Logging

def setValue (s : Logging) (v : LogDefines) : Option Logging :=
  let (logs, notices) := s.logs.setValue v
  (notices.foldlM (fun m n => LogIniter.onChange n.oldValue n.newValue m) s.manager).map (fun m =>
    { manager := m, logs := logs })

def machine : Lib.Machine Logging LogDefines where
  init s := s = {}
  step := setValue

end Logging
end HxSylar
