import HxSylar.Log
import HxSylar.Lib.Machine

namespace HxSylar
open Lib

def LogLevel.value : LogLevel → Nat
  | unknow => 0
  | debug => 1
  | info => 2
  | warn => 3
  | error => 4
  | fatal => 5

/-- A `LogFormatter::ptr` that is not null: where the formatter lies, and what it is. -/
structure FormatterPtr where
  address : Nat
  formatter : LogFormatter
  deriving DecidableEq, Repr

namespace LogInheritance

structure Appender where
  level : LogLevel := .debug
  hasFormatter : Bool := false
  formatter : Option FormatterPtr := none
  deriving DecidableEq, Repr

structure Logger (n m : Nat) where
  level : LogLevel := .debug
  formatter : Option FormatterPtr
  root : Option (Fin n) := none
  appenders : List (Fin m) := []
  deriving DecidableEq, Repr

structure State (n m : Nat) where
  loggers : Fin n → Logger n m
  appenders : Fin m → Appender

namespace State
variable {n m : Nat} (s : State n m)

def setAppenderFormatter (a : Fin m) (val : Option FormatterPtr) : State n m :=
  let appender := { s.appenders a with formatter := val, hasFormatter := val.isSome }
  { s with appenders := Function.update s.appenders a appender }

def setFormatter (l : Fin n) (val : Option FormatterPtr) : State n m where
  loggers := Function.update s.loggers l { s.loggers l with formatter := val }
  appenders a :=
    if a ∈ (s.loggers l).appenders ∧ !(s.appenders a).hasFormatter then
      { s.appenders a with formatter := val }
    else s.appenders a

/-- `Logger::setFormatter` of a pattern (log.cc:264-274), with the address that `new` returns. -/
def setPattern (l : Fin n) (address : Nat) (val : Text) : State n m :=
  let newVal := LogFormatter.create val
  if newVal.isError then s else s.setFormatter l (some ⟨address, newVal⟩)

def addAppender (l : Fin n) (a : Fin m) : State n m :=
  let logger := s.loggers l
  let appender :=
    if (s.appenders a).formatter.isNone then { s.appenders a with formatter := logger.formatter }
    else s.appenders a
  { loggers := Function.update s.loggers l { logger with appenders := logger.appenders ++ [a] }
    appenders := Function.update s.appenders a appender }

/-- `Logger::delAppender` (log.cc:309-317): the first of the pointers that are equal. -/
def delAppender (l : Fin n) (a : Fin m) : State n m :=
  let logger := s.loggers l
  { s with
    loggers := Function.update s.loggers l { logger with appenders := logger.appenders.erase a } }

def clearAppenders (l : Fin n) : State n m :=
  { s with loggers := Function.update s.loggers l { s.loggers l with appenders := [] } }

/-- `StdoutLogAppender::log` and `FileLogAppender::log` (log.cc:353-367, 393-399): the formatter that
`format` is called on, if the level is high enough. `none` is a call through a null pointer. -/
def logAppender (level : LogLevel) (a : Fin m) : Option (List FormatterPtr) :=
  if (s.appenders a).level.value ≤ level.value then (s.appenders a).formatter.map ([·])
  else some []

def logAppenders (level : LogLevel) : List (Fin m) → Option (List FormatterPtr)
  | [] => some []
  | a :: rest =>
    match s.logAppender level a with
    | none => none
    | some written => (logAppenders level rest).map (written ++ ·)

/-- `m_root->log(..)`: the root logger has no root of its own (log.cc:555-575). -/
def logRoot (l : Fin n) (level : LogLevel) : Option (List FormatterPtr) :=
  if (s.loggers l).level.value ≤ level.value then s.logAppenders level (s.loggers l).appenders
  else some []

def log (l : Fin n) (level : LogLevel) : Option (List FormatterPtr) :=
  if (s.loggers l).level.value ≤ level.value then
    if (s.loggers l).appenders ≠ [] then s.logAppenders level (s.loggers l).appenders
    else
      match (s.loggers l).root with
      | some root => s.logRoot root level
      | none => some []
  else some []

end State

inductive Call (n m : Nat)
  | addAppender (l : Fin n) (a : Fin m)
  | delAppender (l : Fin n) (a : Fin m)
  | clearAppenders (l : Fin n)
  | setFormatter (l : Fin n) (val : Option FormatterPtr)
  | setPattern (l : Fin n) (address : Nat) (val : Text)
  | setAppenderFormatter (a : Fin m) (val : Option FormatterPtr)
  deriving DecidableEq, Repr

variable {n m : Nat}

def call (s : State n m) : Call n m → State n m
  | .addAppender l a => s.addAppender l a
  | .delAppender l a => s.delAppender l a
  | .clearAppenders l => s.clearAppenders l
  | .setFormatter l val => s.setFormatter l val
  | .setPattern l address val => s.setPattern l address val
  | .setAppenderFormatter a val => s.setAppenderFormatter a val

/-- An appender is only added to a logger while no other one has it. -/
def Enabled (s : State n m) : Call n m → Prop
  | .addAppender l a => ∀ l', l' ≠ l → a ∉ (s.loggers l').appenders
  | .delAppender _ _ | .clearAppenders _ | .setFormatter _ _ | .setPattern _ _ _
  | .setAppenderFormatter _ _ => True

instance (s : State n m) : DecidablePred (Enabled s)
  | .addAppender l a => inferInstanceAs (Decidable (∀ l', l' ≠ l → a ∉ (s.loggers l').appenders))
  | .delAppender _ _ | .clearAppenders _ | .setFormatter _ _ | .setPattern _ _ _
  | .setAppenderFormatter _ _ => isTrue trivial

/-- Loggers and appenders as their constructors leave them, with any levels and roots. -/
def machine (n m : Nat) : Lib.Machine (State n m) (Call n m) where
  init s :=
    (∀ l, ∃ address, (s.loggers l).formatter = some ⟨address, LogFormatter.create defaultPattern⟩ ∧
      (s.loggers l).appenders = []) ∧
    ∀ a, (s.appenders a).hasFormatter = false ∧ (s.appenders a).formatter = none
  step s c := if Enabled s c then some (call s c) else none

end LogInheritance
end HxSylar
