import HxSylar.Lib.Yaml
import HxSylar.Log

namespace HxSylar
open Lib

namespace LogLevel

def toString : LogLevel → Text
  | .debug => text "DEBUG"
  | .info => text "INFO"
  | .warn => text "WARN"
  | .error => text "ERROR"
  | .fatal => text "FATAL"
  | .unknow => text "UNKNOW"

def fromString (str : Text) : LogLevel :=
  if str = text "debug" then .debug
  else if str = text "info" then .info
  else if str = text "warn" then .warn
  else if str = text "error" then .error
  else if str = text "fatal" then .fatal
  else if str = text "DEBUG" then .debug
  else if str = text "INFO" then .info
  else if str = text "WARN" then .warn
  else if str = text "ERROR" then .error
  else if str = text "FATAL" then .fatal
  else .unknow

end LogLevel

namespace LogAppenderDefine

/-- One turn of the loop over the appenders (log.cc:626-657); the inner `none` is a `continue`. -/
def read (a : Option YamlNode) : Option (Option LogAppenderDefine) :=
  (YamlNode.getIn a (text "type")).bind (fun type =>
    if type.isNone then some none
    else (YamlNode.asString type).bind (fun type =>
      if type = text "FileLogAppender" then
        (YamlNode.getIn a (text "file")).bind (fun file =>
          if file.isNone then some none
          else do
            let file ← YamlNode.asString file
            let formatter ← YamlNode.stringOr a (text "formatter") []
            return some { type := 1, file := file, formatter := formatter })
      else if type = text "StdoutLogAppender" then do
        let formatter ← YamlNode.stringOr a (text "formatter") []
        return some { type := 2, formatter := formatter }
      else some none))

def writeType (a : LogAppenderDefine) : Option YamlNode :=
  if a.type = 1 then do
    let na ← YamlNode.null.set (text "type") (.scalar (text "FileLogAppender"))
    na.set (text "file") (.scalar a.file)
  else if a.type = 2 then YamlNode.null.set (text "type") (.scalar (text "StdoutLogAppender"))
  else some .null

/-- The node `na` of an appender (log.cc:676-689). -/
def write (a : LogAppenderDefine) : Option YamlNode := do
  let na ← a.writeType
  let na ← na.setIf (a.level ≠ .unknow) (text "level") (.scalar a.level.toString)
  na.setIf (a.formatter ≠ []) (text "formatter") (.scalar a.formatter)

end LogAppenderDefine

namespace LogDefine

def readAppenders : Option YamlNode → Option (List LogAppenderDefine)
  | none => some []
  | some appenders => do
    let read ← (List.range appenders.size).mapM (fun x =>
      (appenders.item x).bind LogAppenderDefine.read)
    return read.filterMap id

def fromString (y : Yaml) (v : Text) : Option LogDefine := do
  let n ← y.load v
  -- An undefined name throws as well.
  let name ← (← n.get (text "name")).bind (fun name => YamlNode.asString name)
  let level ← YamlNode.stringOr n (text "level") []
  let formatter ← YamlNode.stringOr n (text "formatter") []
  let appenders ← readAppenders (← n.get (text "appenders"))
  return { name := name, level := LogLevel.fromString level, formatter := formatter,
           appenders := appenders }

def toString (y : Yaml) (i : LogDefine) : Option Text := do
  let n ← YamlNode.null.set (text "name") (.scalar i.name)
  let n ← n.setIf (i.level ≠ .unknow) (text "level") (.scalar i.level.toString)
  let n ← n.setIf (i.formatter ≠ []) (text "formatter") (.scalar i.formatter)
  let n ← i.appenders.foldlM (fun n a => a.write.bind (n.pushBack (text "appenders"))) n
  return y.emit n

end LogDefine
end HxSylar
