import HxSylar.LogYaml

namespace HxSylar
open Lib

/-- What is written of a `LogEvent` (log.h:108-211). The file name is a C string. -/
structure LogEvent where
  file : Text := []
  line : Int32 := 0
  elapse : UInt32 := 0
  threadId : UInt32 := 0
  fiberId : UInt32 := 0
  time : UInt64 := 0
  threadName : Text := []
  content : Text := []
  loggerName : Text := []
  deriving DecidableEq

/-- What `DateTimeFormatItem::format` depends on: the text that `localtime_r` and `strftime` make of a
format and a time, however long, and what `buf` holds before. -/
structure DateTime where
  strftime : Text → UInt64 → Text
  buf : Text

def defaultDateTime : Text := text "%Y-%m-%d %H:%M:%S"

/-- `DateTimeFormatItem::format` (log.cc:167-175): `buf` stays where the text does not fit. -/
def DateTime.format (dateTime : DateTime) (fmt : Text) (time : UInt64) : Text :=
  let format := if fmt = [] then defaultDateTime else fmt
  let result := dateTime.strftime format.cstr time
  if result.length < 64 then result.cstr else dateTime.buf.cstr

/-- `FormatItem::format` of the classes (log.cc:95-228): what is written. -/
def FormatItem.format (dateTime : DateTime) (level : LogLevel) (event : LogEvent) :
    FormatItem → Text
  | .string str => str
  | .item .message _ => event.content
  | .item .level _ => level.toString
  | .item .elapse _ => Text.ofNat event.elapse.toNat
  | .item .name _ => event.loggerName
  | .item .threadId _ => Text.ofNat event.threadId.toNat
  | .item .newLine _ => text "\n"
  | .item .dateTime fmt => dateTime.format fmt event.time
  | .item .filename _ => event.file.cstr
  | .item .line _ => Text.decimal event.line.toInt
  | .item .tab _ => text "\t"
  | .item .fiberId _ => Text.ofNat event.fiberId.toNat
  | .item .threadName _ => event.threadName

def LogFormatter.format (f : LogFormatter) (dateTime : DateTime) (level : LogLevel)
    (event : LogEvent) : Text :=
  f.items.flatMap (FormatItem.format dateTime level event)

end HxSylar
