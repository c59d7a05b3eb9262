import HxSylar.HttpParam

namespace HxSylar.StringUtil
open Lib

/-- `uri_chars` (util.cc:282-543): 1 at the bytes that stand for themselves. -/
def uriChars : List UInt8 :=
  [0, 0, 0, 0, 0, 0, 0, 0, 0, 0, 0, 0, 0, 0, 0, 0, 0, 0, 0, 0, 0, 0, 0, 0, 0, 0, 0, 0, 0, 0, 0, 0,
   0, 0, 0, 0, 0, 0, 0, 0, 0, 0, 0, 0, 0, 1, 1, 0, 1, 1, 1, 1, 1, 1, 1, 1, 1, 1, 0, 0, 0, 1, 0, 0,
   0, 1, 1, 1, 1, 1, 1, 1, 1, 1, 1, 1, 1, 1, 1, 1, 1, 1, 1, 1, 1, 1, 1, 1, 1, 1, 1, 0, 0, 0, 0, 1,
   0, 1, 1, 1, 1, 1, 1, 1, 1, 1, 1, 1, 1, 1, 1, 1, 1, 1, 1, 1, 1, 1, 1, 1, 1, 1, 1, 0, 0, 0, 1, 0,
   0, 0, 0, 0, 0, 0, 0, 0, 0, 0, 0, 0, 0, 0, 0, 0, 0, 0, 0, 0, 0, 0, 0, 0, 0, 0, 0, 0, 0, 0, 0, 0,
   0, 0, 0, 0, 0, 0, 0, 0, 0, 0, 0, 0, 0, 0, 0, 0, 0, 0, 0, 0, 0, 0, 0, 0, 0, 0, 0, 0, 0, 0, 0, 0,
   0, 0, 0, 0, 0, 0, 0, 0, 0, 0, 0, 0, 0, 0, 0, 0, 0, 0, 0, 0, 0, 0, 0, 0, 0, 0, 0, 0, 0, 0, 0, 0,
   0, 0, 0, 0, 0, 0, 0, 0, 0, 0, 0, 0, 0, 0, 0, 0, 0, 0, 0, 0, 0, 0, 0, 0, 0, 0, 0, 0, 0, 0, 0, 0]

def xdigitChars : List UInt8 :=
  [0, 0, 0, 0, 0, 0, 0, 0, 0, 0, 0, 0, 0, 0, 0, 0, 0, 0, 0, 0, 0, 0, 0, 0, 0, 0, 0, 0, 0, 0, 0, 0,
   0, 0, 0, 0, 0, 0, 0, 0, 0, 0, 0, 0, 0, 0, 0, 0, 0, 1, 2, 3, 4, 5, 6, 7, 8, 9, 0, 0, 0, 0, 0, 0,
   0, 10, 11, 12, 13, 14, 15, 0, 0, 0, 0, 0, 0, 0, 0, 0, 0, 0, 0, 0, 0, 0, 0, 0, 0, 0, 0, 0, 0, 0, 0, 0,
   0, 10, 11, 12, 13, 14, 15, 0, 0, 0, 0, 0, 0, 0, 0, 0, 0, 0, 0, 0, 0, 0, 0, 0, 0, 0, 0, 0, 0, 0, 0, 0,
   0, 0, 0, 0, 0, 0, 0, 0, 0, 0, 0, 0, 0, 0, 0, 0, 0, 0, 0, 0, 0, 0, 0, 0, 0, 0, 0, 0, 0, 0, 0, 0,
   0, 0, 0, 0, 0, 0, 0, 0, 0, 0, 0, 0, 0, 0, 0, 0, 0, 0, 0, 0, 0, 0, 0, 0, 0, 0, 0, 0, 0, 0, 0, 0,
   0, 0, 0, 0, 0, 0, 0, 0, 0, 0, 0, 0, 0, 0, 0, 0, 0, 0, 0, 0, 0, 0, 0, 0, 0, 0, 0, 0, 0, 0, 0, 0,
   0, 0, 0, 0, 0, 0, 0, 0, 0, 0, 0, 0, 0, 0, 0, 0, 0, 0, 0, 0, 0, 0, 0, 0, 0, 0, 0, 0, 0, 0, 0, 0]

def charIsUnreserved (c : UInt8) : Bool := uriChars.getD c.toNat 0 != 0

def hexdigits : Text := text "0123456789ABCDEF"

def percentEscape (c : UInt8) : Text :=
  [byte '%', hexdigits.getD (c >>> 4).toNat 0, hexdigits.getD (c &&& 0xf).toNat 0]

/-- The loop of `UrlEncode` (util.cc:568-586). `pre` is what lies between `str.c_str()` and `c`, and
`ss` the buffer, made at the first byte that changes with what was passed until then. -/
def urlEncodeLoop (space_as_plus : Bool) (pre : Text) (ss : Option Text) : Text → Option Text
  | [] => ss
  | c :: rest =>
    if !charIsUnreserved c then
      let buffer := ss.getD pre
      if c = byte ' ' ∧ space_as_plus then
        urlEncodeLoop space_as_plus (pre ++ [c]) (some (buffer ++ [byte '+'])) rest
      else urlEncodeLoop space_as_plus (pre ++ [c]) (some (buffer ++ percentEscape c)) rest
    else urlEncodeLoop space_as_plus (pre ++ [c]) (ss.map (· ++ [c])) rest

def urlEncode (str : Text) (space_as_plus : Bool) : Text :=
  (urlEncodeLoop space_as_plus [] none str).getD str

def xdigitByte (x y : UInt8) : UInt8 :=
  (xdigitChars.getD x.toNat 0 <<< 4) ||| xdigitChars.getD y.toNat 0

/-- The loop of `UrlDecode` (util.cc:598-618). An escape needs both its digits before `end`. -/
def urlDecodeLoop (space_as_plus : Bool) (pre : Text) (ss : Option Text) : Text → Option Text
  | [] => ss
  | c :: x :: y :: rest =>
    if c = byte '+' ∧ space_as_plus then
      urlDecodeLoop space_as_plus (pre ++ [c]) (some (ss.getD pre ++ [byte ' '])) (x :: y :: rest)
    else if c = byte '%' ∧ isxdigit x ∧ isxdigit y then
      urlDecodeLoop space_as_plus (pre ++ [c, x, y]) (some (ss.getD pre ++ [xdigitByte x y])) rest
    else urlDecodeLoop space_as_plus (pre ++ [c]) (ss.map (· ++ [c])) (x :: y :: rest)
  | c :: rest =>
    if c = byte '+' ∧ space_as_plus then
      urlDecodeLoop space_as_plus (pre ++ [c]) (some (ss.getD pre ++ [byte ' '])) rest
    else urlDecodeLoop space_as_plus (pre ++ [c]) (ss.map (· ++ [c])) rest

def urlDecode (str : Text) (space_as_plus : Bool) : Text :=
  (urlDecodeLoop space_as_plus [] none str).getD str

end HxSylar.StringUtil
