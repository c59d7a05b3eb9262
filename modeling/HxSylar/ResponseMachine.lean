import HxSylar.HttpParser

namespace HxSylar
open Lib

-- The machine that is generated from httpclient_parse.rl (httpclient_parser.cc:117-3815).
namespace ResponseMachine

/-- The transitions of a state: from the first byte to the last one, the next state, the actions. -/
abbrev Row := List (UInt8 × UInt8 × Nat × List ResponseAct)

def on (c : Char) (next : Nat) (as : List ResponseAct) : Row := [(byte c, byte c, next, as)]

def onLetter (c : Char) (next : Nat) (as : List ResponseAct) : Row :=
  on c next as ++ on c.toUpper next as

def onDigit (next : Nat) (as : List ResponseAct) : Row := [(48, 57, next, as)]

def onXdigit (next : Nat) (as : List ResponseAct) : Row :=
  onDigit next as ++ [(65, 70, next, as), (97, 102, next, as)]

def onToken (next : Nat) (as : List ResponseAct) : Row :=
  [(33, 33, next, as), (35, 39, next, as), (42, 43, next, as), (45, 46, next, as),
    (48, 57, next, as), (65, 90, next, as), (94, 122, next, as), (124, 124, next, as),
    (126, 126, next, as)]

def onBlank (next : Nat) (as : List ResponseAct) : Row :=
  [(9, 9, next, as), (11, 12, next, as), (32, 32, next, as)]

def onSpace (next : Nat) (as : List ResponseAct) : Row := [(9, 13, next, as), (32, 32, next, as)]

def onAny (next : Nat) (as : List ResponseAct) : Row := [(0, 255, next, as)]

/-- A name that is none of the three known ones, or goes on with a letter of one of them. -/
def inName (letters : List (Char × Nat)) (colon : Nat) : Row :=
  letters.flatMap (fun l => onLetter l.1 l.2 []) ++ on ':' colon [.writeField] ++ onToken 21 []

/-- The start of a line, `as` being what is left from the line before. -/
def lineStart (as : List ResponseAct) : Row :=
  on '\n' 120 (as ++ [.done]) ++ on '\r' 3 as ++ onLetter 'c' 25 (as ++ [.startField]) ++
    onLetter 't' 44 (as ++ [.startField]) ++ onToken 21 (as ++ [.startField])

/-- The spaces in front of a value; `first` are the bytes with which a known one begins. -/
def beforeValue (self lf cr : Nat) (first : Row) : Row :=
  onBlank self [.mark] ++ on '\n' lf [.mark, .writeValue] ++ on '\r' cr [.mark, .writeValue] ++
    first ++ onAny 23 [.mark]

def inValue (letters : List (Char × Nat)) : Row :=
  on '\n' 20 [.writeValue] ++ on '\r' 24 [.writeValue] ++
    letters.flatMap (fun l => onLetter l.1 l.2 []) ++ onAny 23 []

def overLine (self : Nat) (first : Row) : Row := onSpace self [] ++ first

/-- The line behind a known name without a value: its value or another line. -/
def emptyValue (self finished cr : Nat) (first : Row) : Row :=
  onBlank self [] ++ on '\n' finished [.done] ++ on '\r' cr [] ++ first ++
    onLetter 'c' 25 [.startField] ++ onLetter 't' 44 [.startField] ++ onToken 21 [.startField]

def emptyValueCr (self lf : Nat) (as : List ResponseAct) (first : Row) : Row :=
  on '\n' lf as ++ onSpace self [] ++ first

def rows : List Row :=
  [ [],
    on 'H' 8 [.mark] ++ onXdigit 2 [.mark],
    on '\n' 120 [.chunkSize, .done] ++ on '\r' 3 [.chunkSize] ++ on ';' 4 [.chunkSize] ++
      onXdigit 2 [],
    on '\n' 120 [.done],
    onToken 5 [.startField],
    on '\n' 120 [.writeField, .mark, .writeValue, .done] ++
      on '\r' 3 [.writeField, .mark, .writeValue] ++ on ';' 4 [.writeField, .mark, .writeValue] ++
      on '=' 6 [.writeField, .mark] ++ onToken 5 [],
    onToken 7 [.mark],
    on '\n' 120 [.writeValue, .done] ++ on '\r' 3 [.writeValue] ++ on ';' 4 [.writeValue] ++
      onToken 7 [],
    -- 8: the status line
    on 'T' 9 [], on 'T' 10 [], on 'P' 11 [], on '/' 12 [],
    onDigit 13 [], on '.' 14 [] ++ onDigit 13 [], onDigit 15 [],
    on ' ' 16 [.httpVersion] ++ onDigit 15 [],
    onDigit 17 [.mark], on ' ' 18 [.statusCode] ++ onDigit 17 [],
    [(0, 9, 19, [.mark]), (11, 255, 19, [.mark])],
    on '\n' 20 [.reasonPhrase] ++ on '\r' 24 [.reasonPhrase] ++ onAny 19 [],
    -- 20: the lines of the header
    lineStart [], inName [] 22, beforeValue 22 20 24 [], inValue [], on '\n' 20 [],
    -- 25: `Connection`
    inName [('o', 26)] 22, inName [('n', 27)] 22, inName [('n', 28), ('t', 101)] 22,
    inName [('e', 29)] 22, inName [('c', 30)] 22, inName [('t', 31)] 22, inName [('i', 32)] 22,
    inName [('o', 33)] 22, inName [('n', 34)] 22, inName [] 35,
    beforeValue 35 36 95 (onLetter 'c' 96 [.mark]),
    emptyValue 37 122 89 (onLetter 'c' 90 [.startField]),
    overLine 37 (onLetter 'c' 38 []),
    onLetter 'l' 39 [], onLetter 'o' 40 [], onLetter 's' 41 [], onLetter 'e' 42 [],
    on '\n' 43 [] ++ on '\r' 88 [], lineStart [.writeConnectionClose],
    -- 44: `Transfer-Encoding`
    inName [('r', 45)] 22, inName [('a', 46)] 22, inName [('n', 47)] 22, inName [('s', 48)] 22,
    inName [('f', 49)] 22, inName [('e', 50)] 22, inName [('r', 51)] 22, inName [('-', 52)] 22,
    inName [('e', 53)] 22, inName [('n', 54)] 22, inName [('c', 55)] 22, inName [('o', 56)] 22,
    inName [('d', 57)] 22, inName [('i', 58)] 22, inName [('n', 59)] 22, inName [('g', 60)] 22,
    inName [] 61,
    beforeValue 61 62 80 (onLetter 'c' 81 [.mark]),
    emptyValue 63 121 72 (onLetter 'c' 73 [.mark, .startField]),
    overLine 63 (onLetter 'c' 64 [.mark]),
    onLetter 'h' 65 [], onLetter 'u' 66 [], onLetter 'n' 67 [], onLetter 'k' 68 [],
    onLetter 'e' 69 [], onLetter 'd' 70 [],
    on '\n' 20 [.writeValue, .transChunked] ++ on '\r' 71 [.writeValue],
    on '\n' 20 [.transChunked],
    emptyValueCr 63 121 [.done] (onLetter 'c' 64 [.mark]),
    inName [('h', 74), ('o', 26)] 22, inName [('u', 75)] 22, inName [('n', 76)] 22,
    inName [('k', 77)] 22, inName [('e', 78)] 22, inName [('d', 79)] 22,
    on '\n' 20 [.writeValue, .transChunked] ++ on '\r' 71 [.writeValue] ++ inName [] 22,
    emptyValueCr 63 62 [] (onLetter 'c' 64 [.mark]),
    inValue [('h', 82)], inValue [('u', 83)], inValue [('n', 84)], inValue [('k', 85)],
    inValue [('e', 86)], inValue [('d', 87)],
    on '\n' 20 [.writeValue, .transChunked] ++ on '\r' 71 [.writeValue] ++ onAny 23 [],
    on '\n' 43 [],
    emptyValueCr 37 122 [.done] (onLetter 'c' 38 []),
    -- 90: `close` behind an empty line, or a name that begins so
    inName [('l', 91), ('o', 26)] 22, inName [('o', 92)] 22, inName [('s', 93)] 22,
    inName [('e', 94)] 22, on '\n' 43 [] ++ on '\r' 88 [] ++ inName [] 22,
    emptyValueCr 37 36 [] (onLetter 'c' 38 []),
    inValue [('l', 97)], inValue [('o', 98)], inValue [('s', 99)], inValue [('e', 100)],
    on '\n' 43 [.writeValue] ++ on '\r' 88 [.writeValue] ++ onAny 23 [],
    -- 101: `Content-Length`
    inName [('e', 102)] 22, inName [('n', 103)] 22, inName [('t', 104)] 22, inName [('-', 105)] 22,
    inName [('l', 106)] 22, inName [('e', 107)] 22, inName [('n', 108)] 22, inName [('g', 109)] 22,
    inName [('t', 110)] 22, inName [('h', 111)] 22, inName [] 112,
    beforeValue 112 113 118 (onDigit 119 [.mark]),
    emptyValue 114 123 116 (onDigit 117 [.mark, .startField]),
    overLine 114 (onDigit 115 [.mark]),
    on '\n' 20 [.writeContentLen, .writeValue] ++ on '\r' 24 [.writeContentLen, .writeValue] ++
      onDigit 115 [],
    emptyValueCr 114 123 [.done] (onDigit 115 [.mark]),
    on '\n' 20 [.writeContentLen, .writeValue] ++ on '\r' 24 [.writeContentLen, .writeValue] ++
      onDigit 117 [] ++ inName [] 22,
    emptyValueCr 114 113 [] (onDigit 115 [.mark]),
    on '\n' 20 [.writeContentLen, .writeValue] ++ on '\r' 24 [.writeContentLen, .writeValue] ++
      onDigit 119 [] ++ onAny 23 [],
    -- 120: behind the header
    [],
    overLine 63 (onLetter 'c' 64 [.mark]), overLine 37 (onLetter 'c' 38 []),
    overLine 114 (onDigit 115 [.mark]) ]

end ResponseMachine

/-- The generated machine of httpclient_parser.cc. -/
def responseMachine : ResponseTable := Table.ofRows ResponseMachine.rows

end HxSylar
