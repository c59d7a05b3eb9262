import HxSylar.HttpParser

namespace HxSylar
open Lib

-- The machine that is generated from http11_parser.rl (http11_parser.cc:111-6099).
namespace RequestMachine

/-- The transitions of a state: from the first byte to the last one, the next state, the actions. -/
abbrev Row := List (UInt8 × UInt8 × Nat × List RequestAct)

def onBytes (first last : UInt8) (next : Nat) (as : List RequestAct := []) : Row :=
  [(first, last, next, as)]

def on (c : Char) (next : Nat) (as : List RequestAct := []) : Row :=
  onBytes (byte c) (byte c) next as

def onRange (first last : Char) (next : Nat) (as : List RequestAct := []) : Row :=
  onBytes (byte first) (byte last) next as

def onDigit (next : Nat) (as : List RequestAct := []) : Row := onRange '0' '9' next as

def onUpper (next : Nat) (as : List RequestAct := []) : Row := onRange 'A' 'Z' next as

def onLower (next : Nat) (as : List RequestAct := []) : Row := onRange 'a' 'z' next as

def onHexLetter (next : Nat) : Row := onRange 'A' 'F' next ++ onRange 'a' 'f' next

def onXdigit (next : Nat) : Row := onDigit next ++ onHexLetter next

/-- `unreserved | sub_delims` (http11_parser.rl:124-129). -/
def onPlain (relaxed : Bool) (next : Nat) (as : List RequestAct := []) : Row :=
  on '!' next as ++ on '$' next as ++ onRange '&' '.' next as ++ onDigit next as ++
    on ';' next as ++ on '=' next as ++ onUpper next as ++ on '_' next as ++ onLower next as ++
    on '~' next as ++
    if relaxed then on '^' next as ++ on '{' next as ++ on '}' next as else []

/-- `pchar` besides percent escapes (http11_parser.rl:135). -/
def onPchar (relaxed : Bool) (next : Nat) (as : List RequestAct := []) : Row :=
  onPlain relaxed next as ++ on ':' next as ++ on '@' next as ++ onBytes 128 255 next as

/-- What `token` takes (http11_parser.rl:206-210), the control characters among it. -/
def onToken (next : Nat) (as : List RequestAct := []) : Row :=
  onBytes 1 8 next as ++ onBytes 10 31 next as ++ on '!' next as ++ onBytes 35 39 next as ++
    onRange '*' '+' next as ++ onRange '-' '.' next as ++ onDigit next as ++ onUpper next as ++
    onRange '^' 'z' next as ++ on '|' next as ++ on '~' next as

/-- What `content` takes (http11_parser.rl:211). -/
def onContent (next : Nat) (as : List RequestAct := []) : Row :=
  onBytes 1 126 next as ++ onBytes 128 255 next as

def escape (second next : Nat) : List Row := [onXdigit second, onXdigit next]

/-- The first digit of a `dec_octet` (http11_parser.rl:161-163). -/
def onOctet (small one two : Nat) : Row :=
  on '0' small ++ on '1' one ++ on '2' two ++ onRange '3' '9' small

/-- The second digit of a `dec_octet` behind a 2, where digits of a group may stand as well. -/
def onTwo (low small five : Nat) : Row :=
  on '0' low ++ onRange '1' '4' small ++ on '5' five ++ onRange '6' '9' small

/-- Behind each of the four digits of a group, the first of them in the state `first`. -/
def h16 (first next : Nat) : List Row :=
  [onXdigit (first + 1) ++ on ':' next, onXdigit (first + 2) ++ on ':' next,
    onXdigit (first + 3) ++ on ':' next, on ':' next]

/-- The states 34 to 172, which scan the authority of a URI, without the ways out of it. -/
def inAuthority (relaxed : Bool) : List Row :=
  [on ':' 38 ++ on '@' 42 ++ on '[' 47 ++ onPlain relaxed 35 ++ on '%' 36,
    on ':' 38 ++ on '@' 42 ++ onPlain relaxed 35 ++ on '%' 36] ++ escape 37 35 ++
    -- 38: a port, or user information
    [onDigit 38 ++ on ':' 39 ++ onPlain relaxed 39 ++ on '@' 42 ++ on '%' 40,
    on ':' 39 ++ onPlain relaxed 39 ++ on '@' 42 ++ on '%' 40] ++ escape 41 39 ++
    -- 42: the host
    [on ':' 46 ++ on '[' 47 ++ onPlain relaxed 43 ++ on '%' 44,
    on ':' 46 ++ onPlain relaxed 43 ++ on '%' 44] ++ escape 45 43 ++ [onDigit 46] ++
    -- 47: an address in brackets
    [onXdigit 91 ++ onBytes 6 6 48 ++ on ':' 167 ++ on 'v' 169, onXdigit 49] ++ h16 49 53 ++
    [onHexLetter 90 ++ onOctet 54 84 87,
    -- 54: the numbers of an IPv4 address at its end
    onXdigit 77 ++ on '.' 55 ++ on ':' 80, onOctet 56 72 74, on '.' 57, onOctet 58 67 69,
    on '.' 59, onOctet 60 62 64, on ']' 61, on ':' 46, onDigit 63 ++ on ']' 61,
    onDigit 60 ++ on ']' 61, on '0' 65 ++ on '5' 66 ++ on ']' 61, onDigit 60, on '0' 60,
    onDigit 68 ++ on '.' 59, onDigit 58 ++ on '.' 59, on '.' 59 ++ on '0' 70 ++ on '5' 71,
    onDigit 58, on '0' 58, onDigit 73 ++ on '.' 57, onDigit 56 ++ on '.' 57,
    on '.' 57 ++ on '0' 75 ++ on '5' 76, onDigit 56, on '0' 56,
    -- 77: the last two groups, which an IPv4 address may begin
    onXdigit 78 ++ on ':' 80, onXdigit 79 ++ on ':' 80, on ':' 80, onXdigit 81,
    onXdigit 82 ++ on ']' 61, onXdigit 83 ++ on ']' 61, onXdigit 60 ++ on ']' 61,
    onHexLetter 77 ++ onDigit 85 ++ on '.' 55 ++ on ':' 80,
    onHexLetter 78 ++ onDigit 86 ++ on '.' 55 ++ on ':' 80, onXdigit 79 ++ on '.' 55 ++ on ':' 80,
    onHexLetter 77 ++ on '.' 55 ++ onTwo 88 77 89 ++ on ':' 80,
    onHexLetter 78 ++ onDigit 86 ++ on ':' 80,
    onHexLetter 78 ++ on '0' 86 ++ onRange '1' '9' 78 ++ on ':' 80, onXdigit 77 ++ on ':' 80] ++
    -- 91: groups in front of `::`
    h16 91 95 ++ [onXdigit 96 ++ on ':' 166] ++ h16 96 100 ++ [onXdigit 101 ++ on ':' 165] ++
    h16 101 105 ++ [onXdigit 106 ++ on ':' 164] ++ h16 106 110 ++ [onXdigit 111 ++ on ':' 163] ++
    h16 111 115 ++ [onXdigit 116 ++ on ':' 151] ++ h16 116 120 ++ [onXdigit 121 ++ on ':' 150] ++
    h16 121 125 ++ [onXdigit 121 ++ on ':' 126,
    -- 126: behind `::`
    onHexLetter 149 ++ onBytes 2 3 48 ++ onOctet 127 143 146 ++ on ']' 61,
    onXdigit 128 ++ on '.' 55 ++ on ':' 131 ++ on ']' 61, onXdigit 129 ++ on ':' 131 ++ on ']' 61,
    onXdigit 130 ++ on ':' 131 ++ on ']' 61, on ':' 131 ++ on ']' 61,
    onHexLetter 142 ++ onOctet 132 136 139, onXdigit 133 ++ on '.' 55 ++ on ':' 80 ++ on ']' 61,
    onXdigit 134 ++ on ':' 80 ++ on ']' 61, onXdigit 135 ++ on ':' 80 ++ on ']' 61,
    on ':' 80 ++ on ']' 61, onHexLetter 133 ++ onDigit 137 ++ on '.' 55 ++ on ':' 80 ++ on ']' 61,
    onHexLetter 134 ++ onDigit 138 ++ on '.' 55 ++ on ':' 80 ++ on ']' 61,
    onXdigit 135 ++ on '.' 55 ++ on ':' 80 ++ on ']' 61,
    onHexLetter 133 ++ on '.' 55 ++ onTwo 140 133 141 ++ on ':' 80 ++ on ']' 61,
    onHexLetter 134 ++ onDigit 138 ++ on ':' 80 ++ on ']' 61,
    onHexLetter 134 ++ on '0' 138 ++ onRange '1' '9' 134 ++ on ':' 80 ++ on ']' 61,
    onXdigit 133 ++ on ':' 80 ++ on ']' 61,
    onHexLetter 128 ++ onDigit 144 ++ on '.' 55 ++ on ':' 131 ++ on ']' 61,
    onHexLetter 129 ++ onDigit 145 ++ on '.' 55 ++ on ':' 131 ++ on ']' 61,
    onXdigit 130 ++ on '.' 55 ++ on ':' 131 ++ on ']' 61,
    onHexLetter 128 ++ on '.' 55 ++ onTwo 147 128 148 ++ on ':' 131 ++ on ']' 61,
    onHexLetter 129 ++ onDigit 145 ++ on ':' 131 ++ on ']' 61,
    onHexLetter 129 ++ on '0' 145 ++ onRange '1' '9' 129 ++ on ':' 131 ++ on ']' 61,
    onXdigit 128 ++ on ':' 131 ++ on ']' 61,
    onHexLetter 149 ++ onBytes 2 3 48 ++ onOctet 127 143 146,
    onHexLetter 162 ++ onBytes 2 3 48 ++ onOctet 152 156 159,
    onXdigit 153 ++ on '.' 55 ++ on ':' 131, onXdigit 154 ++ on ':' 131,
    onXdigit 155 ++ on ':' 131, on ':' 131,
    onHexLetter 153 ++ onDigit 157 ++ on '.' 55 ++ on ':' 131,
    onHexLetter 154 ++ onDigit 158 ++ on '.' 55 ++ on ':' 131,
    onXdigit 155 ++ on '.' 55 ++ on ':' 131,
    onHexLetter 153 ++ on '.' 55 ++ onTwo 160 153 161 ++ on ':' 131,
    onHexLetter 154 ++ onDigit 158 ++ on ':' 131,
    onHexLetter 154 ++ on '0' 158 ++ onRange '1' '9' 154 ++ on ':' 131, onXdigit 153 ++ on ':' 131,
    -- 163: counts that the grammar writes in front of a repetition are bytes
    onXdigit 49 ++ onBytes 2 3 48, onBytes 2 3 48, onBytes 3 3 48, onBytes 4 4 48,
    -- 167: `::` at the front
    on ':' 168, onHexLetter 149 ++ onBytes 2 5 48 ++ onOctet 127 143 146 ++ on ']' 61,
    -- 169: an address of a future version
    onXdigit 170, onXdigit 170 ++ on '.' 171, onPlain relaxed 172 ++ on ':' 172,
    onPlain relaxed 172 ++ on ':' 172 ++ on ']' 61]

/-- The authority in a request, or in a message, where its states are `k` further on. -/
def authority (relaxed : Bool) (k : Nat) (leave : Row) : List Row :=
  (inAuthority relaxed).mapIdx fun i row =>
    row.map (fun e => (e.1, e.2.1, e.2.2.1 + k, e.2.2.2)) ++
      if i + 34 ∈ [34, 35, 38, 42, 43, 46, 61] then leave else []

def endPath (as : List RequestAct := []) : Row :=
  on ' ' 4 (as ++ [.requestPath, .requestUri]) ++ on '#' 20 (as ++ [.requestPath, .requestUri]) ++
    on '?' 29 (as ++ [.requestPath])

def onQuery (relaxed : Bool) (next : Nat) (as : List RequestAct := []) : Row :=
  onPchar relaxed next as ++ on '/' next as ++ on '?' next as

def inMethod (next : Nat) : Row := on ' ' 3 [.requestMethod] ++ onDigit next ++ onUpper next

def rows (relaxed : Bool) : List Row :=
  [ [],
    onDigit 2 [.mark] ++ onUpper 2 [.mark] ++ on '<' 194 [.mark] ++ on '@' 198 [.mark],
    inMethod 175,
    endPath [.mark] ++ on '/' 33 [.mark] ++ on '%' 24 [.mark] ++ on '@' 19 [.mark] ++
      onUpper 173 [.mark] ++ onLower 173 [.mark] ++ onPlain relaxed 19 [.mark],
    -- 4: the version
    on 'H' 5 [.mark], on 'T' 6, on 'T' 7, on 'P' 8, on '/' 9, on '1' 10, on '.' 11,
    onRange '0' '1' 12, on '\n' 13 [.httpVersion] ++ on '\r' 17 [.httpVersion],
    -- 13: the lines of the header
    on '\n' 348 [.startField, .done] ++ on '\r' 18 [.startField] ++ onToken 14 [.startField],
    on ':' 15 [.writeField] ++ onToken 14,
    on '\t' 15 [.mark] ++ on ' ' 15 [.mark] ++ on '\n' 13 [.mark, .writeValue] ++
      on '\r' 17 [.mark, .writeValue] ++ onContent 16 [.mark],
    on '\n' 13 [.writeValue] ++ on '\r' 17 [.writeValue] ++ onContent 16,
    on '\n' 13, on '\n' 348 [.done] ++ on ':' 15 [.writeField] ++ onToken 14,
    -- 19: a path without a scheme
    endPath ++ on '/' 26 ++ on '%' 24 ++ on '@' 19 ++ onPlain relaxed 19,
    -- 20: the fragment
    on ' ' 4 [.mark, .fragment] ++ on '%' 22 [.mark] ++ onQuery relaxed 21 [.mark],
    on ' ' 4 [.fragment] ++ on '%' 22 ++ onQuery relaxed 21] ++ escape 23 21 ++ escape 25 19 ++
    -- 26: the path
    [endPath ++ on '/' 26 ++ on '%' 27 ++ onPchar relaxed 26] ++ escape 28 26 ++
    -- 29: the query
    [on ' ' 4 [.startQuery, .queryString, .requestUri] ++
      on '#' 20 [.startQuery, .queryString, .requestUri] ++ on '%' 31 [.startQuery] ++
      onQuery relaxed 30 [.startQuery],
    on ' ' 4 [.queryString, .requestUri] ++ on '#' 20 [.queryString, .requestUri] ++ on '%' 31 ++
      onQuery relaxed 30] ++ escape 32 30 ++
    [endPath ++ on '/' 34 ++ on '%' 27 ++ onPchar relaxed 26] ++
    authority relaxed 0 (endPath ++ on '/' 26) ++
    -- 173: the scheme
    [endPath ++ on '/' 26 ++ on '%' 24 ++ on ':' 174 ++ on '+' 173 ++ onRange '-' '.' 173 ++
      onDigit 173 ++ onUpper 173 ++ onLower 173 ++ on '@' 19 ++ onPlain relaxed 19,
    endPath [.mark] ++ on '/' 33 [.mark] ++ on '%' 27 [.mark] ++ onPchar relaxed 26 [.mark]] ++
    -- 175: the method, of at most twenty characters
    (List.range' 176 18).map inMethod ++ [on ' ' 3 [.requestMethod],
    -- 194: an XML message
    onRange '-' '.' 195 ++ onDigit 195 ++ onUpper 195 ++ onLower 195,
    onRange '-' '.' 195 ++ onDigit 195 ++ onUpper 195 ++ onLower 195 ++
      onBytes 9 13 196 [.requestPath] ++ on ' ' 196 [.requestPath] ++ on '/' 196 [.requestPath] ++
      on '>' 196 [.requestPath],
    on '>' 197 ++ onBytes 0 255 196,
    onBytes 0 0 349 [.xml, .done] ++ on '>' 197 ++ onBytes 1 255 196,
    -- 198: a JSON message
    on ' ' 199 [.requestPath] ++ on '/' 208 ++ on '%' 203 ++ on '@' 202 ++ onPlain relaxed 202,
    on '{' 200 [.mark], on '}' 201 ++ onBytes 0 255 200,
    onBytes 0 0 349 [.json, .done] ++ on '}' 201 ++ onBytes 1 255 200,
    on ' ' 199 [.requestPath] ++ on '/' 205 ++ on '%' 203 ++ on '@' 202 ++ onPlain relaxed 202] ++
    escape 204 202 ++
    [on ' ' 199 [.requestPath] ++ on '/' 205 ++ on '%' 206 ++ onPchar relaxed 205] ++
    escape 207 205 ++
    [on ' ' 199 [.requestPath] ++ on '/' 209 ++ on '%' 206 ++ onPchar relaxed 205] ++
    authority relaxed 175 (on ' ' 199 [.requestPath] ++ on '/' 205) ++
    -- 348: behind a request, 349: behind a message
    [on ':' 15 [.writeField] ++ onToken 14, []]

end RequestMachine

/-- The machine of http11_parser.cc. `uri_relaxed` is what the memory holds: nothing sets it. -/
def requestMachine (relaxed : Bool) : RequestTable := Table.ofRows (RequestMachine.rows relaxed)

end HxSylar
