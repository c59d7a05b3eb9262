import Mathlib.Data.List.TakeWhile
import HxSylar.HttpParser

namespace HxSylar
open Lib

inductive HttpVersion
  | http10 | http11
  deriving DecidableEq, Repr

def HttpVersion.text : HttpVersion → Text
  | .http10 => Lib.text "HTTP/1.0"
  | .http11 => Lib.text "HTTP/1.1"

def HttpVersion.number : HttpVersion → UInt8
  | .http10 => 0x10
  | .http11 => 0x11

/-- The callbacks of the request machine, with the slices they get; that of the method reads the
buffer from the method on. -/
inductive RequestCall
  | method (at_ : Text)
  | path (value : Text)
  | query (value : Text)
  | uri (value : Text)
  | fragment (value : Text)
  | version (value : Text)
  | field (name value : Text)
  | headerDone (value : Text)

/-- The elements of one request. There is not always a query or a fragment. `method` is the text
from the method on. -/
structure RequestElements where
  method : Text
  path : Text
  query : Option Text
  uri : Text
  fragment : Option Text
  version : HttpVersion
  fields : List (Text × Text)
  rest : Text

/-- The callbacks in the order of the grammar (http11_parser.rl:193-220). -/
def RequestElements.calls (e : RequestElements) : List RequestCall :=
  [RequestCall.method e.method, RequestCall.path e.path] ++ e.query.toList.map RequestCall.query ++
    [RequestCall.uri e.uri] ++ e.fragment.toList.map RequestCall.fragment ++
    [RequestCall.version e.version.text] ++ e.fields.map (fun f => RequestCall.field f.1 f.2) ++
    [RequestCall.headerDone e.rest]

/-- The names are the same up to the case of their letters. -/
def CaseVariant (name name' : Text) : Prop := name.map toLower = name'.map toLower

instance (name name' : Text) : Decidable (CaseVariant name name') :=
  inferInstanceAs (Decidable (_ = _))

/-- The last value reported for a name in any case. -/
def lastValue (fields : List (Text × Text)) (name : Text) : Option Text :=
  (fields.reverse.find? (fun f => CaseVariant f.1 name)).map Prod.snd

theorem lastValue_concat (fields : List (Text × Text)) (f : Text × Text) (name : Text) :
    lastValue (fields ++ [f]) name =
      if CaseVariant f.1 name then some f.2 else lastValue fields name := by
  simp only [lastValue, List.reverse_append, List.reverse_singleton, List.singleton_append,
    List.find?_cons]
  by_cases h : CaseVariant f.1 name
  · simp [h]
  · simp [h]

theorem lastValue_variant {fields : List (Text × Text)} {name name' : Text}
    (h : CaseVariant name name') : lastValue fields name = lastValue fields name' := by
  have hsame : ∀ f : Text × Text, CaseVariant f.1 name ↔ CaseVariant f.1 name' := by
    intro f
    rw [CaseVariant, CaseVariant, h]
  simp only [lastValue, hsame]

/-- The last value of a name was reported with a variant of it. -/
theorem lastValue_some {fields : List (Text × Text)} {name value : Text}
    (h : lastValue fields name = some value) : ∃ f ∈ fields, CaseVariant f.1 name := by
  obtain ⟨f, hf, _⟩ := Option.map_eq_some_iff.mp h
  refine ⟨f, List.mem_reverse.mp (List.mem_of_find?_eq_some hf), ?_⟩
  simpa using List.find?_some hf

theorem lastValue_of_mem {fields : List (Text × Text)} {f : Text × Text} (hf : f ∈ fields) :
    ∃ value, lastValue fields f.1 = some value := by
  cases h : lastValue fields f.1 with
  | some value => exact ⟨value, rfl⟩
  | none =>
    have hnone := List.find?_eq_none.mp (Option.map_eq_none_iff.mp h) f (List.mem_reverse.mpr hf)
    simp [CaseVariant] at hnone

/-- If the last value of every field is empty, so is that of every name. -/
theorem lastValue_none_or_nil {fields : List (Text × Text)}
    (h : ∀ f ∈ fields, lastValue fields f.1 = some []) (name : Text) :
    lastValue fields name = none ∨ lastValue fields name = some [] := by
  cases hvalue : lastValue fields name with
  | none => exact .inl rfl
  | some value =>
    obtain ⟨f, hf, hvariant⟩ := lastValue_some hvalue
    rw [← lastValue_variant hvariant, h f hf] at hvalue
    exact .inr hvalue.symm

namespace HttpRequestParser

/-- The callback that the constructor installs (http_parser.cc:113-124). -/
def report (p : HttpRequestParser) : RequestCall → HttpRequestParser
  | .method at_ => p.onRequestMethod at_
  | .path value => p.onRequestPath value
  | .query value => p.onRequestQuery value
  | .uri value => p.onRequestUri value
  | .fragment value => p.onRequestFragment value
  | .version value => p.onRequestVersion value
  | .field name value => p.onRequestHttpField name value
  | .headerDone value => p.onRequestHeaderDone value

/-- The parser after all callbacks of one request. -/
def parsed (e : RequestElements) : HttpRequestParser := e.calls.foldl report {}

/-- The parsed request is the one that was sent. -/
structure Faithful (e : RequestElements) (p : HttpRequestParser) : Prop where
  path : p.data.path = e.path
  query : p.data.query = e.query.getD []
  fragment : p.data.fragment = e.fragment.getD []
  version : p.data.version = e.version.number
  header : ∀ name, p.data.getHeader name = (lastValue e.fields name).getD []
  contentLength : p.getContentLength =
    ((lastValue e.fields (text "content-length")).bind lexicalCastU64).getD 0

theorem report_fields (fields : List (Text × Text)) (p : HttpRequestParser) :
    (fields.map (fun f => RequestCall.field f.1 f.2)).foldl report p = p := by
  induction fields with
  | nil => rfl
  | cons f fields ih => exact ih

/-- Of the elements only path, query and fragment are recorded, and no method is recognised. -/
theorem parsed_eq (e : RequestElements) : parsed e =
    { data := { path := e.path, query := e.query.getD [], fragment := e.fragment.getD [] }
      error := 1000 } := by
  simp only [parsed, RequestElements.calls, List.foldl_append, report_fields]
  cases e.query with
  | none =>
    cases e.fragment with
    | none => rfl
    | some fragment => rfl
  | some query =>
    cases e.fragment with
    | none => rfl
    | some fragment => rfl

/-- The parsed request is faithful exactly if its version is the default one and every header
field reported last under its name is empty. -/
theorem parsed_faithful_iff (e : RequestElements) :
    Faithful e (parsed e) ↔
      e.version = .http11 ∧ ∀ f ∈ e.fields, lastValue e.fields f.1 = some [] := by
  have hdata := congrArg HttpRequestParser.data (parsed_eq e)
  have hheader : ∀ name, (parsed e).data.getHeader name = [] := by
    intro name
    rw [hdata]
    rfl
  have hlength : (parsed e).getContentLength = 0 := by
    rw [getContentLength, hdata]
    rfl
  constructor
  · intro h
    have hversion := h.version
    rw [hdata] at hversion
    refine ⟨?_, ?_⟩
    · cases hv : e.version with
      | http10 =>
        rw [hv] at hversion
        cases hversion
      | http11 => rfl
    · intro f hf
      obtain ⟨value, hvalue⟩ := lastValue_of_mem hf
      have hrecorded := h.header f.1
      rw [hheader, hvalue] at hrecorded
      rw [hvalue, hrecorded]
      rfl
  · rintro ⟨hversion, hempty⟩
    have hlast := lastValue_none_or_nil hempty
    refine ⟨by rw [hdata], by rw [hdata], by rw [hdata], by rw [hdata, hversion]; rfl, ?_, ?_⟩
    · intro name
      rw [hheader]
      rcases hlast name with h | h
      · rw [h]
        rfl
      · rw [h]
        rfl
    · rw [hlength]
      rcases hlast (text "content-length") with h | h
      · rw [h]
        rfl
      · rw [h]
        rfl

/-- What an action reports. -/
def call (buffer : Text) (pos : Nat) (p : HttpRequestParser) : RequestAct → Option RequestCall
  | .writeValue => some (.field (buffer.substr p.fieldStart p.fieldLen)
      (buffer.substr p.mark (pos - p.mark)))
  | .requestMethod => some (.method (buffer.drop p.mark))
  | .requestUri => some (.uri (buffer.substr p.mark (pos - p.mark)))
  | .fragment => some (.fragment (buffer.substr p.mark (pos - p.mark)))
  | .queryString => some (.query (buffer.substr p.queryStart (pos - p.queryStart)))
  | .httpVersion => some (.version (buffer.substr p.mark (pos - p.mark)))
  | .requestPath => some (.path (buffer.substr p.mark (pos - p.mark)))
  | .done => some (.headerDone (buffer.drop (pos + 1)))
  | .mark | .startField | .writeField | .startQuery | .xml | .json => none

def collect (buffer : Text) (pos : Nat) (a : RequestAct)
    (r : HttpRequestParser × List RequestCall) : HttpRequestParser × List RequestCall :=
  (act buffer pos a r.1, r.2 ++ (call buffer pos r.1 a).toList)

/-- The callbacks of one call of `execute` on a new parser. -/
def calls (T : RequestTable) (buffer : Text) : List RequestCall :=
  (T.run RequestAct.stops (collect buffer) 1 0 buffer ({}, [])).out.2

theorem report_congr {p q : HttpRequestParser} (c : RequestCall) (hdata : p.data = q.data)
    (herror : p.error = q.error) :
    (p.report c).data = (q.report c).data ∧ (p.report c).error = (q.report c).error := by
  cases c with
  | method at_ => exact ⟨hdata, rfl⟩
  | path value => exact ⟨by simp only [report, onRequestPath, hdata], herror⟩
  | query value => exact ⟨by simp only [report, onRequestQuery, hdata], herror⟩
  | fragment value => exact ⟨by simp only [report, onRequestFragment, hdata], herror⟩
  | _ => exact ⟨hdata, herror⟩

/-- An action moves an offset or is a callback. -/
theorem act_call (buffer : Text) (pos : Nat) (a : RequestAct) (p : HttpRequestParser) :
    (act buffer pos a p).data = ((call buffer pos p a).toList.foldl report p).data ∧
      (act buffer pos a p).error = ((call buffer pos p a).toList.foldl report p).error := by
  cases a <;> exact ⟨rfl, rfl⟩

/-- The parser has recorded what the callbacks do. -/
def Records (cs : List RequestCall) (p : HttpRequestParser) : Prop :=
  p.data = (cs.foldl report {}).data ∧ p.error = (cs.foldl report {}).error

theorem Records.act {cs : List RequestCall} {p : HttpRequestParser} (h : Records cs p)
    (buffer : Text) (pos : Nat) (a : RequestAct) :
    Records (cs ++ (call buffer pos p a).toList) (HttpRequestParser.act buffer pos a p) := by
  obtain ⟨hdata, herror⟩ := act_call buffer pos a p
  rw [Records, List.foldl_append, hdata, herror]
  cases call buffer pos p a with
  | none => exact h
  | some c => exact report_congr c h.1 h.2

/-- `execute` on a header in one buffer does what its callbacks do. -/
theorem execute_records (T : RequestTable) (buffer : Text) :
    Records (calls T buffer) (execute T {} buffer).1 := by
  have hstep : ∀ pos a (r : HttpRequestParser × List RequestCall) p, r.1 = p ∧ Records r.2 p →
      (collect buffer pos a r).1 = act buffer pos a p ∧
        Records (collect buffer pos a r).2 (act buffer pos a p) := by
    rintro pos a ⟨_, cs⟩ p ⟨rfl, h⟩
    exact ⟨rfl, h.act buffer pos a⟩
  have hend : (T.run RequestAct.stops (collect buffer) 1 0 buffer ({}, [])).out.1 =
        (T.run RequestAct.stops (act buffer) 1 0 buffer {}).out ∧
      Records (calls T buffer) (T.run RequestAct.stops (act buffer) 1 0 buffer {}).out :=
    Table.run_paired (R := fun (r : HttpRequestParser × List RequestCall) p =>
      r.1 = p ∧ Records r.2 p) hstep buffer ⟨rfl, rfl, rfl⟩
  rw [execute]
  split
  · rename_i hempty
    subst hempty
    exact ⟨rfl, rfl⟩
  · exact hend.2

/-- The request of tests/test_http_parser.cc:5-9. -/
def testRequest : RequestElements where
  method := text "POST / HTTP/1.1\r\nHost: www.sylar.top\r\nContent-Length: 10\r\n\r\n1234567890"
  path := text "/"
  query := none
  uri := text "/"
  fragment := none
  version := .http11
  fields := [(text "Host", text "www.sylar.top"), (text "Content-Length", text "10")]
  rest := text "1234567890"

/-- Its length is not recorded. -/
theorem testRequest_not_faithful : ¬∀ e : RequestElements, Faithful e (parsed e) := by
  intro hall
  have hlength := (hall testRequest).contentLength
  exact absurd hlength (by decide)

end HttpRequestParser

theorem caseInsensitiveLess_compares :
    OrderedMap.Compares caseInsensitiveLess (fun name => name.cstr.map toLower) := by
  intro name name'
  rw [caseInsensitiveLess, decide_eq_true_iff]

theorem cstr_eq_self {t : Text} (h : 0 ∉ t) : t.cstr = t := by
  rw [Text.cstr, List.takeWhile_eq_self_iff]
  intro b hb
  simp only [bne_iff_ne, ne_eq]
  rintro rfl
  exact h hb

/-- The fields are recorded for a response as they should be for a request. -/
theorem HttpResponseParser.getHeader_fields {fields : List (Text × Text)} {name : Text}
    (hfields : ∀ f ∈ fields, f.1 ≠ [] ∧ 0 ∉ f.1) (hname : 0 ∉ name) :
    (fields.foldl (fun p f => p.onResponseHttpField f.1 f.2) ({} : HttpResponseParser)).data.getHeader
      name = (lastValue fields name).getD [] := by
  induction fields using List.reverseRecOn with
  | nil => rfl
  | append_singleton fields f ih =>
    obtain ⟨hne, hnull⟩ := hfields f (by simp)
    have hrest := ih (fun g hg => hfields g (by simp [hg]))
    rw [HttpResponse.getHeader, Headers.get] at hrest ⊢
    rw [List.foldl_append, List.foldl_cons, List.foldl_nil, lastValue_concat, onResponseHttpField,
      if_neg (by simpa using hne)]
    have himage : f.1.cstr.map toLower = name.cstr.map toLower ↔ CaseVariant f.1 name := by
      rw [cstr_eq_self hnull, cstr_eq_self hname, CaseVariant]
    by_cases hvariant : CaseVariant f.1 name
    · rw [if_pos hvariant, HttpResponse.setHeader,
        caseInsensitiveLess_compares.find_assign _ _ (himage.mpr hvariant)]
    · rw [if_neg hvariant, ← hrest, HttpResponse.setHeader,
        caseInsensitiveLess_compares.find_assign_ne _ _ (fun h => hvariant (himage.mp h))]

/-- The method whose wire name a token is. -/
def methodNamed (token : Text) : Option (Fin 34) :=
  (List.finRange 34).find? fun num => httpMethodToString num == token

/-- No two methods have the same wire name. -/
theorem httpMethodToString_injective {num num' : Fin 34}
    (h : httpMethodToString num = httpMethodToString num') : num = num' := by
  have hall : ∀ i j : Fin 34, httpMethodToString i = httpMethodToString j → i = j := by decide
  exact hall num num' h

theorem methodNamed_name {token : Text} {num : Fin 34} (h : methodNamed token = some num) :
    httpMethodToString num = token := by
  have hfound := List.find?_some h
  exact beq_iff_eq.mp hfound

theorem methodNamed_eq_some {token : Text} {num : Fin 34} :
    methodNamed token = some num ↔ httpMethodToString num = token := by
  constructor
  · exact methodNamed_name
  · intro h
    cases hfind : methodNamed token with
    | none =>
      have hnone := List.find?_eq_none.mp hfind num (List.mem_finRange num)
      rw [h] at hnone
      simp at hnone
    | some other =>
      rw [httpMethodToString_injective ((methodNamed_name hfind).trans h.symm)]

theorem methodNamed_eq_none {token : Text} :
    methodNamed token = none ↔ ∀ num, httpMethodToString num ≠ token := by
  rw [Option.eq_none_iff_forall_ne_some]
  exact forall_congr' fun num => not_congr methodNamed_eq_some

/-- The callback stores the method that the token names, sets error 1000 where it names none, and
`StringToMethod` says the same of the token alone. -/
def RecognisesMethod (p : HttpRequestParser) (token rest : Text) : Prop :=
  p.onRequestMethod (token ++ byte ' ' :: rest) =
      (methodNamed token).elim { p with error := 1000 }
        (fun num => { p with data := { p.data with method := .method num } }) ∧
    stringToMethod token = (methodNamed token).elim .invalidMethod .method

/-- Every token is taken for an unknown method, so only the unknown ones are recognised. -/
theorem recognisesMethod_iff (p : HttpRequestParser) (token rest : Text) :
    RecognisesMethod p token rest ↔ ∀ num, httpMethodToString num ≠ token := by
  rw [← methodNamed_eq_none]
  unfold RecognisesMethod
  cases methodNamed token with
  | none => simp [HttpRequestParser.onRequestMethod, charsToHttpMethod, stringToMethod]
  | some num => simp [stringToMethod]

/-- `GET / HTTP/1.1`. -/
theorem get_not_recognised :
    ¬ RecognisesMethod {} (text "GET") (text "/ HTTP/1.1\r\n\r\n") := by
  intro h
  have hname : methodNamed (text "GET") = some 1 := by decide
  have hmethod := h.2
  rw [hname] at hmethod
  revert hmethod
  decide

end HxSylar
