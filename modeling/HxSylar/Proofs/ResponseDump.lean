import HxSylar.Proofs.HttpBuffer
import HxSylar.Proofs.HttpElements
import HxSylar.Proofs.HttpFragments
import HxSylar.Proofs.ResponseHead

namespace HxSylar
open Lib ResponseMachine

/-- A name and a value that come back as they were written. -/
structure Writable (h : Text × Text) : Prop where
  name_ne : h.1 ≠ []
  name_token : ∀ b ∈ h.1, isToken b = true
  value_inLine : ∀ b ∈ h.2, inLine b = true
  value_head : ∀ b ∈ h.2.head?, isLineSpace b = false
  value_ne : h.2 = [] → colonState (h.1.map toLower) = 22

/-- The line of a header as `dump` writes it. -/
def HeaderField.ofPair (h : Text × Text) (hw : Writable h) : HeaderField where
  name := h.1
  blanks := [32]
  value := h.2
  name_ne := hw.name_ne
  name_token := hw.name_token
  blanks_blank := by simp [isLineSpace]
  value_inLine := hw.value_inLine
  value_head := hw.value_head
  value_ne := hw.value_ne

namespace HttpResponse

/-- The value of the connection line. -/
def connectionValue (close : Bool) : Text := text (if close then "close" else "keep-alive")

/-- The headers that `dump` writes, in order. -/
def written (r : HttpResponse) (cookies : List Text) (websocket : Bool) : List (Text × Text) :=
  r.headers.filter (fun h => websocket || !isConnection h.1) ++
    cookies.map (fun c => (text "Set-Cookie", c)) ++
    (if websocket then [] else [(text "connection", connectionValue r.close)]) ++
    if r.body = [] then [] else [(text "content-length", Text.ofNat r.body.length)]

/-- The reason that `dump` writes. -/
def writtenReason (r : HttpResponse) : Text :=
  if r.reason = [] then httpStatusToString r.status else r.reason

/-- What `dump` writes is the header of a response. -/
structure Sendable (r : HttpResponse) (cookies : List Text) : Prop where
  version : r.version = 0x10 ∨ r.version = 0x11
  status : 0 ≤ r.status ∧ r.status ≤ 2147483647
  reason : ∀ b ∈ r.reason, inLine b = true
  headers : ∀ h ∈ r.headers, Writable h
  sorted : OrderedMap.Sorted caseInsensitiveLess r.headers
  lines : ∀ c ∈ cookies, (∀ b ∈ c, inLine b = true) ∧ ∀ b ∈ c.head?, isLineSpace b = false

variable {r : HttpResponse} {cookies : List Text} {websocket : Bool}

theorem digit_inLine {b : UInt8} (hb : isDigit b = true) :
    inLine b = true ∧ isLineSpace b = false := by
  revert hb
  apply forall_byte (p := fun b => isDigit b = true → inLine b = true ∧ isLineSpace b = false)
  decide +kernel

theorem Sendable.written (h : r.Sendable cookies) : ∀ e ∈ r.written cookies websocket, Writable e := by
  intro e he
  rw [HttpResponse.written, List.mem_append, List.mem_append, List.mem_append] at he
  have hcookie : text "Set-Cookie" ≠ [] ∧ (∀ b ∈ text "Set-Cookie", isToken b = true) ∧
      colonState ((text "Set-Cookie").map toLower) = 22 := by decide +kernel
  have hlength : text "content-length" ≠ [] ∧ ∀ b ∈ text "content-length", isToken b = true := by
    decide +kernel
  rcases he with ((he | he) | he) | he
  · exact h.headers e (List.mem_of_mem_filter he)
  · obtain ⟨c, hc, rfl⟩ := List.mem_map.mp he
    obtain ⟨hline, hhead⟩ := h.lines c hc
    exact ⟨hcookie.1, hcookie.2.1, hline, hhead, fun _ => hcookie.2.2⟩
  · split at he
    · cases he
    · rw [List.mem_singleton.mp he]
      cases r.close <;>
        exact ⟨by decide +kernel, by decide +kernel, by decide +kernel, by decide +kernel,
          by decide +kernel⟩
  · split at he
    · cases he
    · rw [List.mem_singleton.mp he]
      have hdigits := List.all_eq_true.mp (Text.ofNat_all_isDigit r.body.length)
      exact ⟨hlength.1, hlength.2, fun b hb => (digit_inLine (hdigits b hb)).1,
        fun b hb => (digit_inLine (hdigits b (List.mem_of_mem_head? hb))).2,
        fun hnil => absurd hnil (Text.ofNat_ne_nil _)⟩

theorem httpStatusToString_inLine (s : Int) :
    httpStatusToString s ≠ [] ∧ ∀ b ∈ httpStatusToString s, inLine b = true := by
  have hlines : httpStatusStrings.all (fun e => !(text e.2).isEmpty && (text e.2).all inLine) = true :=
    by decide +kernel
  have hall : ∀ e ∈ httpStatusStrings, text e.2 ≠ [] ∧ ∀ b ∈ text e.2, inLine b = true := by
    intro e he
    have hline := List.all_eq_true.mp hlines e he
    rw [Bool.and_eq_true, Bool.not_eq_true', List.isEmpty_eq_false_iff, List.all_eq_true] at hline
    exact hline
  rw [httpStatusToString]
  cases hlookup : httpStatusStrings.lookup s with
  | none => decide +kernel
  | some str =>
    obtain ⟨_, _, heq, _⟩ := List.lookup_eq_some_iff.mp hlookup
    exact hall (s, str) (by rw [heq]; simp)

theorem writtenReason_inLine (h : r.Sendable cookies) :
    r.writtenReason ≠ [] ∧ ∀ b ∈ r.writtenReason, inLine b = true := by
  rw [writtenReason]
  split
  · exact httpStatusToString_inLine _
  · rename_i hne
    exact ⟨hne, h.reason⟩

/-- The header that `dump` writes. -/
def Sendable.head (h : r.Sendable cookies) (websocket : Bool) : ResponseHead where
  version := r.version
  status := r.status.toNat
  reason := r.writtenReason
  fields := (r.written cookies websocket).pmap HeaderField.ofPair h.written
  version_known := h.version
  status_le := by have := h.status; omega
  reason_ne := (writtenReason_inLine h).1
  reason_inLine := (writtenReason_inLine h).2

theorem flatMap_ofPair {pairs : List (Text × Text)} (h : ∀ e ∈ pairs, Writable e) :
    (pairs.pmap HeaderField.ofPair h).flatMap HeaderField.text =
      pairs.flatMap (fun e => headerLine e ++ crlf) := by
  induction pairs with
  | nil => rfl
  | cons e pairs ih =>
    rw [List.pmap_cons, List.flatMap_cons, List.flatMap_cons, ih]
    congr 1
    simp [HeaderField.text, HeaderField.ofPair, headerLine, text, byte, crlf]

theorem dumpHeaders_eq_written (headers : Headers) (websocket : Bool) :
    dumpHeaders headers websocket = (headers.filter (fun h => websocket || !isConnection h.1)).flatMap
      (fun e => headerLine e ++ crlf) := by
  rw [dumpHeaders]
  induction headers with
  | nil => rfl
  | cons h headers ih =>
    rw [List.flatMap_cons, ih, List.filter_cons]
    cases websocket <;> cases isConnection h.1 <;> rfl

theorem flatMap_written (r : HttpResponse) (cookies : List Text) (websocket : Bool) :
    (r.written cookies websocket).flatMap (fun e => headerLine e ++ crlf) ++ crlf ++ r.body =
      dumpHeaders r.headers websocket ++
        cookies.flatMap (fun c => text "Set-Cookie: " ++ c ++ crlf) ++
        dumpConnection r.close websocket ++ dumpBody r.body := by
  have hcookies : (cookies.map (fun c => (text "Set-Cookie", c))).flatMap
      (fun e => headerLine e ++ crlf) = cookies.flatMap (fun c => text "Set-Cookie: " ++ c ++ crlf) := by
    rw [List.flatMap_map]
    rfl
  have hconnection : (if websocket then [] else
      [(text "connection", connectionValue r.close)]).flatMap (fun e => headerLine e ++ crlf) =
        dumpConnection r.close websocket := by
    cases websocket with
    | true => rfl
    | false => simp [dumpConnection, connectionLine, connectionValue, headerLine, text, byte]
  have hbody : (if r.body = [] then [] else
      [(text "content-length", Text.ofNat r.body.length)]).flatMap
        (fun e => headerLine e ++ crlf) ++ crlf ++ r.body = dumpBody r.body := by
    rw [dumpBody]
    by_cases h : r.body = []
    · rw [if_pos h, if_pos h, h]
      rfl
    · rw [if_neg h, if_neg h]
      simp [contentLengthLine, headerLine, text, byte]
  rw [written, List.flatMap_append, List.flatMap_append, List.flatMap_append,
    ← dumpHeaders_eq_written, hcookies, hconnection, ← hbody]
  simp only [List.append_assoc]

/-- `dump` writes the header and the body. -/
theorem Sendable.dump_eq (h : r.Sendable cookies) (websocket : Bool) :
    r.dump cookies websocket = (h.head websocket).text ++ r.body := by
  have hstatus : (h.head websocket).status = (r.status % 2 ^ 32).toNat := by
    have := h.status
    rw [head, Int.emod_eq_of_lt (by omega) (by omega)]
  have hline : (h.head websocket).startLine = r.startLine ++ crlf := by
    rw [ResponseHead.startLine, hstatus]
    simp [head, startLine, writtenReason, crlf, text, byte]
  have hfields : (h.head websocket).fields.flatMap HeaderField.text =
      (r.written cookies websocket).flatMap (fun e => headerLine e ++ crlf) := flatMap_ofPair h.written
  rw [ResponseHead.text, hline, hfields]
  change _ = r.startLine ++ crlf ++ (_ ++ crlf) ++ r.body
  rw [List.append_assoc (r.startLine ++ crlf), flatMap_written, dump]
  simp only [List.append_assoc]

end HttpResponse

section Gathered
variable {fields : List HeaderField} {g : Gathered}

/-- The fields of a header as pairs. -/
def HeaderField.pair (f : HeaderField) : Text × Text := (f.name, f.value)

theorem gathered_data (fields : List HeaderField) (g : Gathered) :
    (fields.foldl (fun g f => f.gather g) g).data = { g.data with
      headers := (fields.map HeaderField.pair).foldl
        (fun m f => OrderedMap.assign caseInsensitiveLess m f.1 f.2) g.data.headers } := by
  induction fields generalizing g with
  | nil => rfl
  | cons f fields ih =>
    rw [List.foldl_cons, ih]
    rfl

theorem gathered_chunked (fields : List HeaderField) (g : Gathered) :
    (fields.foldl (fun g f => f.gather g) g).chunked =
      (g.chunked || (fields.map HeaderField.pair).any (fun f => saysChunked f.1 f.2)) := by
  induction fields generalizing g with
  | nil => simp
  | cons f fields ih =>
    rw [List.foldl_cons, ih, HeaderField.gather, Bool.or_assoc]
    rfl

theorem gathered_closes (fields : List HeaderField) (g : Gathered) :
    (fields.foldl (fun g f => f.gather g) g).closes =
      (g.closes || (fields.map HeaderField.pair).any (fun f => saysClose f.1 f.2)) := by
  induction fields generalizing g with
  | nil => simp
  | cons f fields ih =>
    rw [List.foldl_cons, ih, HeaderField.gather, Bool.or_assoc]
    rfl

end Gathered

theorem token_ne_null {name : Text} (h : ∀ b ∈ name, isToken b = true) : 0 ∉ name := fun h0 =>
  absurd (h 0 h0) (by decide)

/-- What is assigned last is found. -/
theorem find_assigned {fields : List (Text × Text)} (hfields : ∀ f ∈ fields, 0 ∉ f.1) {name : Text}
    (hname : 0 ∉ name) :
    OrderedMap.find caseInsensitiveLess (fields.foldl
      (fun m f => OrderedMap.assign caseInsensitiveLess m f.1 f.2) []) name =
        lastValue fields name := by
  induction fields using List.reverseRecOn with
  | nil => rfl
  | append_singleton fields f ih =>
    have hrest := ih (fun g hg => hfields g (by simp [hg]))
    have hnull := hfields f (by simp)
    have himage : f.1.cstr.map toLower = name.cstr.map toLower ↔ CaseVariant f.1 name := by
      rw [cstr_eq_self hnull, cstr_eq_self hname, CaseVariant]
    rw [List.foldl_append, List.foldl_cons, List.foldl_nil, lastValue_concat]
    by_cases hvariant : CaseVariant f.1 name
    · rw [if_pos hvariant, caseInsensitiveLess_compares.find_assign _ _ (himage.mpr hvariant)]
    · rw [if_neg hvariant, ← hrest,
        caseInsensitiveLess_compares.find_assign_ne _ _ (fun h => hvariant (himage.mp h))]

theorem lastValue_append (xs ys : List (Text × Text)) (name : Text) :
    lastValue (xs ++ ys) name = (lastValue ys name).or (lastValue xs name) := by
  rw [lastValue, List.reverse_append, List.find?_append, lastValue, lastValue]
  cases ys.reverse.find? (fun f => decide (CaseVariant f.1 name)) <;> rfl

theorem lastValue_none {fields : List (Text × Text)} {name : Text}
    (h : ∀ f ∈ fields, ¬CaseVariant f.1 name) : lastValue fields name = none := by
  rw [lastValue, Option.map_eq_none_iff, List.find?_eq_none]
  intro f hf
  simpa using h f (List.mem_reverse.mp hf)

/-- What has another name may be left out. -/
theorem lastValue_filter {fields : List (Text × Text)} {p : Text × Text → Bool} {name : Text}
    (h : ∀ f ∈ fields, CaseVariant f.1 name → p f = true) :
    lastValue (fields.filter p) name = lastValue fields name := by
  induction fields using List.reverseRecOn with
  | nil => rfl
  | append_singleton fields f ih =>
    have hrest := ih (fun g hg => h g (List.mem_append_left _ hg))
    rw [List.filter_append, lastValue_append, hrest, lastValue_concat]
    by_cases hvariant : CaseVariant f.1 name
    · rw [if_pos hvariant, List.filter_singleton, h f (by simp) hvariant, cond_true,
        ← List.nil_append [f], lastValue_concat, if_pos hvariant]
      rfl
    · have hnone : lastValue ([f].filter p) name = none :=
        lastValue_none (fun g hg => by rwa [List.mem_singleton.mp (List.mem_of_mem_filter hg)])
      rw [if_neg hvariant, hnone, Option.none_or]

/-- In a map no name is there twice, and the last value is the only one. -/
theorem lastValue_sorted {m : Headers} (hm : OrderedMap.Sorted caseInsensitiveLess m)
    (hnames : ∀ f ∈ m, 0 ∉ f.1) {name : Text} (hname : 0 ∉ name) :
    lastValue m name = OrderedMap.find caseInsensitiveLess m name := by
  induction m with
  | nil => rfl
  | cons e m ih =>
    obtain ⟨hfirst, hm⟩ := List.pairwise_cons.mp hm
    have hnull := hnames e List.mem_cons_self
    have hrest := ih hm (fun f hf => hnames f (List.mem_cons_of_mem _ hf))
    have himage : ∀ {n : Text}, 0 ∉ n → n.cstr.map toLower = n.map toLower := fun hn => by
      rw [cstr_eq_self hn]
    have hsame : OrderedMap.same caseInsensitiveLess e.1 name = true ↔ CaseVariant e.1 name := by
      rw [caseInsensitiveLess_compares.same_iff, himage hnull, himage hname, CaseVariant]
    have hcons : lastValue (e :: m) name =
        (lastValue m name).or (if CaseVariant e.1 name then some e.2 else none) :=
      (lastValue_append [e] m name).trans (congrArg _ (lastValue_concat [] e name))
    rw [hcons, OrderedMap.find_cons e.1 name e.2 m, hrest]
    by_cases hvariant : CaseVariant e.1 name
    · have hnone : lastValue m name = none := by
        refine lastValue_none (fun f hf hf' => ?_)
        refine caseInsensitiveLess_compares.ne_of_less (hfirst f hf) ?_
        rw [himage hnull, himage (hnames f (List.mem_cons_of_mem _ hf))]
        exact hvariant.trans hf'.symm
      rw [if_pos (hsame.mpr hvariant), if_pos hvariant, ← hrest, hnone]
      rfl
    · rw [if_neg (fun h => hvariant (hsame.mp h)), if_neg hvariant, Option.or_none]

/-- What of a response that is sent a parser has to have. -/
structure Arrived (r : HttpResponse) (cookies : List Text) (websocket : Bool) (m : HttpResponse) :
    Prop where
  status : m.status = r.status
  version : m.version = r.version
  reason : m.reason = r.writtenReason
  header : ∀ name, 0 ∉ name → ¬CaseVariant (text "content-length") name →
    ¬CaseVariant (text "connection") name → ¬CaseVariant (text "set-cookie") name →
      m.getHeader name = r.getHeader name
  length : r.body ≠ [] → m.getHeader (text "content-length") = Text.ofNat r.body.length
  connection : websocket = false →
    m.getHeader (text "connection") = HttpResponse.connectionValue r.close
  cookie : ∀ c, cookies.getLast? = some c → m.getHeader (text "set-cookie") = c

namespace HttpResponse
variable {r : HttpResponse} {cookies : List Text} {websocket : Bool}

theorem isConnection_iff {name : Text} (hname : 0 ∉ name) :
    isConnection name = true ↔ CaseVariant (text "connection") name := by
  rw [isConnection, cstr_eq_self hname, beq_iff_eq, CaseVariant, eq_comm]
  have hlower : (text "connection").map toLower = text "connection" := by decide +kernel
  rw [hlower]

/-- The parts of what is written, from the last one on. -/
theorem lastValue_written (r : HttpResponse) (cookies : List Text) (websocket : Bool) (name : Text) :
    lastValue (r.written cookies websocket) name =
      (lastValue (if r.body = [] then [] else [(text "content-length", Text.ofNat r.body.length)])
        name).or
      ((lastValue (if websocket then [] else [(text "connection", connectionValue r.close)]) name).or
        ((lastValue (cookies.map (fun c => (text "Set-Cookie", c))) name).or
          (lastValue (r.headers.filter (fun h => websocket || !isConnection h.1)) name))) := by
  rw [written, lastValue_append, lastValue_append, lastValue_append]

theorem lastValue_if_none {c : Prop} [Decidable c] {n v name : Text} (h : ¬CaseVariant n name) :
    lastValue (if c then [] else [(n, v)]) name = none := by
  apply lastValue_none
  intro g hg
  split at hg
  · cases hg
  · rwa [List.mem_singleton.mp hg]

theorem lastValue_cookies_none {name : Text} (h : ¬CaseVariant (text "set-cookie") name) :
    lastValue (cookies.map (fun c => (text "Set-Cookie", c))) name = none := by
  apply lastValue_none
  rintro _ hf
  obtain ⟨c, _, rfl⟩ := List.mem_map.mp hf
  exact h

theorem Sendable.names (h : r.Sendable cookies) : ∀ f ∈ r.headers, 0 ∉ f.1 := fun f hf =>
  token_ne_null (h.headers f hf).name_token

theorem Sendable.lastValue_header (h : r.Sendable cookies) {name : Text} (hname : 0 ∉ name)
    (hlength : ¬CaseVariant (text "content-length") name)
    (hconnection : ¬CaseVariant (text "connection") name)
    (hcookie : ¬CaseVariant (text "set-cookie") name) :
    lastValue (r.written cookies websocket) name =
      OrderedMap.find caseInsensitiveLess r.headers name := by
  rw [lastValue_written, lastValue_if_none hlength, lastValue_if_none hconnection,
    lastValue_cookies_none hcookie, Option.none_or, Option.none_or, Option.none_or, lastValue_filter,
    lastValue_sorted h.sorted h.names hname]
  intro f hf hvariant
  cases hf : isConnection f.1 with
  | false => simp
  | true =>
    rw [isConnection_iff (h.names f ‹_›)] at hf
    exact absurd (hf.trans hvariant) hconnection

theorem lastValue_length (hbody : r.body ≠ []) :
    lastValue (r.written cookies websocket) (text "content-length") =
      some (Text.ofNat r.body.length) := by
  rw [lastValue_written, if_neg hbody]
  rfl

theorem lastValue_connection :
    lastValue (r.written cookies false) (text "connection") = some (connectionValue r.close) := by
  rw [lastValue_written, lastValue_if_none (by decide +kernel), if_neg Bool.false_ne_true]
  rfl

theorem lastValue_cookie {c : Text} (hc : cookies.getLast? = some c) :
    lastValue (r.written cookies websocket) (text "set-cookie") = some c := by
  obtain ⟨front, rfl⟩ := List.getLast?_eq_some_iff.mp hc
  have hvariant : CaseVariant (text "Set-Cookie") (text "set-cookie") := by decide +kernel
  rw [lastValue_written, lastValue_if_none (by decide +kernel), lastValue_if_none (by decide +kernel),
    Option.none_or, Option.none_or, List.map_append, List.map_singleton, lastValue_concat,
    if_pos hvariant]
  rfl

theorem Sendable.pairs (h : r.Sendable cookies) (websocket : Bool) :
    (h.head websocket).fields.map HeaderField.pair = r.written cookies websocket := by
  rw [head, List.map_pmap]
  exact List.pmap_eq_self.mpr fun _ _ => rfl

/-- The headers that a parser gathers. -/
theorem Sendable.gathered_eq (h : r.Sendable cookies) (websocket : Bool) :
    (h.head websocket).gathered.data = { (h.head websocket).started with
      headers := (r.written cookies websocket).foldl
        (fun m f => OrderedMap.assign caseInsensitiveLess m f.1 f.2) [] } := by
  rw [ResponseHead.gathered, gathered_data, h.pairs]
  rfl

theorem Sendable.find_gathered (h : r.Sendable cookies) (websocket : Bool) {name : Text}
    (hname : 0 ∉ name) :
    OrderedMap.find caseInsensitiveLess (h.head websocket).gathered.data.headers name =
      lastValue (r.written cookies websocket) name := by
  have hnames : ∀ f ∈ r.written cookies websocket, 0 ∉ f.1 := fun f hf =>
    token_ne_null (h.written f hf).name_token
  rw [h.gathered_eq]
  exact find_assigned hnames hname

/-- What a parser gathers of the header has all of the response but the body. -/
theorem Sendable.arrived (h : r.Sendable cookies) (websocket : Bool) :
    Arrived r cookies websocket (h.head websocket).gathered.data := by
  have hget : ∀ name, 0 ∉ name → (h.head websocket).gathered.data.getHeader name =
      (lastValue (r.written cookies websocket) name).getD [] :=
    fun _ hname => congrArg (Option.getD · []) (h.find_gathered websocket hname)
  constructor
  · rw [h.gathered_eq]
    exact Int.toNat_of_nonneg h.status.1
  · rw [h.gathered_eq]
    rfl
  · rw [h.gathered_eq]
    rfl
  · intro name hname hlength hconnection hcookie
    rw [hget name hname, h.lastValue_header hname hlength hconnection hcookie]
    rfl
  · intro hbody
    rw [hget _ (by decide +kernel), lastValue_length hbody]
    rfl
  · rintro rfl
    rw [hget _ (by decide +kernel), lastValue_connection]
    rfl
  · intro c hc
    rw [hget _ (by decide +kernel), lastValue_cookie hc]
    rfl

/-- What is said by none of the lines that `dump` adds of its own but that of the connection. -/
theorem any_written {told : Text → Text → Bool} (hcookie : ∀ v, told (text "Set-Cookie") v = false)
    (hlength : ∀ v, told (text "content-length") v = false) :
    (r.written cookies websocket).any (fun f => told f.1 f.2) =
      ((r.headers.filter (fun h => websocket || !isConnection h.1)).any (fun f => told f.1 f.2) ||
        (!websocket && told (text "connection") (connectionValue r.close))) := by
  have hcookies : (cookies.map (fun c => (text "Set-Cookie", c))).any (fun f => told f.1 f.2) =
      false := by
    rw [List.any_map, List.any_eq_false]
    simp [hcookie]
  rw [HttpResponse.written, List.any_append, List.any_append, List.any_append, hcookies]
  cases websocket <;> by_cases hbody : r.body = [] <;> simp [hbody, hlength]

theorem Sendable.closes (h : r.Sendable cookies) : (h.head false).gathered.closes = r.close := by
  have hkept : (r.headers.filter (fun h => false || !isConnection h.1)).any
      (fun f => saysClose f.1 f.2) = false := by
    rw [List.any_eq_false]
    intro f hf
    obtain ⟨hmem, hnot⟩ := List.mem_filter.mp hf
    rw [Bool.false_or, Bool.not_eq_true', isConnection, cstr_eq_self (h.names f hmem)] at hnot
    rw [saysClose, hnot, Bool.false_and]
    exact Bool.false_ne_true
  have hown : saysClose (text "connection") (connectionValue r.close) = r.close := by
    cases r.close <;> decide +kernel
  rw [ResponseHead.gathered, gathered_closes, h.pairs,
    any_written (fun _ => Bool.false_and _) (fun _ => Bool.false_and _), hkept, hown]
  simp

theorem Sendable.chunked (h : r.Sendable cookies) (websocket : Bool)
    (hplain : ∀ f ∈ r.headers, saysChunked f.1 f.2 = false) :
    (h.head websocket).gathered.chunked = false := by
  have hkept : (r.headers.filter (fun h => websocket || !isConnection h.1)).any
      (fun f => saysChunked f.1 f.2) = false := by
    rw [List.any_eq_false]
    intro f hf
    rw [hplain f (List.mem_of_mem_filter hf)]
    exact Bool.false_ne_true
  have hown : saysChunked (text "connection") (connectionValue r.close) = false := Bool.false_and _
  rw [ResponseHead.gathered, gathered_chunked, h.pairs,
    any_written (fun _ => Bool.false_and _) (fun _ => Bool.false_and _), hkept, hown]
  simp

/-- A parser takes the header that `dump` writes. -/
theorem Sendable.execute_gathered (h : r.Sendable cookies) (websocket : Bool) (more : Text) :
    ∃ p, HttpResponseParser.execute responseMachine {} (r.dump cookies websocket ++ more) false =
        (p, (h.head websocket).text.length) ∧
      p.isFinished = true ∧ p.hasError = false ∧
      p.gathered false = (h.head websocket).gathered := by
  obtain ⟨p, hexecute, hrest⟩ := (h.head websocket).execute_text (r.body ++ more)
  rw [← List.append_assoc, ← h.dump_eq] at hexecute
  exact ⟨p, hexecute, hrest⟩

/-- A response of a servlet that found nothing. -/
def notFound : HttpResponse where
  status := 404
  body := text "gone"
  headers := [(text "Content-Type", text "text/html"), (text "Server", text "sylar/1.0.0")]

theorem notFound_sendable : notFound.Sendable [text "id=1"] where
  version := by decide
  status := by
    change (0 : Int) ≤ 404 ∧ (404 : Int) ≤ 2147483647
    omega
  reason b hb := by cases hb
  headers h hh := by
    have hall : ∀ h ∈ notFound.headers, h.1 ≠ [] ∧ (∀ b ∈ h.1, isToken b = true) ∧
        (∀ b ∈ h.2, inLine b = true) ∧ (∀ b ∈ h.2.head?, isLineSpace b = false) ∧
        (h.2 = [] → colonState (h.1.map toLower) = 22) := by decide +kernel
    obtain ⟨h1, h2, h3, h4, h5⟩ := hall h hh
    exact ⟨h1, h2, h3, h4, h5⟩
  sorted := by
    rw [OrderedMap.Sorted]
    decide +kernel
  lines := by decide +kernel

/-- What a client can receive in one read without taking it for a message in chunks or for one with
a body that it has not. -/
structure Deliverable (r : HttpResponse) (cookies : List Text) (websocket : Bool)
    (bufferSize : Nat) : Prop extends Sendable r cookies where
  plain : ∀ f ∈ r.headers, saysChunked f.1 f.2 = false
  unannounced : ∀ f ∈ r.headers, ¬CaseVariant f.1 (text "content-length")
  fits : (r.dump cookies websocket).length ≤ bufferSize
  body_le : r.body.length ≤ maxSize

theorem lexicalCastU64_ofNat {n : Nat} (h : n ≤ maxSize) : lexicalCastU64 (Text.ofNat n) = some n := by
  have hlt : ¬18446744073709551616 ≤ n := by
    rw [maxSize] at h
    omega
  rw [lexicalCastU64, Text.sign_digits (Text.ofNat_all_isDigit n)]
  simp [Text.ofNat_ne_nil, Text.ofNat_all_isDigit, Text.number_ofNat, hlt]

/-- The length that a client reads is that of the body. -/
theorem Deliverable.contentLength {bufferSize : Nat}
    (h : Deliverable r cookies websocket bufferSize) :
    (h.head websocket).gathered.data.headers.getAsU64 (text "content-length") 0 = r.body.length := by
  rw [Headers.getAsU64, h.find_gathered websocket (by decide +kernel)]
  by_cases hbody : r.body = []
  · have hnone : lastValue (r.written cookies websocket) (text "content-length") = none := by
      rw [lastValue_written, if_pos hbody, lastValue_if_none (by decide +kernel),
        lastValue_cookies_none (by decide +kernel), lastValue_none, lastValue_none]
      · rfl
      · exact fun f hf => h.unannounced f (List.mem_of_mem_filter hf)
      · simp
    rw [hnone, hbody]
    rfl
  · rw [lastValue_length hbody, Option.bind_some, lexicalCastU64_ofNat h.body_le]
    rfl

theorem Sendable.dump_length (h : r.Sendable cookies) (websocket : Bool) :
    (r.dump cookies websocket).length = (h.head websocket).text.length + r.body.length := by
  rw [h.dump_eq, List.length_append]

theorem Sendable.head_pos (h : r.Sendable cookies) (websocket : Bool) :
    0 < (h.head websocket).text.length := by
  rw [ResponseHead.text, List.length_append, List.length_append]
  simp only [List.length_cons]
  omega

theorem Sendable.dump_ne_nil (h : r.Sendable cookies) (websocket : Bool) :
    r.dump cookies websocket ≠ [] := by
  rw [← List.length_pos_iff, h.dump_length]
  exact Nat.add_pos_left (h.head_pos websocket) _

/-- What is left behind the head does not fill the buffer. -/
theorem Deliverable.body_lt {bufferSize : Nat} (h : Deliverable r cookies websocket bufferSize) :
    r.body.length < bufferSize := by
  have hlen := h.dump_length websocket
  have hfits := h.fits
  have hpos := h.head_pos websocket
  omega

/-- The header loop ends with the first read. -/
theorem Deliverable.recvHeader {bufferSize : Nat} (h : Deliverable r cookies websocket bufferSize)
    (rest : List Text) (asked : List Nat) (fuel : Nat) :
    ∃ p, recvHeader (HttpResponseParser.header responseMachine false) bufferSize (fuel + 1) {} []
        ⟨r.dump cookies websocket :: rest, asked⟩ = .finished p r.body ⟨rest, bufferSize :: asked⟩ ∧
      p.gathered false = (h.head websocket).gathered := by
  obtain ⟨p, hexecute, hfinished, herror, hgathered⟩ := h.execute_gathered websocket []
  rw [List.append_nil] at hexecute
  have hroom := Nat.ne_of_lt h.body_lt
  have hbody : (r.dump cookies websocket).drop (h.head websocket).text.length = r.body := by
    rw [h.dump_eq, List.drop_left]
  refine ⟨p, ?_, hgathered⟩
  rw [recvHeader_round (by rw [read_piece h.fits]; exact h.dump_ne_nil websocket), read_piece h.fits]
  simp only [List.nil_append, HttpResponseParser.header, hexecute, herror, hbody, hfinished,
    if_neg hroom, Bool.false_eq_true, if_false, if_true]

theorem Deliverable.not_chunked {bufferSize : Nat} (h : Deliverable r cookies websocket bufferSize)
    {p : HttpResponseParser} (hp : p.gathered false = (h.head websocket).gathered) :
    p.chunked = false :=
  (congrArg Gathered.chunked hp).trans (h.chunked websocket h.plain)

/-- Where assertions are not compiled. -/
theorem Deliverable.recvResponse {bufferSize : Nat}
    (h : Deliverable r cookies websocket bufferSize) (rest : List Text) (asked : List Nat) :
    ∃ m, HttpConnection.recvResponse responseMachine bufferSize
        ⟨r.dump cookies websocket :: rest, asked⟩ = (.message m, ⟨rest, bufferSize :: asked⟩) ∧
      Arrived r cookies websocket m ∧ m.body = [] := by
  obtain ⟨p, hheader, hgathered⟩ := h.recvHeader rest asked
    (Source.size ⟨r.dump cookies websocket :: rest, asked⟩)
  have hdata : p.data = (h.head websocket).gathered.data := congrArg Gathered.data hgathered
  have hchunked := h.not_chunked hgathered
  have hlength : p.getContentLength = r.body.length := by
    rw [HttpResponseParser.getContentLength, hdata, h.contentLength]
  have harrived := h.arrived websocket
  rw [← hdata] at harrived
  rw [HttpConnection.recvResponse, hheader]
  simp only [HttpConnection.recvBody, hchunked, Bool.false_eq_true, if_false, hlength]
  by_cases hbody : r.body.length = 0
  · refine ⟨p.data, ?_, harrived, ?_⟩
    · rw [recvContent, if_pos hbody]
    · rw [hdata, h.gathered_eq]
      rfl
  · refine ⟨{ p.data with body := [] }, ?_, ⟨harrived.1, harrived.2, harrived.3, harrived.4,
      harrived.5, harrived.6, harrived.7⟩, rfl⟩
    rw [recvContent_le _ _ _ hbody h.body_le (Nat.le_refl _), if_pos rfl]

/-- The parser is called once. -/
theorem Deliverable.calls {size : Nat} (h : Deliverable r cookies websocket size)
    (memory : HttpBuffer.Buffer size) (rest : List Text) (asked : List Nat) :
    (HttpBuffer.recvResponse responseMachine memory ⟨r.dump cookies websocket :: rest, asked⟩).1 =
      [⟨{}, memory, 0, r.dump cookies websocket⟩] := by
  obtain ⟨p, hexecute, hfinished, herror, hgathered⟩ := h.execute_gathered websocket []
  have hne := h.dump_ne_nil websocket
  have hread : Source.read ⟨r.dump cookies websocket :: rest, asked⟩ (size - 0) =
      (r.dump cookies websocket, ⟨rest, size :: asked⟩) := read_piece h.fits
  obtain ⟨c, hc⟩ : ∃ c : HttpBuffer.ParserCall size, c = ⟨{}, memory, 0, r.dump cookies websocket⟩ :=
    ⟨_, rfl⟩
  have hlen : c.len = (r.dump cookies websocket).length := by
    subst hc
    exact Nat.zero_add _
  have hfits : c.Fits := by
    refine ⟨?_, by rw [hlen]; exact h.fits⟩
    subst hc
    exact hne
  have hresult : (p, (h.head websocket).text.length) =
      ((c.result responseMachine).1.toHttpResponseParser, (c.result responseMachine).2) := by
    rw [← hfits.execute, ← hexecute, List.append_nil]
    subst hc
    rfl
  obtain ⟨hparser, hnread⟩ := Prod.mk.inj hresult
  have hleft : c.len - (h.head websocket).text.length = r.body.length := by
    rw [hlen, h.dump_length, Nat.add_sub_cancel_left]
  have hcall := HttpBuffer.Checked.call (T := responseMachine) hfits
  simp only [HttpBuffer.recvResponse, HttpBuffer.recvHeader, hread, if_neg hne, Bool.false_eq_true,
    if_false, ← hc]
  generalize c.outcome responseMachine = outcome at hcall
  cases outcome with
  | error a => rfl
  | ok x =>
    obtain rfl := hcall.result
    simp only [← hparser, ← hnread, hleft, herror, hfinished, if_neg (Nat.ne_of_lt h.body_lt),
      h.not_chunked hgathered, Bool.false_eq_true, if_false, if_true]

/-- A response comes back if and only if the buffer has a null byte behind it already. -/
theorem Deliverable.recvResponse_ok_iff {size : Nat} (h : Deliverable r cookies websocket size)
    (memory : HttpBuffer.Buffer size) (rest : List Text) (asked : List Nat)
    {x : Received HttpResponse × Source} :
    (HttpBuffer.recvResponse responseMachine memory ⟨r.dump cookies websocket :: rest, asked⟩).2 =
        .ok x ↔
      memory.1[(r.dump cookies websocket).length]? = some 0 ∧
        HttpConnection.recvResponse responseMachine size
          ⟨r.dump cookies websocket :: rest, asked⟩ = x := by
  rw [HttpBuffer.recvResponse_ok_iff, h.calls]
  refine and_congr_left' ?_
  rw [List.forall_mem_singleton]
  constructor
  · intro hallowed
    have hbyte := hallowed.terminated
    rwa [Nat.zero_add] at hbyte
  · intro hbyte
    exact ⟨by rwa [Nat.zero_add], .inl (Nat.zero_le _)⟩

end HttpResponse

/-- What successive calls of `recvResponse` on one connection return, each with the memory that it
allocates. -/
def HttpConnection.recvResponses {size : Nat} (T : ResponseTable) :
    List (HttpBuffer.Buffer size) → Source →
      Except HttpBuffer.Abort (List (Received HttpResponse))
  | [], _ => .ok []
  | memory :: memories, src => do
    let (r, src) ← (HttpBuffer.recvResponse T memory src).2
    let rs ← recvResponses T memories src
    return r :: rs

/-- A response that is sent, and the memory that the call which receives it allocates. -/
structure Delivery (size : Nat) where
  response : HttpResponse
  cookies : List Text
  memory : HttpBuffer.Buffer size

namespace Delivery
variable {size : Nat}

def text (d : Delivery size) : Text := d.response.dump d.cookies false

/-- Behind the response the memory goes on with a null byte. -/
def Terminated (d : Delivery size) : Prop := d.memory.1[d.text.length]? = some 0

instance (d : Delivery size) : Decidable d.Terminated :=
  inferInstanceAs (Decidable (d.memory.1[d.text.length]? = some 0))

/-- What a call returns of a response. -/
def ReceivedAs (d : Delivery size) (result : Received HttpResponse) : Prop :=
  ∃ m, result = .message m ∧ Arrived d.response d.cookies false m ∧ m.body = []

theorem recvResponse {d : Delivery size}
    (h : HttpResponse.Deliverable d.response d.cookies false size) (rest : List Text)
    (asked : List Nat) (hterminated : d.Terminated) :
    ∃ result, (HttpBuffer.recvResponse responseMachine d.memory ⟨d.text :: rest, asked⟩).2 =
        .ok (result, ⟨rest, size :: asked⟩) ∧ d.ReceivedAs result := by
  obtain ⟨m, hm, hreceived⟩ := h.recvResponse rest asked
  exact ⟨_, (h.recvResponse_ok_iff d.memory rest asked).mpr ⟨hterminated, hm⟩, m, rfl, hreceived⟩

theorem recvResponse_aborts {d : Delivery size}
    (h : HttpResponse.Deliverable d.response d.cookies false size) (rest : List Text)
    (asked : List Nat) (hterminated : ¬d.Terminated) :
    ∃ a, (HttpBuffer.recvResponse responseMachine d.memory ⟨d.text :: rest, asked⟩).2 =
      .error a := by
  cases hresult : (HttpBuffer.recvResponse responseMachine d.memory ⟨d.text :: rest, asked⟩).2 with
  | error a => exact ⟨a, rfl⟩
  | ok x => exact absurd ((h.recvResponse_ok_iff d.memory rest asked).mp hresult).1 hterminated

end Delivery

theorem HttpResponse.notFound_deliverable :
    notFound.Deliverable [text "id=1"] false 4096 where
  toSendable := notFound_sendable
  plain := by decide +kernel
  unannounced := by decide +kernel
  fits := by decide +kernel
  body_le := by decide +kernel

/-- A response of a servlet that found something. -/
def HttpResponse.found : HttpResponse where
  close := false
  headers := [(text "Server", text "sylar/1.0.0"), (text "X-Time", text "12")]

theorem HttpResponse.found_deliverable : found.Deliverable [] false 4096 where
  version := by decide
  status := by
    change (0 : Int) ≤ 200 ∧ (200 : Int) ≤ 2147483647
    omega
  reason b hb := by cases hb
  headers h hh := by
    have hall : ∀ h ∈ found.headers, h.1 ≠ [] ∧ (∀ b ∈ h.1, isToken b = true) ∧
        (∀ b ∈ h.2, inLine b = true) ∧ (∀ b ∈ h.2.head?, isLineSpace b = false) ∧
        (h.2 = [] → colonState (h.1.map toLower) = 22) := by decide +kernel
    obtain ⟨h1, h2, h3, h4, h5⟩ := hall h hh
    exact ⟨h1, h2, h3, h4, h5⟩
  sorted := by
    rw [OrderedMap.Sorted]
    decide +kernel
  lines c hc := by cases hc
  plain := by decide +kernel
  unannounced := by decide +kernel
  fits := by decide +kernel
  body_le := by decide +kernel

end HxSylar
