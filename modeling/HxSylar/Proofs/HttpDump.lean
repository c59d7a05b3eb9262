import HxSylar.HttpDump

namespace HxSylar
open Lib

/-- A message whose end and whose connection its reader can tell. A line ends at a carriage return
and a line feed. -/
structure BodyFramed (t : Text) (close : Bool) (body : Text) : Prop where
  connection : values (text "connection") (headerBlock t) =
    [text (if close then "close" else "keep-alive")]
  contentLength : body ≠ [] →
    (values (text "content-length") (headerBlock t)).map Text.natural = [some body.length]
  noLength : body = [] →
    ∀ v ∈ values (text "content-length") (headerBlock t), Text.natural v = some 0
  verbatim : messageBody t = body

/-- A line that says nothing about the connection, and about the body no more than that there is
none. -/
structure Quiet (body l : Text) : Prop where
  nonempty : l ≠ []
  notConnection : valueOf (text "connection") l = none
  noLength : ∀ v, valueOf (text "content-length") l = some v → body = [] ∧ Text.natural v = some 0

/-- The lines of the headers that the loops do not leave out. -/
def otherHeaders (headers : Headers) : List Text :=
  (headers.filter fun h => !isConnection h.1).map headerLine

/-- The lines that the values of a request bring: those behind the first of its start line, and
those of its headers. -/
def HttpRequest.givenLines (r : HttpRequest) : List Text :=
  (lines r.startLine).tail ++ (otherHeaders r.headers).flatMap lines

/-- The lines that the values of a response bring. -/
def HttpResponse.givenLines (r : HttpResponse) (cookies : List Text) : List Text :=
  (lines r.startLine).tail ++
    (otherHeaders r.headers ++ cookies.map (text "Set-Cookie: " ++ ·)).flatMap lines

/-- The line of the length, if there is one. -/
def lengthLines (body : Text) : List Text := if body = [] then [] else [contentLengthLine body]

theorem dumpHeaders_eq (headers : Headers) :
    dumpHeaders headers false = unlines (otherHeaders headers) := by
  rw [dumpHeaders, otherHeaders, unlines, List.flatMap_map]
  induction headers with
  | nil => rfl
  | cons h headers ih =>
    rw [List.flatMap_cons, ih, List.filter_cons]
    cases isConnection h.1 with
    | true => rfl
    | false => rfl

theorem dumpBody_eq (body : Text) :
    dumpBody body = unlines (lengthLines body) ++ (crlf ++ body) := by
  rw [dumpBody, lengthLines]
  split
  · rename_i hempty
    rw [hempty]
    rfl
  · rw [unlines, List.flatMap_cons, List.flatMap_nil, List.append_nil, List.append_assoc]

theorem dumpConnection_eq (close : Bool) :
    dumpConnection close false = connectionLine close ++ crlf := rfl

theorem request_dump_eq (r : HttpRequest) : r.dump false = r.startLine ++ (crlf ++
    (unlines (connectionLine r.close :: otherHeaders r.headers ++ lengthLines r.body) ++
      (crlf ++ r.body))) := by
  rw [HttpRequest.dump, dumpConnection_eq, dumpHeaders_eq, dumpBody_eq, unlines_append,
    unlines_cons]
  simp only [List.append_assoc]

theorem response_dump_eq (r : HttpResponse) (cookies : List Text) :
    r.dump cookies false = r.startLine ++ (crlf ++
      (unlines (otherHeaders r.headers ++ cookies.map (text "Set-Cookie: " ++ ·) ++
        connectionLine r.close :: lengthLines r.body) ++ (crlf ++ r.body))) := by
  have hcookies : cookies.flatMap (fun c => text "Set-Cookie: " ++ c ++ crlf) =
      unlines (cookies.map (text "Set-Cookie: " ++ ·)) := by
    rw [unlines, List.flatMap_map]
  rw [HttpResponse.dump, dumpConnection_eq, dumpHeaders_eq, dumpBody_eq, hcookies, unlines_append,
    unlines_append, unlines_cons]
  simp only [List.append_assoc]

section Own

theorem connectionLine_lines (close : Bool) :
    lines (connectionLine close) = [connectionLine close] := by
  cases close with
  | false => decide
  | true => decide

theorem valueOf_connectionLine (close : Bool) :
    valueOf (text "connection") (connectionLine close) =
      some (text (if close then "close" else "keep-alive")) := by
  cases close with
  | false => decide
  | true => decide

theorem valueOf_length_connectionLine (close : Bool) :
    valueOf (text "content-length") (connectionLine close) = none := by
  cases close with
  | false => decide
  | true => decide

/-- The digits of a number are no blanks and end no line. -/
theorem digit_plain {b : UInt8} (h : isDigit b = true) : isBlank b = false ∧ b ≠ 13 := by
  revert h
  revert b
  apply forall_byte
  decide +kernel

theorem contentLengthLine_lines (body : Text) :
    lines (contentLengthLine body) = [contentLengthLine body] := by
  apply lines_eq_singleton
  rw [contentLengthLine, List.mem_append, not_or]
  refine ⟨by decide, ?_⟩
  intro h13
  exact (digit_plain (List.all_eq_true.mp (Text.ofNat_all_isDigit _) _ h13)).2 rfl

theorem valueOf_connection_contentLengthLine (body : Text) :
    valueOf (text "connection") (contentLengthLine body) = none := by
  have hname : ((contentLengthLine body).takeWhile (· != byte ':')).map toLower =
      text "content-length" := rfl
  rw [valueOf, if_neg]
  rw [hname]
  intro h
  exact absurd h.2 (by decide)

theorem valueOf_contentLengthLine (body : Text) :
    valueOf (text "content-length") (contentLengthLine body) = some (Text.ofNat body.length) := by
  have hname : (contentLengthLine body).contains (byte ':') ∧
      ((contentLengthLine body).takeWhile (· != byte ':')).map toLower = text "content-length" :=
    ⟨rfl, rfl⟩
  have hvalue : strip (Text.ofNat body.length) = Text.ofNat body.length := by
    apply strip_eq_self
    intro b hb
    exact (digit_plain (List.all_eq_true.mp (Text.ofNat_all_isDigit _) b hb)).1
  rw [valueOf, if_pos hname]
  exact congrArg some hvalue

theorem lengthLines_lines (body : Text) : (lengthLines body).flatMap lines = lengthLines body := by
  rw [lengthLines]
  split
  · rfl
  · rw [List.flatMap_cons, contentLengthLine_lines]
    rfl

end Own

/-- An empty line among the headers leaves more behind it than the body. -/
theorem messageBody_ne {first : Text} {block : List Text} {body t : Text} (hfirst : first ≠ [])
    (ht : lines t = first :: (block ++ [] :: lines body)) (hempty : [] ∈ block) :
    messageBody t ≠ body := by
  obtain ⟨pre, post, hblock, hpre⟩ := List.eq_append_cons_of_mem hempty
  have hcut : lines t = (first :: pre) ++ [] :: (post ++ [] :: lines body) := by
    rw [ht, hblock, List.append_assoc]
    rfl
  have hnot : [] ∉ first :: pre := by
    rw [List.mem_cons, not_or]
    exact ⟨hfirst.symm, hpre⟩
  have hlong := length_joinLines_append post (List.cons_ne_nil [] (lines body))
  rw [joinLines_cons [] (lines_ne_nil body), joinLines_lines] at hlong
  rw [(cut_at_empty hnot hcut).2]
  intro heq
  rw [heq] at hlong
  simp only [crlf, List.length_append, List.length_cons] at hlong
  omega

/-- Beside one more value, there are no others if it is the only one. -/
theorem perm_append_singleton_iff {α : Type} {xs ys : List α} {c : α}
    (h : xs.Perm (ys ++ [c])) : xs = [c] ↔ ys = [] := by
  constructor
  · intro hxs
    have hlength := h.length_eq
    rw [hxs, List.length_append, List.length_singleton] at hlength
    exact List.length_eq_zero_iff.mp (by omega)
  · intro hys
    rw [hys, List.nil_append, List.perm_singleton] at h
    exact h

theorem values_perm (name : Text) {ls ms : List Text} (h : ls.Perm ms) :
    (values name ls).Perm (values name ms) := h.filterMap _

section Block
variable {close : Bool} {body : Text} {block given : List Text}
  (hblock : block.Perm (given ++ connectionLine close :: lengthLines body))
include hblock

theorem connection_iff :
    values (text "connection") block = [text (if close then "close" else "keep-alive")] ↔
      ∀ l ∈ given, valueOf (text "connection") l = none := by
  have hown : values (text "connection") (connectionLine close :: lengthLines body) =
      [text (if close then "close" else "keep-alive")] := by
    rw [values, List.filterMap_cons_some (valueOf_connectionLine close), ← values,
      values_eq_nil.mpr]
    intro l hl
    rw [lengthLines] at hl
    split at hl
    · exact absurd hl List.not_mem_nil
    · rw [List.mem_singleton.mp hl, valueOf_connection_contentLengthLine]
  have hperm := values_perm (text "connection") hblock
  rw [values_append, hown] at hperm
  rw [perm_append_singleton_iff hperm, values_eq_nil]

theorem values_length_perm : (values (text "content-length") block).Perm
    (values (text "content-length") given ++ (lengthLines body).map fun _ => Text.ofNat body.length) := by
  have hown : values (text "content-length") (connectionLine close :: lengthLines body) =
      (lengthLines body).map fun _ => Text.ofNat body.length := by
    rw [values, List.filterMap_cons_none (valueOf_length_connectionLine close), lengthLines]
    split
    · rfl
    · rw [List.filterMap_cons_some (valueOf_contentLengthLine body)]
      rfl
  have hperm := values_perm (text "content-length") hblock
  rwa [values_append, hown] at hperm

theorem contentLength_iff (hbody : body ≠ []) :
    (values (text "content-length") block).map Text.natural = [some body.length] ↔
      ∀ l ∈ given, valueOf (text "content-length") l = none := by
  have hperm := values_length_perm hblock
  rw [lengthLines, if_neg hbody, List.map_singleton] at hperm
  rw [← values_eq_nil, ← perm_append_singleton_iff hperm]
  constructor
  · intro hmap
    have hlength := congrArg List.length hmap
    rw [List.length_map] at hlength
    rw [perm_append_singleton_iff hperm]
    have htotal := hperm.length_eq
    rw [hlength, List.length_append] at htotal
    exact List.length_eq_zero_iff.mp (by simpa using htotal.symm)
  · intro heq
    rw [heq, List.map_singleton, Text.natural_ofNat]

theorem noLength_iff (hbody : body = []) :
    (∀ v ∈ values (text "content-length") block, Text.natural v = some 0) ↔
      ∀ l ∈ given, ∀ v, valueOf (text "content-length") l = some v → Text.natural v = some 0 := by
  have hperm := values_length_perm hblock
  rw [lengthLines, if_pos hbody, List.map_nil, List.append_nil] at hperm
  constructor
  · intro hall l hl v hv
    exact hall v (hperm.mem_iff.mpr (List.mem_filterMap.mpr ⟨l, hl, hv⟩))
  · intro hall v hv
    obtain ⟨l, hl, hlv⟩ := List.mem_filterMap.mp (hperm.mem_iff.mp hv)
    exact hall l hl v hlv

theorem nil_mem_block_iff : [] ∈ block ↔ [] ∈ given := by
  have hconn : connectionLine close ≠ [] := List.cons_ne_nil _ _
  have hlength : [] ∉ lengthLines body := by
    rw [lengthLines]
    split
    · exact List.not_mem_nil
    · rw [List.mem_singleton]
      exact (List.cons_ne_nil _ _).symm
  rw [hblock.mem_iff, List.mem_append, List.mem_cons]
  constructor
  · rintro (h | h | h)
    · exact h
    · exact absurd h.symm hconn
    · exact absurd h hlength
  · exact Or.inl

/-- The header block of a message says what it should if the lines that its values bring say
nothing. -/
theorem bodyFramed_iff {first t : Text} (hfirst : first ≠ [])
    (ht : lines t = first :: (block ++ [] :: lines body)) :
    BodyFramed t close body ↔ ∀ l ∈ given, Quiet body l := by
  by_cases hempty : [] ∈ block
  · constructor
    · intro h
      exact absurd h.verbatim (messageBody_ne hfirst ht hempty)
    · intro h
      exact absurd rfl (h [] ((nil_mem_block_iff hblock).mp hempty)).nonempty
  · have hnot : [] ∉ first :: block := by
      rw [List.mem_cons, not_or]
      exact ⟨hfirst.symm, hempty⟩
    obtain ⟨hhead, hrest⟩ := cut_at_empty hnot ht
    rw [List.tail_cons] at hhead
    rw [joinLines_lines] at hrest
    have hgiven : ∀ l ∈ given, l ≠ [] := by
      intro l hl hnil
      exact hempty ((nil_mem_block_iff hblock).mpr (hnil ▸ hl))
    constructor
    · intro h l hl
      have hconn := (connection_iff hblock).mp (hhead ▸ h.connection) l hl
      refine ⟨hgiven l hl, hconn, ?_⟩
      intro v hv
      by_cases hbody : body = []
      · exact ⟨hbody, (noLength_iff hblock hbody).mp (hhead ▸ h.noLength hbody) l hl v hv⟩
      · have hnone := (contentLength_iff hblock hbody).mp (hhead ▸ h.contentLength hbody) l hl
        rw [hv] at hnone
        cases hnone
    · intro h
      constructor
      · rw [hhead]
        exact (connection_iff hblock).mpr fun l hl => (h l hl).notConnection
      · intro hbody
        rw [hhead]
        apply (contentLength_iff hblock hbody).mpr
        intro l hl
        apply Option.eq_none_iff_forall_ne_some.mpr
        intro v hv
        exact hbody ((h l hl).noLength v hv).1
      · intro hbody
        rw [hhead]
        exact (noLength_iff hblock hbody).mpr fun l hl v hv => ((h l hl).noLength v hv).2
      · exact hrest

end Block

/-- Every method has a name. -/
theorem toText_head (m : HttpMethod) : ∃ b, m.toText.head? = some b ∧ b ≠ 13 := by
  have hany : ∀ num : Fin 34, (httpMethodToString num).head?.any (· != 13) = true := by
    decide
  cases m with
  | method num =>
    obtain ⟨b, hb, hne⟩ := (Option.any_eq_true _ _).mp (hany num)
    exact ⟨b, hb, bne_iff_ne.mp hne⟩
  | invalidMethod => exact ⟨_, rfl, by decide⟩

/-- The first line of a start line is not empty. -/
theorem startLine_lines {start : Text} {b : UInt8} (h : start.head? = some b) (hb : b ≠ 13) :
    ∃ first, first ≠ [] ∧ lines start = first :: (lines start).tail := by
  obtain ⟨u, rfl⟩ := List.head?_eq_some_iff.mp h
  obtain ⟨l, ls, hls⟩ := head_lines_ne_nil hb u
  rw [hls]
  exact ⟨b :: l, List.cons_ne_nil b l, rfl⟩

theorem request_framed_iff (r : HttpRequest) :
    BodyFramed (r.dump false) r.close r.body ↔ ∀ l ∈ r.givenLines, Quiet r.body l := by
  obtain ⟨b, hname, hb⟩ := toText_head r.method
  have hhead : r.startLine.head? = some b := by
    simp only [HttpRequest.startLine, List.append_assoc, List.head?_append, hname, Option.some_or]
  obtain ⟨first, hfirst, hstart⟩ := startLine_lines hhead hb
  have hlines : lines (r.dump false) = first :: ((lines r.startLine).tail ++
      (connectionLine r.close :: otherHeaders r.headers ++ lengthLines r.body).flatMap lines ++
        [] :: lines r.body) := by
    rw [request_dump_eq, lines_append, lines_unlines, lines_crlf, hstart, List.tail_cons,
      List.cons_append, List.append_assoc]
  refine bodyFramed_iff ?_ hfirst hlines
  rw [List.flatMap_append, List.flatMap_cons, connectionLine_lines, lengthLines_lines,
    HttpRequest.givenLines, List.append_assoc, List.append_assoc, List.singleton_append]
  apply List.Perm.append_left
  exact List.perm_middle.symm

theorem response_framed_iff (r : HttpResponse) (cookies : List Text) :
    BodyFramed (r.dump cookies false) r.close r.body ↔
      ∀ l ∈ r.givenLines cookies, Quiet r.body l := by
  have hhead : r.startLine.head? = some 72 := rfl
  obtain ⟨first, hfirst, hstart⟩ := startLine_lines hhead (by decide)
  have hlines : lines (r.dump cookies false) = first :: ((lines r.startLine).tail ++
      (otherHeaders r.headers ++ cookies.map (text "Set-Cookie: " ++ ·) ++
        connectionLine r.close :: lengthLines r.body).flatMap lines ++ [] :: lines r.body) := by
    rw [response_dump_eq, lines_append, lines_unlines, lines_crlf, hstart, List.tail_cons,
      List.cons_append, List.append_assoc (List.tail _)]
  refine bodyFramed_iff (.of_eq ?_) hfirst hlines
  rw [List.flatMap_append, List.flatMap_cons, connectionLine_lines, lengthLines_lines,
    HttpResponse.givenLines, List.append_assoc]
  rfl

/-- What is written frames its body if and only if the values of the message bring no line of
their own that is empty or speaks of the connection or of a length. -/
theorem dump_framed_iff (request : HttpRequest) (response : HttpResponse) (cookies : List Text) :
    (BodyFramed (request.dump false) request.close request.body ↔
      ∀ l ∈ request.givenLines, Quiet request.body l) ∧
    (BodyFramed (response.dump cookies false) response.close response.body ↔
      ∀ l ∈ response.givenLines cookies, Quiet response.body l) :=
  ⟨request_framed_iff request, response_framed_iff response cookies⟩

/-- A length among the headers stands beside the one of the body. -/
theorem dump_two_lengths :
    ∃ r : HttpRequest, r.headers = [(text "content-length", text "5")] ∧
      r.body = text "hello sylar" ∧ ¬BodyFramed (r.dump false) r.close r.body := by
  refine ⟨{ headers := [(text "content-length", text "5")], body := text "hello sylar" }, rfl, rfl, ?_⟩
  intro h
  have hlength := h.contentLength (by decide)
  revert hlength
  decide

end HxSylar
