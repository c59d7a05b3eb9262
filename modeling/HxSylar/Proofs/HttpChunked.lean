import HxSylar.Proofs.HttpBuffer
import HxSylar.ResponseMachine

namespace HxSylar.HttpConnection
open Lib

/-- A chunk: its size in hexadecimal digits, its bytes, each ended by CRLF. -/
def encodeChunk (c : Text) : Text :=
  (Nat.toDigits 16 c.length).map byte ++ text "\r\n" ++ c ++ text "\r\n"

def encodeChunks (chunks : List Text) : Text := chunks.flatMap encodeChunk ++ text "0\r\n\r\n"

/-- What the generated machine does on the line of the last chunk, and that no size begins with
the end of a line (httpclient_parser.cc, states 1 to 3). -/
structure LastChunkLine (T : ResponseTable) : Prop where
  zero : T 1 48 = some (2, [.mark])
  cr : T 2 13 = some (3, [.chunkSize])
  lf : T 3 10 = some (120, [.done])
  notCr : T 1 13 = none
  notLf : T 1 10 = none

section Ends
variable {T : ResponseTable} {bufferSize : Nat}

theorem recvRest_ne_stuck {fuel left : Nat} {body : Text} {src : Source} (h : src.size < fuel) :
    recvRest bufferSize fuel left body src ≠ .stuck := by
  induction fuel generalizing left body src with
  | zero => omega
  | succ fuel ih =>
    simp only [recvRest]
    split
    · simp
    · split
      · simp
      · rename_i hread
        have hlt := Source.read_lt hread
        exact ih (by omega)

theorem recvRest_size {fuel left : Nat} {body body' : Text} {src src' : Source}
    (h : recvRest bufferSize fuel left body src = .data body' src') : src'.size ≤ src.size := by
  induction fuel generalizing left body src with
  | zero => cases h
  | succ fuel ih =>
    simp only [recvRest] at h
    split at h
    · cases h
      exact Nat.le_refl _
    · split at h
      · cases h
      · rename_i hread
        exact Nat.le_trans (ih h) (Nat.le_of_lt (Source.read_lt hread))

/-- Every chunk takes bytes from the source, so the loop over the chunks ends. -/
theorem recvChunks_ne_stuck {fuel : Nat} {p : HttpResponseParser} {data body : Text} {src : Source}
    (h : src.size < fuel) : (recvChunks T bufferSize fuel p data body src).1 ≠ .stuck := by
  induction fuel generalizing p data body src with
  | zero => omega
  | succ fuel ih =>
    simp only [recvChunks]
    split
    · simp
    · rename_i hstuck
      exact absurd hstuck (recvHeader_ne_stuck (by omega))
    · rename_i p' data' src' hfinished
      have hlt := recvHeader_size hfinished
      split
      · split
        · simp
        · split
          · simp
          · exact ih (by omega)
      · split
        · simp
        · rename_i hstuck
          exact absurd hstuck (recvRest_ne_stuck (by omega))
        · rename_i hdata
          have hle := recvRest_size hdata
          split
          · simp
          · exact ih (by omega)

/-- Nothing ever sets the body of a chunked response. -/
theorem recvChunks_body {fuel : Nat} {p : HttpResponseParser} {data body : Text} {src : Source}
    {r : HttpResponse} (hp : p.data.body = [])
    (h : (recvChunks T bufferSize fuel p data body src).1 = .message r) : r.body = [] := by
  induction fuel generalizing p data body src with
  | zero => cases h
  | succ fuel ih =>
    simp only [recvChunks] at h
    split at h
    · cases h
    · cases h
    · rename_i p' data' src' hfinished
      obtain ⟨hbody, _⟩ := recvHeader_body hp hfinished
      split at h
      · split at h
        · cases h
        · split at h
          · cases h
            exact hbody
          · exact ih hbody h
      · split at h
        · cases h
        · cases h
        · split at h
          · cases h
            exact hbody
          · exact ih hbody h

theorem recvResponse_ne_stuck (src : Source) : (recvResponse T bufferSize src).1 ≠ .stuck := by
  rw [recvResponse]
  split
  · rw [recvBody]
    split
    · exact recvChunks_ne_stuck (by omega)
    · exact recvContent_ne_stuck
  · simp
  · rename_i hstuck
    exact absurd hstuck (recvHeader_ne_stuck (by omega))

end Ends

section LastChunk
variable {T : ResponseTable} {p : HttpResponseParser} {bufferSize : Nat}

/-- The line of the last chunk is taken and ends the chunks. -/
theorem execute_last (hT : LastChunkLine T) (rest : Text) :
    (HttpResponseParser.execute T p (48 :: 13 :: 10 :: rest) true).2 = 3 ∧
      let p' := (HttpResponseParser.execute T p (48 :: 13 :: 10 :: rest) true).1
      p'.cs = 120 ∧ p'.contentLen = 0 ∧ p'.chunksDone = true ∧ p'.error = p.error := by
  have hsize : Text.toInt32 (Text.strtol 16 (48 :: 13 :: 10 :: rest)) = 0 := by
    simp [Text.strtol, Text.sign, Text.number, digitValue, isDigit, Text.toInt32, isSpace]
  simp [HttpResponseParser.execute, HttpResponseParser.init, Table.run, Table.apply, hT.zero, hT.cr,
    hT.lf, ResponseAct.stops, HttpResponseParser.act, hsize, HttpResponseParser.onResponseLastChunk,
    HttpResponseParser.onResponseHeaderDone]

/-- Less than the line is taken too, and forgotten. -/
theorem execute_part (hT : LastChunkLine T) {data : Text} (h : data = [48] ∨ data = [48, 13]) :
    (HttpResponseParser.execute T p data true).2 = data.length ∧
      let p' := (HttpResponseParser.execute T p data true).1
      (p'.cs = 2 ∨ p'.cs = 3) ∧ p'.error = p.error := by
  have herror : ∀ q : HttpResponseParser, ∀ pos, (HttpResponseParser.act data pos .chunkSize q).error =
      q.error := by
    intro q pos
    simp only [HttpResponseParser.act]
    split <;> rfl
  rcases h with rfl | rfl
  · simp [HttpResponseParser.execute, HttpResponseParser.init, Table.run, Table.apply, hT.zero,
      ResponseAct.stops, HttpResponseParser.act]
  · simp [HttpResponseParser.execute, HttpResponseParser.init, Table.run, Table.apply, hT.zero,
      hT.cr, ResponseAct.stops, herror]
    rfl

/-- The rest of the line is an error. -/
theorem execute_newline (hT : LastChunkLine T) {b : UInt8} (hb : b = 13 ∨ b = 10) (rest : Text) :
    (HttpResponseParser.execute T p (b :: rest) true).1.cs = 0 := by
  have hnone : T 1 b = none := by
    rcases hb with rfl | rfl
    · exact hT.notCr
    · exact hT.notLf
  simp [HttpResponseParser.execute, HttpResponseParser.init, Table.run, hnone]

/-- One round of the loop that reads the size of a chunk. -/
theorem recvHeader_chunk {fuel : Nat} {data : Text} {src : Source}
    (hread : (src.read (bufferSize - data.length)).1 ≠ []) :
    recvHeader (HttpResponseParser.header T true) bufferSize (fuel + 1) p data src =
      let buffer := data ++ (src.read (bufferSize - data.length)).1
      let src' := (src.read (bufferSize - data.length)).2
      let p' := (HttpResponseParser.execute T p buffer true).1
      let data' := buffer.drop (HttpResponseParser.execute T p buffer true).2
      if p'.hasError then .null p' src'
      else if data'.length = bufferSize then .null p' src'
      else if p'.isFinished then .finished p' data' src'
      else recvHeader (HttpResponseParser.header T true) bufferSize fuel p' data' src' :=
  recvHeader_round hread

/-- What begins within the line of the last chunk is an error. -/
theorem recvHeader_newline (fuel : Nat) (hT : LastChunkLine T) {b : UInt8} {src : Source}
    {rest : Text} (hb : b = 13 ∨ b = 10) (hsrc : src.Proper) (hroom : 0 < bufferSize)
    (hpieces : src.pieces.flatten = b :: rest) :
    ∃ p' src', recvHeader (HttpResponseParser.header T true) bufferSize (fuel + 1) p [] src =
      .null p' src' := by
  have hread : (src.read bufferSize).1 ≠ [] := by
    rw [ne_eq, hsrc.read_eq_nil_iff hroom]
    intro hend
    rw [hend] at hpieces
    cases hpieces
  obtain ⟨c, cs, hc⟩ := List.exists_cons_of_ne_nil hread
  have hflat := src.read_flatten bufferSize
  rw [hc, hpieces, List.cons_append] at hflat
  obtain rfl := (List.cons.inj hflat).1
  have herror : (HttpResponseParser.execute T p (c :: cs) true).1.hasError = true := by
    simp [HttpResponseParser.hasError, execute_newline hT hb]
  rw [recvHeader_chunk hread]
  simp only [List.length_nil, Nat.sub_zero, List.nil_append, hc, herror, ↓reduceIte]
  exact ⟨_, _, rfl⟩

variable {data : Text} {src : Source}

/-- The whole line in the buffer after the first read. -/
theorem recvChunks_last (hT : LastChunkLine T) {fuel : Nat} {tail body : Text}
    (hroom : data.length < bufferSize) (herror : p.error = 0)
    (hread : (src.read (bufferSize - data.length)).1 ≠ [])
    (hbuffer : data ++ (src.read (bufferSize - data.length)).1 = 48 :: 13 :: 10 :: tail) :
    ∃ r, (recvChunks T bufferSize (fuel + 1) p data body src).1 = .message r := by
  obtain ⟨hn, hcs, hlen, hdone, hkept⟩ := execute_last (p := p) hT tail
  have hle := src.read_length (bufferSize - data.length)
  have hlength := congrArg List.length hbuffer
  simp only [List.length_append, List.length_cons] at hlength
  simp only [recvChunks, recvHeader_chunk hread, hbuffer, hn]
  rw [if_neg (by simp [HttpResponseParser.hasError, hcs, hkept, herror]),
    if_neg (by simp only [List.drop_succ_cons, List.drop_zero]; omega),
    if_pos (by simp [HttpResponseParser.isFinished, hcs])]
  simp only [hlen, hdone]
  exact ⟨_, rfl⟩

/-- A part of the line after the first read. -/
theorem recvChunks_part (hT : LastChunkLine T) {fuel : Nat} {tail body : Text} {b : UInt8}
    (hb : b = 13 ∨ b = 10) (hroom : data.length < bufferSize) (hsrc : src.Proper)
    (herror : p.error = 0) (hread : (src.read (bufferSize - data.length)).1 ≠ [])
    (hbuffer : data ++ (src.read (bufferSize - data.length)).1 = [48] ∨
      data ++ (src.read (bufferSize - data.length)).1 = [48, 13])
    (hpieces : (src.read (bufferSize - data.length)).2.pieces.flatten = b :: tail) :
    (recvChunks T bufferSize (fuel + 1) p data body src).1 = .null := by
  obtain ⟨hn, hcs, hkept⟩ := execute_part (p := p) hT hbuffer
  obtain ⟨n, hsize⟩ := Nat.exists_eq_succ_of_ne_zero
    (Nat.ne_zero_of_lt (Source.read_lt hread))
  obtain ⟨p', src', hnull⟩ := recvHeader_newline n
    (p := (HttpResponseParser.execute T p (data ++ (src.read (bufferSize - data.length)).1) true).1)
    hT hb (hsrc.read (bufferSize - data.length)) (Nat.zero_lt_of_lt hroom) hpieces
  have hempty : ([] : Text).length ≠ bufferSize := by
    rw [List.length_nil]
    omega
  have hgoes : (HttpResponseParser.execute T p (data ++ (src.read (bufferSize - data.length)).1)
      true).1.hasError = false ∧ (HttpResponseParser.execute T p
        (data ++ (src.read (bufferSize - data.length)).1) true).1.isFinished = false := by
    rcases hcs with hcs | hcs
    · simp [HttpResponseParser.hasError, HttpResponseParser.isFinished, hcs, hkept, herror]
    · simp [HttpResponseParser.hasError, HttpResponseParser.isFinished, hcs, hkept, herror]
  simp only [recvChunks, recvHeader_chunk hread, hn, List.drop_length, hgoes.1, hgoes.2,
    if_neg hempty, hsize, Nat.succ_eq_add_one, hnull, Bool.false_eq_true, ↓reduceIte]

/-- The buffer after the first read, when only the last chunk is sent: the whole line or a part. -/
theorem last_line_split {xs ys : Text} (h : xs ++ ys = text "0\r\n\r\n") (hxs : xs ≠ []) :
    (∃ tail, xs = 48 :: 13 :: 10 :: tail) ∨
      ((xs = [48] ∨ xs = [48, 13]) ∧ ∃ b tail, (b = 13 ∨ b = 10) ∧ ys = b :: tail) := by
  rw [show text "0\r\n\r\n" = [48, 13, 10, 13, 10] by decide] at h
  match xs, h, hxs with
  | [a], h, _ =>
    obtain ⟨rfl, rfl⟩ : a = 48 ∧ ys = [13, 10, 13, 10] := by simpa using h
    exact .inr ⟨.inl rfl, 13, _, .inl rfl, rfl⟩
  | [a, b], h, _ =>
    obtain ⟨rfl, rfl, rfl⟩ : a = 48 ∧ b = 13 ∧ ys = [10, 13, 10] := by simpa using h
    exact .inr ⟨.inr rfl, 10, _, .inr rfl, rfl⟩
  | a :: b :: c :: tail, h, _ =>
    obtain ⟨rfl, rfl, rfl, _⟩ : a = 48 ∧ b = 13 ∧ c = 10 ∧ tail ++ ys = [13, 10] := by
      simpa using h
    exact .inl ⟨tail, rfl⟩

/-- Without chunks the response is returned if the line of the last chunk has arrived with the
first read behind the header, and if there is something left for that read. -/
theorem recvChunks_empty_iff (fuel : Nat) (body : Text) (hT : LastChunkLine T)
    (hroom : data.length < bufferSize) (hsrc : src.Proper) (herror : p.error = 0)
    (hstream : data ++ src.pieces.flatten = encodeChunks []) :
    (∃ r, (recvChunks T bufferSize (fuel + 1) p data body src).1 = .message r) ↔
      data.length < 5 ∧ 3 ≤ (data ++ (src.read (bufferSize - data.length)).1).length := by
  by_cases hend : src.pieces = []
  · have hnil := (hsrc.read_eq_nil_iff (Nat.sub_pos_of_lt hroom)).mpr hend
    have hlength := congrArg List.length hstream
    rw [hend, List.flatten_nil, List.append_nil] at hlength
    have hfive : (encodeChunks []).length = 5 := by decide
    refine iff_of_false ?_ (by omega)
    rintro ⟨r, hr⟩
    simp only [recvChunks, recvHeader, if_pos hnil] at hr
    cases hr
  · have hread : (src.read (bufferSize - data.length)).1 ≠ [] := by
      rw [ne_eq, hsrc.read_eq_nil_iff (Nat.sub_pos_of_lt hroom)]
      exact hend
    have hpos := List.length_pos_iff.mpr hread
    rw [← src.read_flatten (bufferSize - data.length), ← List.append_assoc] at hstream
    have hlength := congrArg List.length hstream
    have hfive : (encodeChunks []).length = 5 := by decide
    rw [hfive, List.length_append, List.length_append] at hlength
    have hne : data ++ (src.read (bufferSize - data.length)).1 ≠ [] := by
      simp [hread]
    rcases last_line_split hstream hne with ⟨tail, hline⟩ | ⟨hpart, b, tail, hb, hrest⟩
    · refine iff_of_true (recvChunks_last hT hroom herror hread hline) ⟨by omega, ?_⟩
      simp [hline]
    · refine iff_of_false ?_ ?_
      · rintro ⟨r, hr⟩
        rw [recvChunks_part hT hb hroom hsrc herror hread hpart hrest] at hr
        cases hr
      · rintro ⟨_, hle⟩
        rcases hpart with hpart | hpart
        · simp [hpart] at hle
        · simp [hpart] at hle

end LastChunk

/-- Where assertions are not compiled, a chunked response is received as it should exactly if it has
no chunk, and the line of the last chunk comes whole with the first read behind the header, before
the end of the stream. -/
theorem recvResponse_chunks {T : ResponseTable} {bufferSize : Nat} {src rest : Source}
    {p : HttpResponseParser} {data : Text} {chunks : List Text} (hT : LastChunkLine T)
    (hsrc : src.Proper)
    (hheader : recvHeader (HttpResponseParser.header T false) bufferSize (src.size + 1) {} [] src =
      .finished p data rest) (hchunked : p.chunked = true)
    (hchunks : ∀ c ∈ chunks, c ≠ [] ∧ c.length < 2 ^ 31)
    (hstream : data ++ rest.pieces.flatten = encodeChunks chunks) :
    (∃ r, (recvResponse T bufferSize src).1 = .message r ∧ r.body = chunks.flatten) ↔
      chunks = [] ∧ data.length < 5 ∧
        3 ≤ (data ++ (rest.read (bufferSize - data.length)).1).length := by
  obtain ⟨hbody, hgood⟩ := recvHeader_body rfl hheader
  obtain ⟨hroom, hrest⟩ := recvHeader_room (Nat.zero_le _) hsrc hheader
  have herror : p.error = 0 := by
    rw [HttpResponseParser.hasError] at hgood
    simp at hgood
    exact hgood.1
  have hresult : recvResponse T bufferSize src =
      recvChunks T bufferSize (rest.size + 1) p data [] rest := by
    simp only [recvResponse, hheader, recvBody, hchunked, ↓reduceIte]
  rw [hresult]
  have hempty : ∀ r, (recvChunks T bufferSize (rest.size + 1) p data [] rest).1 = .message r →
      r.body = [] := fun r hr => recvChunks_body hbody hr
  cases chunks with
  | nil =>
    rw [← recvChunks_empty_iff rest.size [] hT hroom hrest herror hstream]
    constructor
    · rintro ⟨r, hr, _⟩
      exact ⟨rfl, r, hr⟩
    · rintro ⟨_, r, hr⟩
      exact ⟨r, hr, hempty r hr⟩
  | cons c cs =>
    refine iff_of_false ?_ (by simp)
    rintro ⟨r, hr, hflat⟩
    rw [hempty r hr, List.flatten_cons] at hflat
    exact (hchunks c List.mem_cons_self).1 (List.append_eq_nil_iff.mp hflat.symm).1

/-- A chunked response is received as it should exactly if it has no chunk, the line of the last
chunk comes whole with the first read behind the header, before the end of the stream, and every
read finds the buffer with a null byte behind what it brings. -/
theorem recvResponse_chunked_iff {T : ResponseTable} {size : Nat} (garbage : HttpBuffer.Buffer size)
    {src rest : Source} {p : HttpResponseParser} {data : Text} {chunks : List Text}
    (hT : LastChunkLine T) (hsrc : src.Proper)
    (hheader : recvHeader (HttpResponseParser.header T false) size (src.size + 1) {} [] src =
      .finished p data rest) (hchunked : p.chunked = true)
    (hchunks : ∀ c ∈ chunks, c ≠ [] ∧ c.length < 2 ^ 31)
    (hstream : data ++ rest.pieces.flatten = encodeChunks chunks) :
    (∃ r src', (HttpBuffer.recvResponse T garbage src).2 = .ok (.message r, src') ∧
        r.body = chunks.flatten) ↔
      chunks = [] ∧ data.length < 5 ∧
        3 ≤ (data ++ (rest.read (size - data.length)).1).length ∧
        ∀ c ∈ (HttpBuffer.recvResponse T garbage src).1, c.Allowed T := by
  have hchunks_iff := recvResponse_chunks hT hsrc hheader hchunked hchunks hstream
  constructor
  · rintro ⟨r, src', hr, hbody⟩
    obtain ⟨hallowed, hplain⟩ := (HttpBuffer.recvResponse_ok_iff garbage src).mp hr
    obtain ⟨hnil, hlt, hline⟩ := hchunks_iff.mp ⟨r, by rw [hplain], hbody⟩
    exact ⟨hnil, hlt, hline, hallowed⟩
  · rintro ⟨hnil, hlt, hline, hallowed⟩
    obtain ⟨r, hr, hbody⟩ := hchunks_iff.mpr ⟨hnil, hlt, hline⟩
    exact ⟨r, _, (HttpBuffer.recvResponse_ok_iff garbage src).mpr ⟨hallowed, Prod.ext hr rfl⟩, hbody⟩

theorem responseMachine_lastChunkLine : LastChunkLine responseMachine where
  zero := by decide +kernel
  cr := by decide +kernel
  lf := by decide +kernel
  notCr := by decide +kernel
  notLf := by decide +kernel

/-- A response without chunks, in reads each of which finds a null byte behind what it brings: the
second line of the header has one in its value, right behind where the last read ends. -/
def noChunks : List Text :=
  [text "HTTP/1.1 200 OK\r\n", text "A: \x00\r\nTransfer-Encoding: chunked\r\n\r\n", text "0\r\n",
    text "\r\n"]

/-- The parser behind the header. -/
def noChunksParser : HttpResponseParser where
  cs := 120
  chunked := true
  mark := 25
  fieldStart := 6
  fieldLen := 17
  data :=
    { reason := text "OK", headers := [(text "A", [0]), (text "Transfer-Encoding", text "chunked")] }

theorem recvResponse_no_chunks :
    ∃ r src', (HttpBuffer.recvResponse responseMachine (HttpBuffer.Buffer.filled 4096 0)
        ⟨noChunks, []⟩).2 = .ok (.message r, src') ∧ r.body = [] := by
  have hproper : Source.Proper ⟨noChunks, []⟩ := by
    unfold Source.Proper
    decide +kernel
  have hheader : recvHeader (HttpResponseParser.header responseMachine false) 4096
      (Source.size ⟨noChunks, []⟩ + 1) {} [] ⟨noChunks, []⟩ =
      .finished noChunksParser [] ⟨[text "0\r\n", text "\r\n"], [4096, 4096]⟩ := by decide +kernel
  have hchunks : ∀ c ∈ ([] : List Text), c ≠ [] ∧ c.length < 2 ^ 31 := by simp
  have hiff := recvResponse_chunked_iff (HttpBuffer.Buffer.filled 4096 0)
    responseMachine_lastChunkLine hproper hheader rfl hchunks (by decide +kernel)
  exact hiff.mpr ⟨rfl, by decide +kernel, by decide +kernel, by decide +kernel⟩

/-- A response with a chunk of one byte, all in one read. -/
def oneChunk : Text :=
  text "HTTP/1.1 200 OK\r\nTransfer-Encoding: chunked\r\n\r\n" ++ text "1\r\nx\r\n0\r\n\r\n"

def oneChunkParser : HttpResponseParser where
  cs := 120
  chunked := true
  mark := 36
  fieldStart := 17
  fieldLen := 17
  data := { reason := text "OK", headers := [(text "Transfer-Encoding", text "chunked")] }

/-- Though the chunk is in the buffer, a read is waited for, and its end is taken for that of the
response. -/
theorem recvResponse_loses_chunk :
    (HttpBuffer.recvResponse responseMachine (HttpBuffer.Buffer.filled 4096 0) ⟨[oneChunk], []⟩).2 =
        .ok (.null, ⟨[], [4085, 4096]⟩) ∧
      ¬∀ (T : ResponseTable) (size : Nat) (garbage : HttpBuffer.Buffer size) (src rest : Source)
        (p : HttpResponseParser) (data : Text) (chunks : List Text), LastChunkLine T → src.Proper →
        recvHeader (HttpResponseParser.header T false) size (src.size + 1) {} [] src =
          .finished p data rest → p.chunked = true →
        (∀ c ∈ chunks, c ≠ [] ∧ c.length < 2 ^ 31) →
        data ++ rest.pieces.flatten = encodeChunks chunks →
        ∃ r src', (HttpBuffer.recvResponse T garbage src).2 = .ok (.message r, src') ∧
          r.body = chunks.flatten := by
  have hresult : (HttpBuffer.recvResponse responseMachine (HttpBuffer.Buffer.filled 4096 0)
      ⟨[oneChunk], []⟩).2 = .ok (.null, ⟨[], [4085, 4096]⟩) := by decide +kernel
  refine ⟨hresult, ?_⟩
  intro hall
  have hproper : Source.Proper ⟨[oneChunk], []⟩ := by
    unfold Source.Proper
    decide +kernel
  have hheader : recvHeader (HttpResponseParser.header responseMachine false) 4096
      (Source.size ⟨[oneChunk], []⟩ + 1) {} [] ⟨[oneChunk], []⟩ =
      .finished oneChunkParser (text "1\r\nx\r\n0\r\n\r\n") ⟨[], [4096]⟩ := by decide +kernel
  obtain ⟨r, src', hr, _⟩ := hall responseMachine 4096 (HttpBuffer.Buffer.filled 4096 0) _ _ _ _
    [text "x"] responseMachine_lastChunkLine hproper hheader rfl (by decide +kernel)
    (by decide +kernel)
  rw [hresult] at hr
  cases hr

end HxSylar.HttpConnection
