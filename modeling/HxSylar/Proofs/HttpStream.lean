import HxSylar.HttpStream
import HxSylar.ResponseMachine

namespace HxSylar
open Lib

section Header
variable {P : Type*} {H : HeaderParser P} {bufferSize : Nat}

/-- Every round takes at least one byte from the source, so the loop ends. -/
theorem recvHeader_ne_stuck {fuel : Nat} {p : P} {data : Text} {src : Source}
    (h : src.size < fuel) : recvHeader H bufferSize fuel p data src ≠ .stuck := by
  induction fuel generalizing p data src with
  | zero => omega
  | succ fuel ih =>
    simp only [recvHeader]
    split
    · simp
    · rename_i hread
      have hlt := Source.read_lt hread
      split
      · simp
      · split
        · simp
        · split
          · simp
          · exact ih (by omega)

/-- One round of the loop on a read that returned something. -/
theorem recvHeader_round {fuel : Nat} {p : P} {data : Text} {src : Source}
    (hread : (src.read (bufferSize - data.length)).1 ≠ []) :
    recvHeader H bufferSize (fuel + 1) p data src =
      let buffer := data ++ (src.read (bufferSize - data.length)).1
      let src' := (src.read (bufferSize - data.length)).2
      let p' := (H.execute p buffer).1
      let data' := buffer.drop (H.execute p buffer).2
      if H.hasError p' then .null p' src'
      else if data'.length = bufferSize then .null p' src'
      else if H.isFinished p' then .finished p' data' src'
      else recvHeader H bufferSize fuel p' data' src' := by
  simp only [recvHeader, if_neg hread]

/-- What holds before every round and, in a stronger form, behind it, holds where the loop has
finished. -/
theorem recvHeader_rule {I J : P → Text → Source → Prop}
    (hround : ∀ p data src, I p data src →
      let r := src.read (bufferSize - data.length)
      let e := H.execute p (data ++ r.1)
      r.1 ≠ [] → H.hasError e.1 = false → ((data ++ r.1).drop e.2).length ≠ bufferSize →
      J e.1 ((data ++ r.1).drop e.2) r.2)
    (hweaken : ∀ p data src, J p data src → I p data src)
    {fuel : Nat} {p p' : P} {data data' : Text} {src src' : Source} (hstart : I p data src)
    (h : recvHeader H bufferSize fuel p data src = .finished p' data' src') : J p' data' src' := by
  induction fuel generalizing p data src with
  | zero => cases h
  | succ fuel ih =>
    simp only [recvHeader] at h
    split at h
    · cases h
    · rename_i hread
      split at h
      · cases h
      · rename_i herror
        split at h
        · cases h
        · rename_i hfull
          have hbehind := hround p data src hstart hread (by simpa using herror) hfull
          split at h
          · cases h
            exact hbehind
          · exact ih (hweaken _ _ _ hbehind) h

/-- What `execute` keeps, the loop keeps, and it ends without an error. -/
theorem recvHeader_keeps {Q : P → Prop} (hQ : ∀ p data, Q p → Q (H.execute p data).1)
    {fuel : Nat} {p p' : P} {data data' : Text} {src src' : Source} (hp : Q p)
    (h : recvHeader H bufferSize fuel p data src = .finished p' data' src') :
    Q p' ∧ H.hasError p' = false := by
  refine recvHeader_rule (I := fun p _ _ => Q p) (J := fun p _ _ => Q p ∧ H.hasError p = false)
    ?_ (fun _ _ _ hJ => hJ.1) hp h
  intro p data src hp r e _ herror _
  exact ⟨hQ _ _ hp, herror⟩

theorem recvHeader_size {fuel : Nat} {p p' : P} {data data' : Text} {src src' : Source}
    (h : recvHeader H bufferSize fuel p data src = .finished p' data' src') :
    src'.size < src.size := by
  refine recvHeader_rule (I := fun _ _ s => s.size ≤ src.size) (J := fun _ _ s => s.size < src.size)
    ?_ (fun _ _ _ hJ => Nat.le_of_lt hJ) (Nat.le_refl _) h
  intro p data s hle r e hread _ _
  exact Nat.lt_of_lt_of_le (Source.read_lt hread) hle

/-- The loop leaves room in the buffer. -/
theorem recvHeader_room {fuel : Nat} {p p' : P} {data data' : Text} {src src' : Source}
    (hroom : data.length ≤ bufferSize) (hsrc : src.Proper)
    (h : recvHeader H bufferSize fuel p data src = .finished p' data' src') :
    data'.length < bufferSize ∧ src'.Proper := by
  refine recvHeader_rule (I := fun _ d s => d.length ≤ bufferSize ∧ s.Proper)
    (J := fun _ d s => d.length < bufferSize ∧ s.Proper)
    ?_ (fun _ _ _ hJ => ⟨Nat.le_of_lt hJ.1, hJ.2⟩) ⟨hroom, hsrc⟩ h
  rintro p d s ⟨hd, hs⟩ r e _ _ hfull
  refine ⟨Nat.lt_of_le_of_ne ?_ hfull, hs.read _⟩
  have hle : r.1.length ≤ bufferSize - d.length := s.read_length _
  rw [List.length_drop, List.length_append]
  omega

end Header

namespace HttpResponseParser

/-- No action sets the body. -/
theorem act_body (buffer : Text) (pos : Nat) (a : ResponseAct) (p : HttpResponseParser) :
    (act buffer pos a p).data.body = p.data.body := by
  cases a with
  | writeValue =>
    simp only [act, onResponseHttpField]
    split <;> rfl
  | httpVersion =>
    simp only [act, onResponseVersion]
    split
    · rfl
    · split <;> rfl
  | chunkSize =>
    simp only [act]
    split <;> rfl
  | _ => rfl

theorem execute_body {T : ResponseTable} {p : HttpResponseParser} {data : Text} {chunk : Bool}
    (h : p.data.body = []) : (execute T p data chunk).1.data.body = [] := by
  have hrun : ∀ q : HttpResponseParser, q.data.body = [] →
      (T.run ResponseAct.stops (act data) q.cs 0 data
        { q with mark := 0, fieldLen := 0, fieldStart := 0 }).out.data.body = [] := by
    intro q hq
    refine Table.run_keeps (P := fun r : HttpResponseParser => r.data.body = []) ?_ hq
    intro pos a r hr
    rw [act_body, hr]
  simp only [execute]
  cases chunk with
  | true => exact hrun p.init h
  | false => exact hrun p h

end HttpResponseParser

theorem recvHeader_body {T : ResponseTable} {chunk : Bool} {bufferSize fuel : Nat}
    {p p' : HttpResponseParser} {data data' : Text} {src src' : Source} (hp : p.data.body = [])
    (h : recvHeader (HttpResponseParser.header T chunk) bufferSize fuel p data src =
      .finished p' data' src') :
    p'.data.body = [] ∧ p'.hasError = false :=
  recvHeader_keeps (Q := fun p : HttpResponseParser => p.data.body = [])
    (fun _ _ hp => HttpResponseParser.execute_body hp) hp h

/-- How a body of `n` bytes has to be received, of which `data` is in the buffer already. -/
structure ContentReceived (n : Nat) (data : Text) (rest : Source)
    (result : Received HttpResponse × Source) : Prop where
  whole : n ≤ (data ++ rest.pieces.flatten).length →
    ∃ r, result.1 = .message r ∧ r.body = (data ++ rest.pieces.flatten).take n
  short : (data ++ rest.pieces.flatten).length < n → result.1 = .null
  asked : ∃ new, result.2.asked = new ++ rest.asked ∧ ∀ k ∈ new, k ≤ n - data.length

section Content
variable {n : Nat} {data : Text} {rest : Source} {m : HttpResponse}

theorem recvContent_ne_stuck {M : Type*} {setBody : M → Text → M} {m : M} :
    (recvContent setBody m n data rest).1 ≠ .stuck := by
  simp only [recvContent]
  repeat' split
  all_goals simp

/-- A message without a body is never right for a body that is announced. -/
theorem not_received_of_empty {result : Received HttpResponse × Source} {r : HttpResponse}
    (hn : 0 < n) (hresult : result.1 = .message r) (hbody : r.body = []) :
    ¬ContentReceived n data rest result := by
  intro h
  by_cases hlen : n ≤ (data ++ rest.pieces.flatten).length
  · obtain ⟨r', hr', hbody'⟩ := h.whole hlen
    rw [hresult] at hr'
    cases hr'
    have hlength := congrArg List.length hbody'
    rw [hbody, List.length_take, List.length_nil] at hlength
    omega
  · have hnull := h.short (by omega)
    rw [hresult] at hnull
    cases hnull

/-- With no more in the buffer than was announced, a single read ends the body, and the body
stays empty. -/
theorem recvContent_le (m : HttpResponse) (rest : Source)
    (setBody : HttpResponse → Text → HttpResponse) (hn : n ≠ 0)
    (hmax : n ≤ maxSize) (hle : data.length ≤ n) :
    recvContent setBody m n data rest =
      if data.length = n then (.message (setBody m []), rest)
      else
        let r := rest.read (n - data.length)
        if r.1 = [] then (.null, r.2) else (.message (setBody m []), r.2) := by
  have hleft : (n + 2 ^ 64 - data.length) % 2 ^ 64 = n - data.length := by
    have hbound : n < 2 ^ 64 := Nat.lt_of_le_of_lt hmax (by decide)
    rw [show n + 2 ^ 64 - data.length = (n - data.length) + 2 ^ 64 by omega, Nat.add_mod_right,
      Nat.mod_eq_of_lt (by omega)]
  have hread := rest.read_length (n - data.length)
  have hroom : ¬n < data.length + (rest.read (n - data.length)).1.length := by omega
  have hempty : ∀ r, overwrite [] data.length r = [] := by
    intro r
    simp [overwrite]
  simp only [recvContent, if_neg hn, if_neg (show ¬maxSize < n by omega), if_pos hle, hleft,
    if_neg hroom, hempty]
  by_cases hfull : data.length = n
  · rw [if_neg (by omega), if_pos hfull]
  · rw [if_pos (by omega), if_neg hfull]

/-- With more in the buffer, the subtraction wraps around and the read asks for the result. -/
theorem recvContent_asked (setBody : HttpResponse → Text → HttpResponse) (hn : n ≠ 0)
    (hmax : n ≤ maxSize) (hmore : n < data.length) (h64 : data.length < 2 ^ 64) :
    (recvContent setBody m n data rest).2.asked = (n + 2 ^ 64 - data.length) :: rest.asked := by
  have hleft : (n + 2 ^ 64 - data.length) % 2 ^ 64 = n + 2 ^ 64 - data.length :=
    Nat.mod_eq_of_lt (by omega)
  simp only [recvContent, if_neg hn, if_neg (show ¬maxSize < n by omega), hleft,
    if_neg (show ¬data.length ≤ n by omega)]
  rw [if_pos (by omega)]
  split
  · rw [Source.read_asked]
  · split
    · rw [Source.read_asked]
    · rw [Source.read_asked]

theorem not_received_of_more (setBody : HttpResponse → Text → HttpResponse) (hn : n ≠ 0)
    (hmax : n ≤ maxSize) (hmore : n < data.length) (h64 : data.length < 2 ^ 64) :
    ¬ContentReceived n data rest (recvContent setBody m n data rest) := by
  intro h
  obtain ⟨new, hnew, hasked⟩ := h.asked
  rw [recvContent_asked setBody hn hmax hmore h64, ← List.singleton_append] at hnew
  have hnew' := List.append_cancel_right hnew
  have hle := hasked (n + 2 ^ 64 - data.length) (by simp [← hnew'])
  omega

/-- A body is received as it should exactly if there is none, or if the source has ended before
it was complete. -/
theorem recvContent_received (h64 : data.length < 2 ^ 64) (hrest : rest.Proper)
    (hm : m.body = []) :
    ContentReceived n data rest
        (recvContent (fun r body => { r with body := body }) m n data rest) ↔
      n = 0 ∨ (data.length < n ∧ n ≤ maxSize ∧ rest.pieces = []) := by
  by_cases hn : n = 0
  · subst hn
    refine iff_of_true ⟨fun _ => ⟨m, rfl, hm⟩, fun h => absurd h (by omega), [], rfl, ?_⟩ (.inl rfl)
    intro k hk
    cases hk
  by_cases hmax : n ≤ maxSize
  · by_cases hmore : n < data.length
    · exact iff_of_false (not_received_of_more _ hn hmax hmore h64) (by omega)
    · have hspec := recvContent_le m rest (fun r body => { r with body := body }) hn hmax
        (by omega : data.length ≤ n)
      rw [hspec]
      by_cases hfull : data.length = n
      · rw [if_pos hfull]
        exact iff_of_false (not_received_of_empty (by omega) rfl rfl) (by omega)
      · rw [if_neg hfull]
        simp only [hrest.read_eq_nil_iff (show 0 < n - data.length by omega)]
        by_cases hend : rest.pieces = []
        · rw [if_pos hend]
          refine iff_of_true ⟨?_, fun _ => rfl, [n - data.length], ?_, by simp⟩
            (.inr ⟨by omega, hmax, hend⟩)
          · intro hlen
            rw [hend, List.flatten_nil, List.append_nil] at hlen
            omega
          · rw [Source.read_asked]
            rfl
        · rw [if_neg hend]
          refine iff_of_false (not_received_of_empty (by omega) rfl rfl) ?_
          intro h
          rcases h with h | ⟨_, _, h⟩
          · exact hn h
          · exact hend h
  · -- `reserve` throws
    rw [recvContent, if_neg hn, if_pos (by omega)]
    refine iff_of_false ?_ (by omega)
    intro h
    by_cases hlen : n ≤ (data ++ rest.pieces.flatten).length
    · obtain ⟨r, hr, _⟩ := h.whole hlen
      cases hr
    · cases h.short (by omega)

end Content

namespace HttpConnection
variable {T : ResponseTable} {bufferSize : Nat}

/-- A response with a `Content-Length` is received as it should exactly if the length is zero, or
if what was left in the buffer behind the header is less and nothing follows. The calls of the parser
that read the header are taken to go on where the assertion on the null byte behind it fails. -/
theorem recvResponse_content_iff {bufferSize : UInt64} {src rest : Source}
    {p : HttpResponseParser} {data : Text} (hsrc : src.Proper)
    (hheader : recvHeader (HttpResponseParser.header T false) bufferSize.toNat (src.size + 1) {} []
      src = .finished p data rest) (hchunked : p.chunked = false) :
    ContentReceived p.getContentLength data rest (recvResponse T bufferSize.toNat src) ↔
      p.getContentLength = 0 ∨ (data.length < p.getContentLength ∧
        p.getContentLength ≤ maxSize ∧ rest.pieces = []) := by
  obtain ⟨hbody, _⟩ := recvHeader_body rfl hheader
  obtain ⟨hroom, hrest⟩ := recvHeader_room (Nat.zero_le _) hsrc hheader
  have h64 : data.length < 2 ^ 64 := Nat.lt_trans hroom bufferSize.toNat_lt
  rw [recvResponse, hheader]
  simp only [recvBody, hchunked, Bool.false_eq_true, ↓reduceIte]
  exact recvContent_received h64 hrest hbody

/-- The header of a response that announces one byte. -/
def oneByteHeader : Text := text "HTTP/1.1 200 OK\r\nContent-Length: 1\r\n\r\n"

/-- The parser behind it. -/
def oneByteParser : HttpResponseParser where
  cs := 120
  contentLen := 1
  mark := 33
  fieldStart := 17
  fieldLen := 14
  data := { reason := text "OK", headers := [(text "Content-Length", text "1")] }

/-- The peer closes the connection in place of the body. -/
theorem recvResponse_without_body :
    ContentReceived 1 [] ⟨[], [4096]⟩
      (recvResponse responseMachine (4096 : UInt64).toNat ⟨[oneByteHeader], []⟩) := by
  have hheader : recvHeader (HttpResponseParser.header responseMachine false)
      (4096 : UInt64).toNat (Source.size ⟨[oneByteHeader], []⟩ + 1) {} [] ⟨[oneByteHeader], []⟩ =
      .finished oneByteParser [] ⟨[], [4096]⟩ := by decide +kernel
  have hlength : oneByteParser.getContentLength = 1 := by decide +kernel
  have hsrc : Source.Proper ⟨[oneByteHeader], []⟩ := by
    intro piece hpiece
    rw [List.mem_singleton.mp hpiece]
    decide
  have hiff := recvResponse_content_iff hsrc hheader rfl
  rw [hlength] at hiff
  exact hiff.mpr (.inr ⟨by decide +kernel, by decide +kernel, rfl⟩)

/-- The body comes with the header and is lost. -/
theorem recvResponse_loses_body :
    ¬∀ (T : ResponseTable) (bufferSize : UInt64) (src rest : Source) (p : HttpResponseParser)
      (data : Text), src.Proper → recvHeader (HttpResponseParser.header T false) bufferSize.toNat
        (src.size + 1) {} [] src = .finished p data rest → p.chunked = false →
      ContentReceived p.getContentLength data rest (recvResponse T bufferSize.toNat src) := by
  intro hall
  have hheader : recvHeader (HttpResponseParser.header responseMachine false)
      (4096 : UInt64).toNat (Source.size ⟨[oneByteHeader ++ text "x"], []⟩ + 1) {} []
      ⟨[oneByteHeader ++ text "x"], []⟩ =
      .finished oneByteParser (text "x") ⟨[], [4096]⟩ := by decide +kernel
  have hresult : (recvResponse responseMachine (4096 : UInt64).toNat
      ⟨[oneByteHeader ++ text "x"], []⟩).1 = .message oneByteParser.data := by decide +kernel
  have hreceived := hall responseMachine 4096 ⟨[oneByteHeader ++ text "x"], []⟩ _ _ _ ?_ hheader rfl
  · obtain ⟨r, hr, hbody⟩ := hreceived.whole (by decide +kernel)
    rw [hresult] at hr
    cases hr
    exact absurd hbody (by decide +kernel)
  · intro piece hpiece
    rw [List.mem_singleton.mp hpiece]
    decide

end HttpConnection
end HxSylar
