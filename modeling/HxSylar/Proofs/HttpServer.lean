import HxSylar.HttpServer
import HxSylar.Proofs.HttpStream
import HxSylar.RequestMachine

namespace HxSylar
open Lib

namespace HttpRequestParser

/-- What no callback changes of a request. -/
structure Untouched (r : HttpRequest) : Prop where
  close : r.close = true
  version : r.version = 0x11
  body : r.body = []
  headers : r.headers = []

variable {T : RequestTable} {p : HttpRequestParser}

theorem act_untouched {buffer : Text} {pos : Nat} {a : RequestAct} (h : Untouched p.data) :
    Untouched (act buffer pos a p).data := by
  obtain ⟨hclose, hversion, hbody, hheaders⟩ := h
  cases a with
  | mark | startField | writeField | writeValue | requestMethod | requestUri | fragment
  | startQuery | queryString | httpVersion | requestPath | xml | json | done =>
    exact ⟨hclose, hversion, hbody, hheaders⟩

theorem execute_untouched {data : Text} (h : Untouched p.data) :
    Untouched (execute T p data).1.data := by
  rw [execute]
  split
  · exact h
  · exact Table.run_keeps (P := fun s : HttpRequestParser => Untouched s.data)
      (fun _ _ _ hs => act_untouched hs) h

theorem getContentLength_of_untouched (h : Untouched p.data) : p.getContentLength = 0 := by
  rw [getContentLength, h.headers]
  rfl

/-- The error of a method stays. -/
theorem act_error {buffer : Text} {pos : Nat} {a : RequestAct}
    (h : a = .requestMethod ∨ p.error ≠ 0) : (act buffer pos a p).error ≠ 0 := by
  cases a with
  | requestMethod => exact (by decide : (1000 : Int) ≠ 0)
  | mark | startField | writeField | writeValue | requestUri | fragment | startQuery | queryString
  | httpVersion | requestPath | xml | json | done => exact h.resolve_left nofun

theorem apply_error {buffer : Text} {pos : Nat} {as : List RequestAct}
    (h : .requestMethod ∈ as ∨ p.error ≠ 0) :
    (Table.apply (act buffer) pos as p).error ≠ 0 := by
  induction as generalizing p with
  | nil => exact h.resolve_left (List.not_mem_nil)
  | cons a as ih =>
    apply ih
    rcases h with h | h
    · rcases List.mem_cons.mp h with rfl | h
      · exact .inr (act_error (.inl rfl))
      · exact .inl h
    · exact .inr (act_error (.inr h))

end HttpRequestParser

section RecvRequest
open HttpRequestParser
variable {T : RequestTable} {bufferSize : Nat}

/-- A session returns a request without headers and body, which closes the connection, or none. -/
theorem HttpSession.recvRequest_cases (T : RequestTable) (bufferSize : Nat) (src : Source) :
    (∃ src', recvRequest T bufferSize src = (.null, src')) ∨
      ∃ p data src', recvHeader (HttpRequestParser.header T) bufferSize (src.size + 1) {} [] src =
          .finished p data src' ∧
        recvRequest T bufferSize src = (.message p.data, src') ∧ Untouched p.data ∧
        src'.size < src.size := by
  rw [recvRequest]
  cases hheader : recvHeader (HttpRequestParser.header T) bufferSize (src.size + 1) {} [] src with
  | null p src' => exact .inl ⟨src', rfl⟩
  | stuck => exact absurd hheader (recvHeader_ne_stuck (Nat.lt_succ_self _))
  | finished p data src' =>
    have hstart : Untouched ({} : HttpRequestParser).data := ⟨rfl, rfl, rfl, rfl⟩
    obtain ⟨hp, -⟩ := recvHeader_keeps (Q := fun p : HttpRequestParser => Untouched p.data)
      (fun _ _ hp => execute_untouched hp) hstart hheader
    refine .inr ⟨p, data, src', rfl, ?_, hp, recvHeader_size hheader⟩
    dsimp only
    rw [getContentLength_of_untouched hp, recvContent, if_pos rfl]

end RecvRequest

section FirstByte
open RequestMachine HttpRequestParser
variable {relaxed : Bool} {bufferSize : Nat}

/-- The states in front of the callback for the method. -/
def methodStates : List Nat := 2 :: List.range' 175 19

/-- From these states there is no way on without the callback. -/
theorem method_step {cs cs' : Nat} {b : UInt8} {as : List RequestAct}
    (h : requestMachine relaxed cs b = some (cs', as)) (hcs : cs ∈ methodStates) :
    cs' ∈ methodStates ∨ .requestMethod ∈ as := by
  have hall : ∀ cs ∈ methodStates, ∀ e ∈ (rows relaxed).getD cs [],
      e.2.2.1 ∈ methodStates ∨ .requestMethod ∈ e.2.2.2 := by
    cases relaxed <;> decide +kernel
  obtain ⟨lo, hi, hmem, -⟩ := Table.mem_of_ofRows h
  exact hall cs hcs _ hmem

/-- A request begins with its method, all else with a bracket or an at sign. -/
theorem first_step {cs' : Nat} {b : UInt8} {as : List RequestAct}
    (h : requestMachine relaxed 1 b = some (cs', as)) (hb : b ≠ byte '<' ∧ b ≠ byte '@') :
    cs' ∈ methodStates := by
  have hall : ∀ e ∈ (rows relaxed).getD 1 [],
      e.2.2.1 ∈ methodStates ∨ e.1 = e.2.1 ∧ e.1 ∈ [byte '<', byte '@'] := by
    cases relaxed <;> decide +kernel
  obtain ⟨lo, hi, hmem, hlo, hhi⟩ := Table.mem_of_ofRows h
  rcases hall _ hmem with hmethod | ⟨hone, hmessage⟩
  · exact hmethod
  · dsimp only at hone hmessage
    rw [← hone] at hhi
    rw [UInt8.le_antisymm hlo hhi] at hmessage
    rcases List.mem_cons.mp hmessage with hbracket | hat
    · exact absurd hbracket hb.1
    · exact absurd (List.mem_singleton.mp hat) hb.2

/-- The scan has not come past the method, or there is an error. -/
def Held (r : Scan HttpRequestParser) : Prop :=
  (r.out.error ≠ 0 ∨ r.cs ∈ methodStates) ∨ r.cs = 0

theorem method_run {buffer : Text} {cs pos : Nat} {xs : Text} {s : HttpRequestParser}
    (h : s.error ≠ 0 ∨ cs ∈ methodStates) :
    Held ((requestMachine relaxed).run RequestAct.stops (act buffer) cs pos xs s) := by
  apply Table.run_invariant (I := fun cs (s : HttpRequestParser) => s.error ≠ 0 ∨ cs ∈ methodStates)
    ?_ h
  intro cs pos b cs' as s hT hs
  rcases hs with hs | hs
  · exact .inl (apply_error (.inr hs))
  · rcases method_step hT hs with hnext | hmethod
    · exact .inr hnext
    · exact .inl (apply_error (.inl hmethod))

theorem first_run {buffer : Text} {pos : Nat} {b : UInt8} {xs : Text} {s : HttpRequestParser}
    (hb : b ≠ byte '<' ∧ b ≠ byte '@') :
    Held ((requestMachine relaxed).run RequestAct.stops (act buffer) 1 pos (b :: xs) s) := by
  rw [Table.run]
  cases hT : requestMachine relaxed 1 b with
  | none => exact .inr rfl
  | some next =>
    obtain ⟨cs', as⟩ := next
    have hcs' := first_step hT hb
    dsimp only
    split
    · exact .inl (.inr hcs')
    · exact method_run (.inr hcs')

/-- A parser that has read nothing of a request but its method, or has an error. -/
def Refuses (p : HttpRequestParser) : Prop := hasError p = true ∨ p.cs ∈ methodStates

theorem refuses_execute {p : HttpRequestParser} {data : Text} (hdata : data ≠ [])
    (h : Held ((requestMachine relaxed).run RequestAct.stops (act data) p.cs 0 data
      { p with mark := 0, fieldLen := 0, fieldStart := 0 })) :
    Refuses (execute (requestMachine relaxed) p data).1 := by
  rw [execute, if_neg hdata, Refuses, hasError, Bool.or_eq_true, bne_iff_ne, beq_iff_eq]
  dsimp only
  rcases h with (herror | hmethod) | hzero
  · exact .inl (.inl herror)
  · split
    · exact .inl (.inr rfl)
    · exact .inr hmethod
  · rw [hzero, ite_self]
    exact .inl (.inr rfl)

/-- What a parser that only has a method is far from. -/
theorem method_not_finished {p : HttpRequestParser} (h : p.cs ∈ methodStates) :
    isFinished p = false := by
  have hall : ∀ cs ∈ methodStates, ¬348 ≤ cs := by decide
  exact decide_eq_false (hall p.cs h)

/-- A loop that ends with a parser ends with one that is finished. -/
theorem recvHeader_finished {P : Type*} {H : HeaderParser P} {fuel : Nat} {p p' : P}
    {data data' : Text} {src src' : Source}
    (h : recvHeader H bufferSize fuel p data src = .finished p' data' src') :
    H.isFinished p' = true := by
  induction fuel generalizing p data src with
  | zero => cases h
  | succ fuel ih =>
    simp only [recvHeader] at h
    split at h
    · cases h
    · split at h
      · cases h
      · split at h
        · cases h
        · split at h
          · rename_i hfinished
            cases h
            exact hfinished
          · exact ih h

/-- What does not begin as a message is never read as a request. -/
theorem recvRequest_refused {src : Source}
    (hfirst : ∀ b ∈ src.pieces.flatten.head?, b ≠ byte '<' ∧ b ≠ byte '@') :
    ∃ src', HttpSession.recvRequest (requestMachine relaxed) bufferSize src = (.null, src') := by
  rcases HttpSession.recvRequest_cases (requestMachine relaxed) bufferSize src with
    hnull | ⟨p, data, src', hheader, -, -, -⟩
  · exact hnull
  · have hmethod : p.cs ∈ methodStates := by
      refine recvHeader_rule (H := HttpRequestParser.header (requestMachine relaxed))
        (I := fun p data s => p = {} ∧ data = [] ∧ s = src ∨ p.cs ∈ methodStates)
        (J := fun p _ _ => p.cs ∈ methodStates) ?_ (fun _ _ _ hJ => .inr hJ) (.inl ⟨rfl, rfl, rfl⟩)
        hheader
      intro p data s hstate r e hread herror _
      have hdata : data ++ r.1 ≠ [] := List.append_ne_nil_of_right_ne_nil _ hread
      have hrefuses : Refuses e.1 := by
        apply refuses_execute hdata
        rcases hstate with ⟨rfl, rfl, rfl⟩ | hcs
        · obtain ⟨b, xs, hxs⟩ := List.exists_cons_of_ne_nil hread
          have hflatten := s.read_flatten (bufferSize - ([] : Text).length)
          rw [show (s.read (bufferSize - ([] : Text).length)).1 = b :: xs from hxs] at hflatten
          rw [List.nil_append, hxs]
          exact first_run (hfirst b (by rw [← hflatten]; rfl))
        · exact method_run (.inr hcs)
      rcases hrefuses with hrefuses | hcs
      · rw [show HttpRequestParser.hasError e.1 = false from herror] at hrefuses
        cases hrefuses
      · exact hcs
    have hfinished : HttpRequestParser.isFinished p = true := recvHeader_finished hheader
    rw [method_not_finished hmethod] at hfinished
    cases hfinished

end FirstByte

namespace HttpServer
variable {σ κ ω : Type*}

/-- What is served leaves the connection to be closed. -/
def KeepsClose (server : HttpServer σ κ ω) : Prop :=
  ∀ dispatch, server.dispatch = some dispatch → ∀ request reply w, request.close = true →
    (server.handle dispatch request reply w).1.close = true

variable {T : RequestTable} {bufferSize : Nat} {websocket : Bool} {server : HttpServer σ κ ω}

/-- A request that leaves the connection to be closed is the last one. -/
theorem handleClient_last {dispatch : ServletDispatch σ κ} {src src' : Source}
    {request : HttpRequest} {w : ω}
    (hmessage : HttpSession.recvRequest T bufferSize src = (.message request, src'))
    (hdispatch : server.dispatch = some dispatch)
    (hclose : (server.handle dispatch request (server.reply websocket request) w).1.close = true)
    (fuel : Nat) :
    handleClient T bufferSize websocket server (fuel + 1) src w =
      (let answer := server.handle dispatch request (server.reply websocket request) w
      ⟨[(answer.1, answer.2.1)], answer.2.2, .closed⟩) := by
  rw [handleClient, hmessage]
  dsimp only
  rw [hdispatch]
  dsimp only
  rw [hclose, Bool.or_true, if_pos rfl]

/-- The loop ends with the session closed. -/
theorem handleClient_closed {fuel : Nat} {src : Source} {w : ω} (hfuel : src.size < fuel)
    (hdispatch : server.dispatch ≠ none) :
    (handleClient T bufferSize websocket server fuel src w).ending = .closed := by
  induction fuel generalizing src w with
  | zero => omega
  | succ fuel ih =>
    obtain ⟨dispatch, hsome⟩ := Option.ne_none_iff_exists'.mp hdispatch
    rw [handleClient]
    rcases HttpSession.recvRequest_cases T bufferSize src with
      ⟨src', hnull⟩ | ⟨p, data, src', -, hmessage, -, hsize⟩
    · rw [hnull]
    · rw [hmessage]
      dsimp only
      rw [hsome]
      dsimp only
      split
      · rfl
      · exact ih (by omega)

/-- As long as no servlet wants it otherwise, the loop is left with the first request: the parser
leaves `close` as it was. -/
theorem handleClient_once {fuel : Nat} {src : Source} {w : ω} (hkeeps : KeepsClose server) :
    (handleClient T bufferSize websocket server fuel src w).answered.length ≤ 1 := by
  cases fuel with
  | zero => exact Nat.zero_le 1
  | succ fuel =>
    rw [handleClient]
    rcases HttpSession.recvRequest_cases T bufferSize src with
      ⟨src', hnull⟩ | ⟨p, data, src', -, hmessage, huntouched, -⟩
    · rw [hnull]
      exact Nat.zero_le 1
    · rw [hmessage]
      dsimp only
      cases hdispatch : server.dispatch with
      | none => exact Nat.zero_le 1
      | some dispatch =>
        have hclose := hkeeps dispatch hdispatch p.data (server.reply websocket p.data) w
          huntouched.close
        dsimp only
        rw [hclose, Bool.or_true, if_pos rfl]
        exact Nat.le_refl 1

/-- What a client gets of a server: nothing, unless what it sends begins as a message of XML or JSON
does and no request, and at most one answer, whether the server keeps connections alive or not. The
session is closed in the end. -/
theorem handleClient_answers (relaxed : Bool) (bufferSize : Nat) (websocket : Bool)
    (server : HttpServer σ κ ω) (src : Source) (w : ω) :
    let r := handleClient (requestMachine relaxed) bufferSize websocket server (src.size + 1) src w
    ((∀ b ∈ src.pieces.flatten.head?, b ≠ byte '<' ∧ b ≠ byte '@') → r = ⟨[], w, .closed⟩) ∧
      (KeepsClose server → r.answered.length ≤ 1) ∧
      (server.dispatch ≠ none → r.ending = .closed) := by
  refine ⟨fun hfirst => ?_, handleClient_once, handleClient_closed (Nat.lt_succ_self _)⟩
  obtain ⟨src', hnull⟩ := recvRequest_refused hfirst
  rw [handleClient, hnull]

/-- A request as `dump` writes it begins with a letter of its method. -/
theorem dump_first (r : HttpRequest) {num : Fin 34} (hmethod : r.method = .method num)
    (websocket : Bool) :
    ∃ b, (r.dump websocket).head? = some b ∧ b ≠ byte '<' ∧ b ≠ byte '@' := by
  have hall : ∀ num : Fin 34,
      (httpMethodToString num).head?.any (fun b => b != byte '<' && b != byte '@') = true := by
    decide +kernel
  obtain ⟨b, hb, hne⟩ := (Option.any_eq_true _ _).mp (hall num)
  rw [Bool.and_eq_true, bne_iff_ne, bne_iff_ne] at hne
  refine ⟨b, ?_, hne⟩
  simp only [HttpRequest.dump, HttpRequest.startLine, hmethod, HttpMethod.toText, List.head?_append,
    hb, Option.some_or]

/-- A server of this library does not answer a client of it. -/
theorem handleClient_dump (relaxed : Bool) (bufferSize : Nat) (websocket : Bool)
    (server : HttpServer σ κ ω) (r : HttpRequest) {num : Fin 34} (hmethod : r.method = .method num)
    (rwebsocket : Bool) {src : Source} {more : Text}
    (hsrc : src.pieces.flatten = r.dump rwebsocket ++ more) (w : ω) (fuel : Nat) :
    handleClient (requestMachine relaxed) bufferSize websocket server (fuel + 1) src w =
      ⟨[], w, .closed⟩ := by
  obtain ⟨b, hdump, hne⟩ := dump_first r hmethod rwebsocket
  have hfirst : src.pieces.flatten.head? = some b := by
    rw [hsrc, List.head?_append, hdump, Option.some_or]
  have hnull : ∃ src', HttpSession.recvRequest (requestMachine relaxed) bufferSize src =
      (.null, src') := by
    refine recvRequest_refused fun b' hb' => ?_
    rw [hfirst, Option.mem_some_iff] at hb'
    rwa [← hb']
  obtain ⟨src', hnull⟩ := hnull
  rw [handleClient, hnull]

end HttpServer

end HxSylar
