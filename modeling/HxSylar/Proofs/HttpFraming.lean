import Mathlib.Data.List.Permutation
import HxSylar.Proofs.HttpElements
import HxSylar.Proofs.HttpFragments
import HxSylar.RequestMachine

namespace HxSylar
open Lib

/-- The elements of a header when more follows it in the buffer. -/
def RequestElements.followedBy (e : RequestElements) (more : Text) : RequestElements :=
  { e with method := e.method ++ more, rest := e.rest ++ more }

/-- A request as a client sends it. -/
structure SentRequest where
  method : Fin 34
  elements : RequestElements
  header : Text
  body : Text

namespace SentRequest

def bytes (r : SentRequest) : Text := r.header ++ r.body

/-- The request that should be received. -/
def request (r : SentRequest) : HttpRequest :=
  r.elements.fields.foldl (fun q f => q.setHeader f.1 f.2)
    { method := .method r.method
      version := r.elements.version.number
      path := r.elements.path
      query := r.elements.query.getD []
      fragment := r.elements.fragment.getD []
      body := r.body }

/-- The machine takes the header and reports its elements, whatever follows in the buffer, and the
header announces the length of the body. -/
structure WellFormed (T : RequestTable) (r : SentRequest) : Prop where
  accepted : ∃ final, T.Accepts RequestAct.stops 1 r.header final
  reported : ∀ more,
    HttpRequestParser.calls T (r.header ++ more) = (r.elements.followedBy more).calls
  method : httpMethodToString r.method ++ text " " <+: r.elements.method
  version : r.elements.version = .http11
  length : ((lastValue r.elements.fields (text "content-length")).bind lexicalCastU64).getD 0 =
    r.body.length

end SentRequest

/-- Every header lies in one piece, which a read returns whole. -/
def HeadersWhole (bufferSize : Nat) (reqs : List SentRequest) (pieces : List Text) : Prop :=
  ∀ front r back, reqs = front ++ r :: back →
    ∃ before piece after, pieces = before ++ piece :: after ∧ piece.length ≤ bufferSize ∧
      before.flatten.length ≤ (front.flatMap SentRequest.bytes).length ∧
      (front.flatMap SentRequest.bytes).length + r.header.length ≤
        before.flatten.length + piece.length

namespace HttpSession
variable {T : RequestTable} {bufferSize : Nat}

/-- A header that comes with one read is refused. -/
theorem recvRequest_null {r : SentRequest} (hr : r.WellFormed T) {src : Source} {more : Text}
    {pieces : List Text} (hpieces : src.pieces = (r.header ++ more) :: pieces)
    (hne : r.header ++ more ≠ []) (hroom : (r.header ++ more).length ≤ bufferSize) :
    (recvRequest T bufferSize src).1 = .null := by
  obtain ⟨_, asked⟩ := src
  subst hpieces
  have herror : (HttpRequestParser.execute T {} (r.header ++ more)).1.hasError = true := by
    have h1000 := (HttpRequestParser.execute_records T (r.header ++ more)).2
    rw [hr.reported more] at h1000
    change _ = (HttpRequestParser.parsed _).error at h1000
    rw [HttpRequestParser.parsed_eq] at h1000
    simp [HttpRequestParser.hasError, h1000]
  rw [recvRequest, recvHeader_error (H := HttpRequestParser.header T) hne hroom herror]

/-- The first header is at the front of the first piece. -/
theorem first_header {r : SentRequest} {rs : List SentRequest} {src : Source} (hsrc : src.Proper)
    (hstream : src.pieces.flatten = (r :: rs).flatMap SentRequest.bytes)
    (hwhole : HeadersWhole bufferSize (r :: rs) src.pieces) :
    ∃ more pieces, src.pieces = (r.header ++ more) :: pieces ∧
      (r.header ++ more).length ≤ bufferSize := by
  obtain ⟨before, piece, after, hpieces, hroom, hbefore, hend⟩ := hwhole [] r rs rfl
  have hnil : before = [] := by
    cases before with
    | nil => rfl
    | cons x xs =>
      have hx := hsrc x (by simp [hpieces])
      simp [hx] at hbefore
  subst hnil
  rw [List.nil_append] at hpieces
  rw [hpieces, List.flatten_cons, List.flatMap_cons, SentRequest.bytes] at hstream
  have hbytes : r.header <+: piece ++ after.flatten := by
    rw [hstream, List.append_assoc]
    exact List.prefix_append _ _
  have hprefix : r.header <+: piece :=
    List.prefix_of_prefix_length_le hbytes (List.prefix_append _ _) (by simpa using hend)
  obtain ⟨more, rfl⟩ := hprefix
  exact ⟨more, after, hpieces, hroom⟩

/-- The calls on a session return the requests that were sent exactly if none was sent. -/
theorem recvRequests_iff {reqs : List SentRequest} {src : Source}
    (hreqs : ∀ r ∈ reqs, r.WellFormed T) (hsrc : src.Proper)
    (hstream : src.pieces.flatten = reqs.flatMap SentRequest.bytes)
    (hwhole : HeadersWhole bufferSize reqs src.pieces) :
    recvRequests T bufferSize reqs.length src =
      reqs.map (fun r => .message r.request) ↔ reqs = [] := by
  cases reqs with
  | nil => exact iff_of_true rfl rfl
  | cons r rs =>
    refine iff_of_false ?_ (List.cons_ne_nil _ _)
    intro h
    obtain ⟨more, pieces, hpieces, hroom⟩ := first_header hsrc hstream hwhole
    have hne := hsrc (r.header ++ more) (by simp [hpieces])
    have hhead : (recvRequest T bufferSize src).1 = .message r.request := (List.cons.inj h).1
    rw [recvRequest_null (hreqs r List.mem_cons_self) hpieces hne hroom] at hhead
    cases hhead

def getHeader : Text := text "GET /a HTTP/1.1\r\nA: b\r\n\r\n"

/-- A request without a body. -/
def getRequest : SentRequest where
  method := ⟨1, by decide +kernel⟩
  elements :=
    { method := getHeader, path := text "/a", query := none, uri := text "/a", fragment := none,
      version := .http11, fields := [(text "A", text "b")], rest := [] }
  header := getHeader
  body := []

theorem getHeader_accepts :
    (requestMachine false).Accepts RequestAct.stops 1 getHeader 348 :=
  ⟨getHeader.dropLast, 10, 18, [.done], by decide +kernel, by decide +kernel, by decide +kernel,
    by decide +kernel⟩

theorem getRequest_wellFormed : getRequest.WellFormed (requestMachine false) where
  accepted := ⟨348, getHeader_accepts⟩
  reported more := by
    have htrace : (requestMachine false).trace RequestAct.stops 1 getHeader =
        [(0, .mark), (3, .requestMethod), (4, .mark), (6, .requestPath), (6, .requestUri),
          (7, .mark), (15, .httpVersion), (17, .startField), (18, .writeField), (19, .mark),
          (20, .mark), (21, .writeValue), (23, .startField), (24, .done)] := by decide +kernel
    rw [HttpRequestParser.calls, show getRequest.header = getHeader from rfl,
      Table.run_of_accepts _ _ _ getHeader_accepts, Table.run_out_trace, htrace]
    rfl
  method := by decide +kernel
  version := rfl
  length := by decide +kernel

theorem getRequest_whole : HeadersWhole 4096 [getRequest] [getHeader] := by
  intro front r back h
  cases front with
  | nil =>
    obtain ⟨rfl, rfl⟩ := List.cons.inj h
    exact ⟨[], getHeader, [], rfl, by decide +kernel, by decide +kernel, by decide +kernel⟩
  | cons x front => simp at h

theorem getRequest_proper : Source.Proper ⟨[getHeader], []⟩ := by
  intro piece hpiece
  rw [List.mem_singleton.mp hpiece]
  decide

/-- One request is enough for the calls not to return what was sent. -/
theorem recvRequests_one :
    recvRequests (requestMachine false) 4096 [getRequest].length ⟨[getHeader], []⟩ ≠
      [getRequest].map (fun r => .message r.request) := by
  have hreqs : ∀ r ∈ [getRequest], r.WellFormed (requestMachine false) := by
    simpa using getRequest_wellFormed
  have hiff := recvRequests_iff hreqs getRequest_proper (by decide +kernel) getRequest_whole
  exact fun h => absurd (hiff.mp h) (by simp)

/-- The call on it returns a null pointer. -/
theorem recvRequests_refuses :
    ¬∀ (T : RequestTable) (bufferSize : Nat) (reqs : List SentRequest) (src : Source),
      (∀ r ∈ reqs, r.WellFormed T) → src.Proper →
      src.pieces.flatten = reqs.flatMap SentRequest.bytes →
      HeadersWhole bufferSize reqs src.pieces →
      recvRequests T bufferSize reqs.length src = reqs.map (fun r => .message r.request) := by
  intro hall
  have hreqs : ∀ r ∈ [getRequest], r.WellFormed (requestMachine false) := by
    simpa using getRequest_wellFormed
  have hreturned := hall (requestMachine false) 4096 [getRequest] ⟨[getHeader], []⟩ hreqs
    getRequest_proper (by decide +kernel) getRequest_whole
  have hnull : recvRequests (requestMachine false) 4096 [getRequest].length ⟨[getHeader], []⟩ =
      [.null] := by decide +kernel
  rw [hnull] at hreturned
  cases hreturned

end HttpSession
end HxSylar
