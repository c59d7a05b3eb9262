import HxSylar.PoolRequest
import HxSylar.Proofs.ResponseDump
import HxSylar.Proofs.Socket

namespace HxSylar
open Lib
namespace PoolHost
variable {pool : PoolHost} {method : HttpMethod} {url body : Text} {headers : List (Text × Text)}

/-- The headers that are carried over. -/
def carried (headers : List (Text × Text)) : List (Text × Text) :=
  headers.filter (fun h => !isConnection h.1)

/-- Whether one of the headers names a host. -/
def namesHost (headers : List (Text × Text)) : Bool :=
  headers.any (fun h => h.1.cstr.map toLower == text "host" && h.2 != [])

theorem host_not_connection {name : Text} (h : (name.cstr.map toLower == text "host") = true) :
    isConnection name = false := by
  rw [isConnection, eq_of_beq h]
  decide +kernel

def assignAll (m : Headers) (fields : List (Text × Text)) : Headers :=
  fields.foldl (fun m h => OrderedMap.assign caseInsensitiveLess m h.1 h.2) m

theorem assignAll_concat (m : Headers) (fields : List (Text × Text)) (h : Text × Text) :
    assignAll m (fields ++ [h]) = OrderedMap.assign caseInsensitiveLess (assignAll m fields) h.1 h.2 := by
  rw [assignAll, List.foldl_append]
  rfl

/-- What the loop over the headers makes of a request. -/
theorem foldl_addHeader (r : HttpRequest) (b : Bool) (hclose : r.close = false) :
    headers.foldl addHeader (r, b) =
      ({ r with headers := assignAll r.headers (carried headers) }, b || namesHost headers) := by
  induction headers generalizing r b with
  | nil => rw [namesHost, List.any_nil, Bool.or_false]; rfl
  | cons h headers ih =>
    rw [List.foldl_cons, addHeader, namesHost, List.any_cons, carried, List.filter_cons]
    cases hconnection : isConnection h.1 with
    | true =>
      have hhost : (h.1.cstr.map toLower == text "host") = false := by
        cases hb : h.1.cstr.map toLower == text "host" with
        | false => rfl
        | true =>
          rw [host_not_connection hb] at hconnection
          cases hconnection
      have hkept : ({ r with close := false } : HttpRequest) = r := by rw [← hclose]
      simp only [if_true, hhost, Bool.false_and, Bool.false_or, Bool.not_true, Bool.false_eq_true,
        if_false, hkept, ite_self]
      exact ih r b hclose
    | false =>
      simp only [Bool.false_eq_true, if_false, Bool.not_false, if_true]
      rw [ih _ _ (by exact hclose)]
      congr 1
      cases b <;> cases h.1.cstr.map toLower == text "host" <;> rfl

/-- The header that a pool adds. -/
def hostHeader (pool : PoolHost) (headers : List (Text × Text)) : List (Text × Text) :=
  if namesHost headers then []
  else [(text "Host", if pool.vhost = [] then pool.host else pool.vhost)]

theorem makeRequest_eq (pool : PoolHost) (method : HttpMethod) (url : Text)
    (headers : List (Text × Text)) (body : Text) : pool.makeRequest method url headers body =
      { path := url, method := method, close := false, body := body,
        headers := assignAll [] (carried headers ++ pool.hostHeader headers) } := by
  rw [makeRequest, foldl_addHeader _ _ rfl, hostHeader]
  cases namesHost headers with
  | true =>
    dsimp only
    rw [Bool.or_true, if_pos rfl, if_pos rfl, List.append_nil]
  | false =>
    dsimp only
    rw [Bool.or_false, if_neg Bool.false_ne_true, if_neg Bool.false_ne_true, assignAll_concat]
    rfl

theorem lastValue_carried (hheaders : ∀ h ∈ headers, 0 ∉ h.1) (name : Text) :
    lastValue (carried headers) name =
      if CaseVariant (text "connection") name then none else lastValue headers name := by
  split
  · rename_i hconnection
    apply lastValue_none
    intro h hh hvariant
    obtain ⟨hmem, hkept⟩ := List.mem_filter.mp hh
    have his : isConnection h.1 = true :=
      (HttpResponse.isConnection_iff (hheaders h hmem)).mpr (hconnection.trans hvariant.symm)
    rw [his] at hkept
    cases hkept
  · rename_i hconnection
    apply lastValue_filter
    intro h hh hvariant
    rw [Bool.not_eq_true', Bool.eq_false_iff]
    intro his
    exact hconnection (((HttpResponse.isConnection_iff (hheaders h hh)).mp his).trans hvariant)

/-- What a request of a pool carries of a header: nothing of the connection, the pool's host where no
header names one, and else the value of the last spelling of the name. -/
theorem makeRequest_header (pool : PoolHost) (method : HttpMethod) (url body : Text)
    (hheaders : ∀ h ∈ headers, 0 ∉ h.1) {name : Text} (hname : 0 ∉ name) :
    OrderedMap.find caseInsensitiveLess (pool.makeRequest method url headers body).headers name =
      if CaseVariant (text "connection") name then none
      else if CaseVariant (text "host") name ∧ namesHost headers = false then
        some (if pool.vhost = [] then pool.host else pool.vhost)
      else lastValue headers name := by
  have hnulls : ∀ h ∈ carried headers ++ pool.hostHeader headers, 0 ∉ h.1 := by
    intro h hh
    rcases List.mem_append.mp hh with hh | hh
    · exact hheaders h (List.mem_of_mem_filter hh)
    · rw [hostHeader] at hh
      split at hh
      · cases hh
      · rw [List.mem_singleton.mp hh]
        exact (by decide +kernel : 0 ∉ text "Host")
  have hspelling : CaseVariant (text "Host") name ↔ CaseVariant (text "host") name := by
    have hlower : (text "Host").map toLower = (text "host").map toLower := by decide +kernel
    rw [CaseVariant, CaseVariant, hlower]
  have hapart : CaseVariant (text "host") name → ¬CaseVariant (text "connection") name := by
    intro hhost hconnection
    have hsame : CaseVariant (text "host") (text "connection") := hhost.trans hconnection.symm
    revert hsame
    decide +kernel
  rw [makeRequest_eq, assignAll, find_assigned hnulls hname, lastValue_append,
    lastValue_carried hheaders, hostHeader]
  cases namesHost headers with
  | true =>
    have hnil : lastValue [] name = none := rfl
    simp only [if_true, hnil, Option.none_or, Bool.true_eq_false, and_false, if_false]
  | false =>
    rw [if_neg Bool.false_ne_true, ← List.nil_append [(text "Host", _)], lastValue_concat]
    by_cases hhost : CaseVariant (text "host") name
    · have hboth : CaseVariant (text "host") name ∧ false = false := ⟨hhost, rfl⟩
      rw [if_pos (hspelling.mpr hhost), Option.some_or, if_neg (hapart hhost), if_pos hboth]
    · have hboth : ¬(CaseVariant (text "host") name ∧ false = false) := fun h => hhost h.1
      have hnil : lastValue [] name = none := rfl
      rw [if_neg (fun h => hhost (hspelling.mp h)), hnil, Option.none_or, if_neg hboth]

/-- Two spellings of the host: the empty one is written last and stays. -/
theorem makeRequest_twoHosts :
    OrderedMap.find caseInsensitiveLess (makeRequest ⟨text "a", [], 80⟩ (.method 1) (text "/")
        [(text "HOST", text "b"), (text "host", [])] []).headers (text "Host") = some [] := by
  have hnulls : ∀ h ∈ [(text "HOST", text "b"), (text "host", ([] : Text))], 0 ∉ h.1 := by
    decide +kernel
  rw [makeRequest_header ⟨text "a", [], 80⟩ (.method 1) (text "/") [] hnulls (by decide +kernel)]
  decide +kernel

end PoolHost

/-- A connection with a socket that is not connected. -/
def PooledConnection.Unconnected (conn : PooledConnection) : Prop :=
  conn.socket.isSome = true ∧ conn.isConnected = false

/-- What a pool makes is not connected, though `connect` has succeeded. -/
theorem ClientPool.getConnection_unconnected {pool : ClientPool} (hconns : pool.conns = [])
    (w : Connecting) :
    (pool.getConnection w).2 = pool ∧ ∀ conn ∈ (pool.getConnection w).1, conn.Unconnected := by
  have hpool : { pool with conns := [] } = pool := by rw [← hconns]
  rw [getConnection, hconns, HttpConnectionPool.scan]
  simp only [hpool]
  cases w.addr with
  | none => exact ⟨rfl, fun _ hconn => nomatch hconn⟩
  | some addr =>
    have hsocket : (Socket.connect { family := addr.family, type := Socket.tcp } addr
        Socket.noTimeout w.socket w.rt).socket.isConnected = false := by
      rw [Socket.connect_socket, Socket.openSock_isConnected]
    dsimp only
    split
    · refine ⟨rfl, ?_⟩
      intro conn hconn
      obtain rfl := Option.mem_some.mp hconn
      exact ⟨rfl, hsocket⟩
    · exact ⟨rfl, fun _ hconn => nomatch hconn⟩

/-- What is not connected does not come back into the pool. -/
theorem ClientPool.releasePtr_unconnected (pool : ClientPool) (now : Nat) {conn : PooledConnection}
    (h : conn.Unconnected) : pool.releasePtr now conn = pool := by
  have hconn : PooledConnection.isConnected { conn with request := conn.request + 1 } = false := h.2
  rw [releasePtr]
  simp only [hconn, Bool.not_false, Bool.true_or, if_true]

/-- The first write ends the loop. -/
theorem PooledConnection.write_unconnected {conn : PooledConnection} (h : conn.Unconnected)
    (send : Nat → (offered : Nat) → { rt : Int // rt ≤ offered }) {data : Text} (hne : data ≠ [])
    (hle : data.length ≤ maxSize) :
    Stream.fixSize (conn.write send) data.length { data := data } = .ok (-1) { data := data } := by
  have hpos := List.length_pos_iff.mpr hne
  have hint64 : int64OfSize data.length = data.length := by
    rw [maxSize] at hle
    exact Int.bmod_eq_of_le_mul_two (by omega) (by omega)
  have hloop : Stream.fixSizeLoop (conn.write send) (data.length : Int) { data := data } =
      .ok (some (-1)) { data := data } := by
    rw [Stream.fixSizeLoop, dif_pos (Int.natCast_pos.mpr hpos)]
    simp [write, h.2]
  rw [Stream.fixSize, hint64, Lib.Effect.map_ok hloop]
  rfl

theorem HttpRequest.dump_ne_nil (req : HttpRequest) (websocket : Bool) : req.dump websocket ≠ [] := by
  have hcrlf : crlf ≠ [] := by decide
  simp [dump, hcrlf]

/-- A request that failed: there was no connection or an error of its socket, or no string holds its
text. -/
def HttpResult.Failed (req : PoolRequest) : Option HttpResult → Prop
  | none => maxSize < req.data.length
  | some r => r.response = none ∧ (r.result = .poolGetConnection ∨ r.result = .sendSocketError)

/-- A request on a connection that is not connected sends nothing. -/
theorem PoolHost.doRequest_unconnected {size : Nat} (pool : PoolHost) (T : ResponseTable)
    (peer : PoolPeer size) {conn : PooledConnection} (h : conn.Unconnected) (req : PoolRequest) :
    HttpResult.Failed req (pool.doRequest T peer conn req).1 ∧
      (pool.doRequest T peer conn req).2 = [] := by
  have hsome : ¬conn.socket.isNone = true := by
    rw [Option.isNone_iff_eq_none, ← ne_eq, Option.ne_none_iff_isSome]
    exact h.1
  rw [doRequest, if_neg hsome]
  split
  · rename_i hlong
    exact ⟨hlong, rfl⟩
  · rename_i hlong
    have hne : req.data ≠ [] := req.request.dump_ne_nil req.websocket
    rw [PooledConnection.write_unconnected h peer.send hne (Nat.le_of_not_lt hlong)]
    exact ⟨⟨rfl, .inr rfl⟩, rfl⟩

namespace PoolClients

/-- No connection comes into the pool, and no request gets anywhere. -/
structure Unsent (s : PoolClients) : Prop where
  conns : s.pool.conns = []
  busy : ∀ call ∈ s.busy, call.1.Unconnected
  results : ∀ r ∈ s.results, HttpResult.Failed r.1 r.2
  wire : s.wire = []

theorem Unsent.step {size : Nat} {T : ResponseTable} {s s' : PoolClients} (h : s.Unsent)
    {a : Act size} (hs : s.step T a = some s') : s'.Unsent := by
  cases a with
  | doRequest req w =>
    obtain ⟨hpool, hconn⟩ := ClientPool.getConnection_unconnected h.conns w
    simp only [PoolClients.step, hpool] at hs
    generalize (s.pool.getConnection w).1 = conn at hconn hs
    cases conn with
    | none =>
      cases hs
      exact ⟨h.conns, h.busy, List.forall_mem_cons.mpr ⟨⟨rfl, .inl rfl⟩, h.results⟩, h.wire⟩
    | some conn =>
      cases hs
      refine ⟨h.conns, ?_, h.results, h.wire⟩
      exact List.forall_mem_append.mpr
        ⟨h.busy, fun call hcall => List.mem_singleton.mp hcall ▸ hconn conn rfl⟩
  | finish call peer now =>
    obtain ⟨⟨conn, req⟩, hcall, rfl⟩ := Option.map_eq_some_iff.mp hs
    have hconn := h.busy _ (List.mem_of_getElem? hcall)
    obtain ⟨hfailed, hwire⟩ := s.pool.doRequest_unconnected T peer hconn req
    refine ⟨?_, ?_, List.forall_mem_cons.mpr ⟨hfailed, h.results⟩, ?_⟩
    · exact (congrArg ClientPool.conns (s.pool.releasePtr_unconnected now hconn)).trans h.conns
    · exact fun c hc => h.busy c (List.mem_of_mem_eraseIdx hc)
    · simp only [h.wire, hwire, List.append_nil]

/-- No request of a pool is ever sent, whatever the system answers: each fails for want of a
connection or for an error of its socket, and no connection is used again. -/
theorem requests_fail {size : Nat} {T : ResponseTable} {s : PoolClients}
    (hr : (machine T size).Reachable s) :
    s.pool.conns = [] ∧ s.wire = [] ∧ ∀ r ∈ s.results, HttpResult.Failed r.1 r.2 := by
  have hunsent : s.Unsent := by
    refine hr.invariant ?_ (fun _ _ _ h hs => h.step hs)
    rintro _ ⟨host, maxAliveTime, maxRequest, rfl⟩
    exact ⟨rfl, fun _ hc => (List.not_mem_nil hc).elim, fun _ hc => (List.not_mem_nil hc).elim, rfl⟩
  exact ⟨hunsent.conns, hunsent.wire, hunsent.results⟩

/-- Two threads: the one finds no address, the other one connects and would be served. -/
def twoClients : List (Act 4096) :=
  let request : PoolRequest :=
    ⟨PoolHost.makeRequest ⟨text "a", [], 80⟩ .get (text "/") [] [], false, 1000⟩
  let peer : PoolPeer 4096 := {
    send := fun _ offered => ⟨offered, Int.le_refl _⟩
    answers := fun _ => ⟨[text "HTTP/1.1 200 OK\r\n\r\n"], []⟩
    memory := .filled 4096 0
    remote := text "127.0.0.1:80"
    errno := text "0"
    errstr := text "Success" }
  [.doRequest request ⟨0, some { family := 2 }, 5, 0⟩, .doRequest request ⟨1, none, 0, 0⟩,
    .finish 0 peer 2]

theorem requests_fail_two :
    ∃ s : PoolClients, s.results.map (fun r => r.2.map HttpResult.result) =
        [some .sendSocketError, some .poolGetConnection] ∧
      s.pool.conns = [] ∧ s.wire = [] ∧ ∀ r ∈ s.results, HttpResult.Failed r.1 r.2 := by
  obtain ⟨s, hr, hresults⟩ := (machine responseMachine 4096).exists_of_exec
    (fun s => s.results.map (fun r => r.2.map HttpResult.result) =
      [some .sendSocketError, some .poolGetConnection])
    twoClients ⟨⟨text "a", [], 80⟩, 10000, 100, rfl⟩ (by decide +kernel)
  exact ⟨s, hresults, requests_fail hr⟩

end PoolClients
end HxSylar
