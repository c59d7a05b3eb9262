import HxSylar.HttpDump
import HxSylar.HttpStream
import HxSylar.Servlet

namespace HxSylar
open Lib

/-- What only `dump` reads of a response is kept as well. No constructor sets `websocket`. -/
structure Reply where
  response : HttpResponse
  cookies : List Text := []
  websocket : Bool
  deriving DecidableEq, Repr

def Reply.data (r : Reply) : Text := r.response.dump r.cookies r.websocket

/-- `handle` of a servlet, which may change the request, the response and all else that there is. -/
abbrev Handle (ω : Type*) := HttpRequest → Reply → ω → HttpRequest × Reply × ω

def NotFoundServlet.content : Text :=
  text "<html><head><title>404 Not Found" ++
    text "</title></head><body><center><h1>404 Not Found</h1></center>" ++
    text "<hr><center>" ++ text "sylar/1.0" ++ text "</center></body></html>"

def NotFoundServlet.handle {ω : Type*} : Handle ω := fun request reply w =>
  let response := { reply.response with status := 404 }
  let response := response.setHeader (text "Server") (text "sylar/1.0.0")
  let response := response.setHeader (text "Content-Type") (text "text/html")
  (request, { reply with response := { response with body := content } }, w)

/-- `HttpServer` (http_server.h:14-41) with what its servlets and callbacks do. No constructor sets
`isKeepalive`, and `dispatch` is null until `setServletDispatch`. -/
structure HttpServer (σ κ ω : Type*) where
  name : Text := text "hx_sylar/1.0.0"
  isKeepalive : Bool
  dispatch : Option (ServletDispatch σ κ) := none
  servlet : σ → Handle ω
  callback : κ → Handle ω

inductive SessionEnd
  | closed | nullDispatch | throws | overflow | stuck
  deriving DecidableEq, Repr

structure Handled (ω : Type*) where
  answered : List (HttpRequest × Reply)
  world : ω
  ending : SessionEnd

namespace HttpServer
variable {σ κ ω : Type*}

def uriKey (path : Text) : String := String.ofList (path.map fun b => Char.ofNat b.toNat)

def handle (server : HttpServer σ κ ω) (dispatch : ServletDispatch σ κ) : Handle ω :=
  fun request reply w =>
    match dispatch.getMatchServlet (uriKey request.path) with
    | none => (request, reply, w)
    | some (.given slt) => server.servlet slt request reply w
    | some (.function _ cb) => server.callback cb request reply w
    | some .notFound => NotFoundServlet.handle request reply w

def reply (server : HttpServer σ κ ω) (websocket : Bool) (request : HttpRequest) : Reply where
  response :=
    { version := request.version, close := request.close || !server.isKeepalive : HttpResponse
      }.setHeader (text "Server") server.name
  websocket := websocket

/-- The loop of `handleClient` (http_server.cc:22-46), blind to what `writeFixSize` returns. -/
def handleClient (T : RequestTable) (bufferSize : Nat) (websocket : Bool) (server : HttpServer σ κ ω) :
    Nat → Source → ω → Handled ω
  | 0, _, w => ⟨[], w, .stuck⟩
  | fuel + 1, src, w =>
    match HttpSession.recvRequest T bufferSize src with
    | (.null, _) => ⟨[], w, .closed⟩
    | (.throws, _) => ⟨[], w, .throws⟩
    | (.overflow, _) => ⟨[], w, .overflow⟩
    | (.stuck, _) => ⟨[], w, .stuck⟩
    | (.message request, src) =>
      match server.dispatch with
      | none => ⟨[], w, .nullDispatch⟩
      | some dispatch =>
        let (request, reply, w) := server.handle dispatch request (server.reply websocket request) w
        if !server.isKeepalive || request.close then ⟨[(request, reply)], w, .closed⟩
        else
          let rest := handleClient T bufferSize websocket server fuel src w
          { rest with answered := (request, reply) :: rest.answered }

end HttpServer
end HxSylar
