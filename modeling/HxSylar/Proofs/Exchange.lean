import HxSylar.Proofs.MessageAnswer
import HxSylar.Proofs.ResponseDump

namespace HxSylar
open Lib ResponseMachine

/-- What a server has sent, answer by answer. -/
def Handled.sent {ω : Type*} (r : Handled ω) : List Text := r.answered.map (fun a => a.2.data)

namespace HttpServer
variable {σ κ ω : Type*} {relaxed : Bool} {bufferSize : Nat}

/-- The answer where a dispatch has nothing for a path. -/
def notFoundAnswer : HttpResponse where
  status := 404
  close := true
  body := NotFoundServlet.content
  headers := [(text "Content-Type", text "text/html"), (text "Server", text "sylar/1.0.0")]

/-- Whatever the name of a server, and whether it keeps connections alive or not. -/
theorem notFound_reply (server : HttpServer σ κ ω) (websocket : Bool) (path : Text) (w : ω) :
    NotFoundServlet.handle { path := path } (server.reply websocket { path := path }) w =
      ({ path := path }, { response := notFoundAnswer, websocket := websocket }, w) := by
  rfl

theorem notFoundAnswer_deliverable (websocket : Bool) :
    notFoundAnswer.Deliverable [] websocket 4096 where
  version := by decide
  status := by
    change (0 : Int) ≤ 404 ∧ (404 : Int) ≤ 2147483647
    omega
  reason b hb := by cases hb
  headers h hh := by
    have hall : ∀ h ∈ notFoundAnswer.headers, h.1 ≠ [] ∧ (∀ b ∈ h.1, isToken b = true) ∧
        (∀ b ∈ h.2, inLine b = true) ∧ (∀ b ∈ h.2.head?, isLineSpace b = false) ∧
        (h.2 = [] → colonState (h.1.map toLower) = 22) := by decide +kernel
    obtain ⟨h1, h2, h3, h4, h5⟩ := hall h hh
    exact ⟨h1, h2, h3, h4, h5⟩
  sorted := by
    rw [OrderedMap.Sorted]
    decide +kernel
  lines c hc := by cases hc
  plain := by decide +kernel
  unannounced := by decide +kernel
  fits := by cases websocket <;> decide +kernel
  body_le := by decide +kernel

end HttpServer
end HxSylar
