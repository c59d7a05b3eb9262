import HxSylar.HttpParam

namespace HxSylar
open Lib

/-- What `Address::Lookup` finds in `host` before it asks for the address (address.cc:67-90): the
string `node`, and where in `host` the pointer `service` stands, if it is not null. -/
def lookupNames (host : Text) : Text × Option Nat :=
  let (node, service) : Text × Option Nat :=
    if host ≠ [] ∧ host[0]? = some (byte ']') then
      match findByte host (byte ']') 1 with
      | some endipv6 =>
        (host.substr 1 (endipv6 - 1),
          if host.getD (endipv6 + 1) 0 = byte ':' then some (endipv6 + 2) else none)
      | none => ([], none)
    else ([], none)
  let (node, service) : Text × Option Nat :=
    if node = [] then
      match findByte host (byte ':') 0 with
      | some service =>
        if !(Text.cstr (host.drop (service + 1))).contains (byte ':') then
          (host.substr 0 service, some (service + 1))
        else (node, some service)
      | none => (node, none)
    else (node, service)
  (if node = [] then host else node, service)

/-- The strings that `getaddrinfo` sees, which both end at a null byte. -/
def lookupArguments (host : Text) : Text × Option Text :=
  let (node, service) := lookupNames host
  (node.cstr, service.map fun i => Text.cstr (host.drop i))

section Lookup
variable {σ α : Type} (getaddrinfo : Text × Option Text → (Int × Int × Int) → Except Int (List σ))
  (create : σ → α)

/-- `Address::Lookup` (address.cc:55-112) with the family, the type and the protocol of the hints,
and with `Address::Create`: what `result` is left as, and what is returned. -/
def lookup (result : List α) (host : Text) (family type protocol : Int) : List α × Bool :=
  match getaddrinfo (lookupArguments host) (family, type, protocol) with
  | .error _ => (result, false)
  | .ok results =>
    let result := result ++ results.map create
    (result, !result.isEmpty)

end Lookup

end HxSylar
