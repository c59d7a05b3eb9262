import HxSylar.Proofs.Subnet
import HxSylar.HttpParam
import HxSylar.Lib.Pieces

namespace HxSylar
open Lib

namespace Rfc4291

/-- A group: one to four hexadecimal digits. -/
def group (t : Text) : Option UInt16 :=
  if t ≠ [] ∧ t.length ≤ 4 ∧ t.all isxdigit then some (UInt16.ofNat (Text.number 16 0 t)) else none

/-- One of the four numbers at the end of the mixed form. -/
def octet (t : Text) : Option Nat :=
  (Text.natural t).bind fun n => if t.length ≤ 3 ∧ n < 256 then some n else none

/-- `d.d.d.d`: the two last groups of the mixed form. -/
def dotted (t : Text) : Option (List UInt16) :=
  match (t.splitOn (byte '.')).mapM octet with
  | some [a, b, c, d] => some [UInt16.ofNat (256 * a + b), UInt16.ofNat (256 * c + d)]
  | _ => none

/-- Groups between colons, the last of which may be two in the dotted form. -/
def groups (mixed : Bool) (t : Text) : Option (List UInt16) :=
  if t = [] then some []
  else do
    let pieces := t.splitOn (byte ':')
    let front ← pieces.dropLast.mapM group
    let last := pieces.getLast?.getD []
    let back ← ((group last).map ([·])) <|> (if mixed then dotted last else none)
    return front ++ back

/-- A text before and after the first `::`. -/
def cut : Text → Option (Text × Text)
  | [] => none
  | b :: rest =>
    if b = byte ':' ∧ rest.head? = some (byte ':') then some ([], rest.tail)
    else (cut rest).map fun (l, r) => (b :: l, r)

/-- The text forms of an address in RFC 4291, 2.2: eight groups, or fewer with one `::` in place of
the others, which are zero. -/
def parse (t : Text) : Option (List UInt16) :=
  match cut t with
  | none => (groups true t).bind fun gs => if gs.length = 8 then some gs else none
  | some (l, r) => do
    let l ← groups false l
    let r ← groups true r
    if l.length + r.length < 8 then
      return l ++ List.replicate (8 - (l.length + r.length)) 0 ++ r
    else none

example : parse (text "2001:db8::8:800:200C:417A") =
    some [0x2001, 0xdb8, 0, 0, 8, 0x800, 0x200c, 0x417a] := by decide

end Rfc4291

namespace IPv6Address

/-- The sixteen bytes of eight groups, each in network order. -/
def bytesOf (g : Vector UInt16 8) : Vector UInt8 16 :=
  Vector.ofFn fun i : Fin 16 =>
    let group := (g.get ⟨i / 2, by omega⟩).toNat
    UInt8.ofNat (if i.val % 2 = 0 then group / 256 else group)

/-- The text of an address and a port as it is expected: in brackets a form that is read back, then
a colon and the port. -/
def ReadsBack (host : Endian) (g : Vector UInt16 8) (port : UInt16) : Prop :=
  ∃ form, Rfc4291.parse form = some g.toList ∧
    (new host (bytesOf g) port).insert host =
      text "[" ++ form ++ text "]:" ++ Text.ofNat port.toNat

/-- The text ends at the bracket and the port. -/
theorem insert_port (host : Endian) (a : Vector UInt8 16) (port : UInt16) :
    ∃ os, (new host a port).insert host = os ++ text "]" ++ Text.ofNat port.toNat := by
  unfold insert
  have hport : byteswap16 host (new host a port).mAddr.sin6Port = port := byteswap16_twice host port
  rw [hport]
  exact ⟨_, rfl⟩

theorem digits_no_bracket (n : Nat) : byte ']' ∉ Text.ofNat n := by
  intro h
  have hdigit := List.all_eq_true.mp (Text.ofNat_all_isDigit n) _ h
  exact absurd hdigit (by decide)

/-- No text is as expected: there is no colon between the bracket and the port. -/
theorem insert_not_readable (host : Endian) (g : Vector UInt16 8) (port : UInt16) :
    ¬ReadsBack host g port := by
  intro h
  obtain ⟨form, _, hform⟩ := h
  obtain ⟨os, hos⟩ := insert_port host (bytesOf g) port
  have hbracket := digits_no_bracket port.toNat
  have hends : os ++ byte ']' :: Text.ofNat port.toNat =
      (text "[" ++ form) ++ byte ']' :: (byte ':' :: Text.ofNat port.toNat) := by
    have htexts := hos.symm.trans hform
    simpa [text] using htexts
  have hcolon : byte ']' ∉ byte ':' :: Text.ofNat port.toNat := by
    rw [List.mem_cons, not_or]
    exact ⟨by decide, hbracket⟩
  have hport := ((Pieces.append_last_sep_inj hbracket hcolon).mp hends).2
  have hlength := congrArg List.length hport
  simp at hlength

/-- The loopback address at port 80 is written as `[ ::1]80`. -/
theorem insert_loopback : ¬ReadsBack .little #v[0, 0, 0, 0, 0, 0, 0, 1] 80 := by
  intro h
  obtain ⟨form, _, hform⟩ := h
  have hinsert : (new .little (bytesOf #v[0, 0, 0, 0, 0, 0, 0, 1]) 80).insert .little =
      text "[ ::1]80" := by decide
  rw [hinsert] at hform
  have hport : (Text.ofNat (UInt16.toNat 80)).reverse = byte '0' :: [byte '8'] := by decide
  have hthird := congrArg (·.reverse[2]?) hform
  simp only [List.reverse_append, hport] at hthird
  have hcolon : some (byte ']') = some (byte ':') := hthird
  exact absurd hcolon (by decide)

end IPv6Address

end HxSylar
