import HxSylar.Proofs.IPv6Text
import HxSylar.Lib.Hex
import HxSylar.Lib.MapM

namespace HxSylar
open Lib

namespace Rfc4291

/-- Groups in hexadecimal with colons between them. -/
def joined (gs : List UInt16) : Text := [byte ':'].intercalate (gs.map fun g => Text.hexNat g.toNat)

section Groups
variable (g : UInt16) (gs : List UInt16)

theorem hexNat_no_byte {n : Nat} {b : UInt8} (hb : isxdigit b = false) : b ∉ Text.hexNat n := by
  intro h
  obtain ⟨d, hd, rfl⟩ := Text.hexNat_digits n b h
  have hall : ∀ d < 16, isxdigit (byte d.digitChar) = true := by decide
  rw [hall d hd] at hb
  cases hb

theorem group_hexNat : group (Text.hexNat g.toNat) = some g := by
  have hdigits : (Text.hexNat g.toNat).all isxdigit = true := by
    rw [List.all_eq_true]
    intro b hb
    by_contra hno
    exact hexNat_no_byte (Bool.eq_false_iff.mpr hno) hb
  have hlength : (Text.hexNat g.toNat).length ≤ 4 := Text.hexNat_length (k := 3) g.toNat_lt
  rw [group, if_pos ⟨Text.hexNat_ne_nil _, hlength, hdigits⟩, Text.number_hexNat,
    UInt16.ofNat_toNat]

theorem joined_cons (h : gs ≠ []) : joined (g :: gs) = Text.hexNat g.toNat ++ byte ':' :: joined gs := by
  obtain ⟨g', gs, rfl⟩ := List.exists_cons_of_ne_nil h
  simp [joined, List.intercalate]

theorem joined_concat (h : gs ≠ []) : joined (gs ++ [g]) = joined gs ++ byte ':' :: Text.hexNat g.toNat := by
  induction gs with
  | nil => exact absurd rfl h
  | cons g' gs ih =>
    by_cases hnil : gs = []
    · subst gs
      simp [joined, List.intercalate]
    · rw [List.cons_append, joined_cons _ _ (by simp), joined_cons _ _ hnil, ih hnil]
      simp

theorem joined_ne_nil (h : gs ≠ []) : joined gs ≠ [] := by
  obtain ⟨g, gs, rfl⟩ := List.exists_cons_of_ne_nil h
  by_cases hnil : gs = []
  · subst gs
    simpa [joined] using Text.hexNat_ne_nil g.toNat
  · rw [joined_cons _ _ hnil]
    simp

theorem groups_joined (mixed : Bool) : groups mixed (joined gs) = some gs := by
  by_cases hnil : gs = []
  · subst gs
    rfl
  · have hsplit : (joined gs).splitOn (byte ':') = gs.map fun g => Text.hexNat g.toNat := by
      apply List.splitOn_intercalate
      · intro piece hpiece
        obtain ⟨g, _, rfl⟩ := List.mem_map.mp hpiece
        exact hexNat_no_byte (by decide)
      · simpa using hnil
    have hfront : (gs.map fun g => Text.hexNat g.toNat).dropLast.mapM group = some gs.dropLast := by
      rw [← List.map_dropLast, List.mapM_map]
      have hall : ∀ g ∈ gs.dropLast, (group ∘ fun g => Text.hexNat g.toNat) g = some (id g) := by
        intro g _
        exact group_hexNat g
      rw [mapM_of_forall hall, List.map_id]
    have hlast : group ((gs.map fun g => Text.hexNat g.toNat).getLast?.getD []) =
        some (gs.getLast hnil) := by
      rw [List.getLast?_map, List.getLast?_eq_some_getLast hnil]
      exact group_hexNat _
    rw [groups, if_neg (joined_ne_nil gs hnil)]
    dsimp only
    rw [hsplit, hfront, hlast]
    simp [List.dropLast_append_getLast]

end Groups

section Cut

theorem cut_piece {w : Text} (hw : byte ':' ∉ w) (t : Text) :
    cut (w ++ t) = (cut t).map fun (l, r) => (w ++ l, r) := by
  induction w with
  | nil => simp
  | cons b w ih =>
    obtain ⟨hb, hw⟩ := List.ne_and_not_mem_of_not_mem_cons hw
    rw [List.cons_append, cut, if_neg (fun h => hb h.1.symm), ih hw, Option.map_map]
    rfl

theorem cut_colon {t : Text} (h : t.head? ≠ some (byte ':')) :
    cut (byte ':' :: t) = (cut t).map fun (l, r) => (byte ':' :: l, r) := by
  rw [cut, if_neg (fun hand => h hand.2)]

theorem joined_head (gs : List UInt16) (hgs : gs ≠ []) (t : Text) :
    (joined gs ++ t).head? ≠ some (byte ':') := by
  obtain ⟨g, gs, rfl⟩ := List.exists_cons_of_ne_nil hgs
  obtain ⟨b, w, hw⟩ := List.exists_cons_of_ne_nil (Text.hexNat_ne_nil g.toNat)
  have hb : b ≠ byte ':' := by
    intro heq
    have hmem : byte ':' ∈ Text.hexNat g.toNat := by
      rw [hw, heq]
      exact List.mem_cons_self
    exact hexNat_no_byte (by decide) hmem
  have hhead : ∃ u, joined (g :: gs) = b :: u := by
    by_cases hnil : gs = []
    · subst gs
      exact ⟨w, by simpa [joined] using hw⟩
    · exact ⟨w ++ byte ':' :: joined gs, by rw [joined_cons _ _ hnil, hw]; rfl⟩
  obtain ⟨u, hu⟩ := hhead
  rw [hu, List.cons_append, List.head?_cons]
  simpa using hb

/-- There is no `::` in joined groups, nor one that begins with their end. -/
theorem cut_joined (gs : List UInt16) (t : Text) :
    cut (joined gs ++ t) = (cut t).map fun (l, r) => (joined gs ++ l, r) := by
  induction gs with
  | nil => simp [joined]
  | cons g gs ih =>
    have hpiece : byte ':' ∉ Text.hexNat g.toNat := hexNat_no_byte (by decide)
    by_cases hnil : gs = []
    · subst gs
      have hone : joined [g] = Text.hexNat g.toNat := by simp [joined]
      rw [hone]
      exact cut_piece hpiece t
    · rw [joined_cons _ _ hnil, List.append_assoc, cut_piece hpiece, List.cons_append,
        cut_colon (joined_head gs hnil t), ih, Option.map_map, Option.map_map]
      congr 1
      funext x
      simp

end Cut

/-- Eight groups in hexadecimal. -/
theorem parse_joined {gs : List UInt16} (h : gs.length = 8) : parse (joined gs) = some gs := by
  have hcut := cut_joined gs []
  rw [List.append_nil] at hcut
  rw [parse, hcut]
  simp [cut, groups_joined, h]

/-- Groups with `::` for the zeros between them. -/
theorem parse_compressed {a b : List UInt16} (h : a.length + b.length < 8) :
    parse (joined a ++ text "::" ++ joined b) =
      some (a ++ List.replicate (8 - (a.length + b.length)) 0 ++ b) := by
  have hcut : cut (joined a ++ (text "::" ++ joined b)) = some (joined a, joined b) := by
    rw [cut_joined]
    have hcolons : cut (text "::" ++ joined b) = some ([], joined b) := rfl
    rw [hcolons]
    simp
  rw [List.append_assoc, parse, hcut]
  simp [groups_joined, h]

end Rfc4291

namespace IPv6Address
open Rfc4291

section Loop
variable (host : Endian) (g : Vector UInt16 8) (port : UInt16)

theorem bytesOf_group {i : Nat} (hi : i < 8) :
    (bytesOf g)[2 * i]?.getD 0 = UInt8.ofNat (g[i].toNat / 256) ∧
      (bytesOf g)[2 * i + 1]?.getD 0 = UInt8.ofNat g[i].toNat := by
  have heven : 2 * i < 16 := by omega
  have hodd : 2 * i + 1 < 16 := by omega
  have hhalf : (2 * i + 1) / 2 = i := by omega
  have hmod : (2 * i + 1) % 2 = 1 := by omega
  constructor
  · rw [Vector.getElem?_eq_getElem heven, Option.getD_some]
    simp [bytesOf, Vector.get]
  · rw [Vector.getElem?_eq_getElem hodd, Option.getD_some]
    simp [bytesOf, hhalf, hmod, Vector.get]

/-- The loop reads the groups in network order. -/
theorem addr_bytesOf {i : Nat} (hi : i < 8) :
    (new host (bytesOf g) port).addr host i = byteswap16 host g[i] := by
  obtain ⟨heven, hodd⟩ := bytesOf_group g hi
  have hlt := g[i].toNat_lt
  unfold addr new
  dsimp only
  rw [heven, hodd]
  have hnetwork : leValue [UInt8.ofNat g[i].toNat, UInt8.ofNat (g[i].toNat / 256)] = g[i].toNat := by
    simp only [leValue, UInt8.toNat_ofNat']
    omega
  have hbytes : leBytes 2 g[i].toNat = [UInt8.ofNat g[i].toNat, UInt8.ofNat (g[i].toNat / 256)] := rfl
  cases host with
  | big => exact congrArg UInt16.ofNat hnetwork
  | little =>
    rw [byteswap16, byteswapOnLittleEndian, byteswap, hbytes]
    rfl

theorem addr_eq_zero {i : Nat} (hi : i < 8) :
    (new host (bytesOf g) port).addr host i = 0 ↔ g[i] = 0 := by
  rw [addr_bytesOf host g port hi]
  have hzero : byteswap16 host 0 = 0 := by
    cases host with
    | little => rfl
    | big => rfl
  constructor
  · intro h
    rw [← byteswap16_twice host g[i], h, hzero]
  · intro h
    rw [h, hzero]

/-- One turn of the loop. -/
theorem insertGroup_eq (st : Inserted) {i : Nat} (hi : i < 8) :
    (new host (bytesOf g) port).insertGroup host st i =
      if g[i] = 0 ∧ !st.usedZeros then st
      else
        let st := if i ≠ 0 ∧ g[i - 1] = 0 ∧ !st.usedZeros then ⟨st.os ++ text " :", true⟩ else st
        { st with os := (if i ≠ 0 then st.os ++ text ":" else st.os) ++ Text.hexNat g[i].toNat } := by
  have hlt := g[i].toNat_lt
  unfold insertGroup
  simp only [addr_eq_zero host g port hi, addr_eq_zero host g port (Nat.lt_of_le_of_lt (Nat.sub_le i 1) hi)]
  rw [addr_bytesOf host g port hi, byteswap16_twice, Text.hexInt_natCast (by omega)]

/-- A text without its blanks. -/
def unblanked (t : Text) : Text := t.filter (· ≠ byte ' ')

theorem unblanked_append (s t : Text) : unblanked (s ++ t) = unblanked s ++ unblanked t :=
  List.filter_append s t

theorem unblanked_hexNat (n : Nat) : unblanked (Text.hexNat n) = Text.hexNat n := by
  apply List.filter_eq_self.mpr
  intro b hb
  have hne : b ≠ byte ' ' := by
    intro heq
    rw [heq] at hb
    exact hexNat_no_byte (by decide) hb
  simpa using hne

/-- What has been written, but for the blanks: the groups before the first zeros, and the groups
behind them if there are any. -/
def written (a b : List UInt16) : Text :=
  text "[" ++ joined a ++ if b = [] then [] else text "::" ++ joined b

/-- Where the loop is: what it has read are groups that are not zero, a number of zeros, and other
groups, which there are none of unless there are zeros. -/
structure Progress (read : List UInt16) (st : Inserted) (a : List UInt16) (zeros : Nat)
    (b : List UInt16) : Prop where
  read : read = a ++ List.replicate zeros 0 ++ b
  nonzero : 0 ∉ a
  behind : b ≠ [] → zeros ≠ 0
  used : st.usedZeros = !b.isEmpty
  os : unblanked st.os = written a b

theorem written_concat {a b : List UInt16} (hb : b ≠ []) (x : UInt16) :
    written a (b ++ [x]) = written a b ++ byte ':' :: Text.hexNat x.toNat := by
  rw [written, written, if_neg hb, if_neg (by simp), joined_concat x b hb]
  simp

theorem written_first (a : List UInt16) (x : UInt16) :
    written a [x] = written a [] ++ (text "::" ++ Text.hexNat x.toNat) := by
  simp [written, joined]

theorem written_before (a : List UInt16) (x : UInt16) :
    written (a ++ [x]) [] =
      written a [] ++ (if a = [] then [] else [byte ':']) ++ Text.hexNat x.toNat := by
  by_cases ha : a = []
  · simp [written, joined, ha]
  · rw [written, written, joined_concat x a ha, if_neg ha]
    simp

namespace Progress
variable {st : Inserted} {read a b : List UInt16} {zeros : Nat}

/-- A group behind the zeros. -/
theorem more (h : Progress read st a zeros b) (hb : b ≠ []) (x : UInt16) :
    Progress (read ++ [x]) { st with os := st.os ++ text ":" ++ Text.hexNat x.toNat } a zeros
      (b ++ [x]) where
  read := by rw [h.read, List.append_assoc]
  nonzero := h.nonzero
  behind _ := h.behind hb
  used := by
    rw [h.used]
    cases b with
    | nil => exact absurd rfl hb
    | cons y b => rfl
  os := by
    rw [written_concat hb, unblanked_append, unblanked_append, h.os, unblanked_hexNat,
      List.append_assoc]
    rfl

/-- One more zero. -/
theorem zero (h : Progress read st a zeros []) : Progress (read ++ [0]) st a (zeros + 1) [] where
  read := by
    rw [h.read, List.replicate_succ', List.append_nil, List.append_nil, List.append_assoc]
  nonzero := h.nonzero
  behind hb := absurd rfl hb
  used := h.used
  os := h.os

/-- The first group behind the zeros. -/
theorem first (h : Progress read st a zeros []) (hzeros : zeros ≠ 0) (x : UInt16) :
    Progress (read ++ [x]) ⟨st.os ++ text " :" ++ text ":" ++ Text.hexNat x.toNat, true⟩ a zeros
      [x] where
  read := by rw [h.read, List.append_nil]
  nonzero := h.nonzero
  behind _ := hzeros
  used := rfl
  os := by
    rw [written_first, unblanked_append, unblanked_append, unblanked_append, h.os,
      unblanked_hexNat, List.append_assoc, List.append_assoc]
    rfl

/-- A group in front of any zeros. -/
theorem before (h : Progress read st a 0 []) {x : UInt16} (hx : x ≠ 0) :
    Progress (read ++ [x])
      { st with os := (if a ≠ [] then st.os ++ text ":" else st.os) ++ Text.hexNat x.toNat }
      (a ++ [x]) 0 [] where
  read := by
    rw [h.read]
    simp
  nonzero hmem := by
    obtain hmem | hmem := List.mem_append.mp hmem
    · exact h.nonzero hmem
    · exact hx (List.mem_singleton.mp hmem).symm
  behind hb := absurd rfl hb
  used := h.used
  os := by
    rw [written_before, unblanked_append, unblanked_hexNat]
    by_cases ha : a = []
    · rw [if_neg (fun hne => hne ha), if_pos ha, h.os, List.append_nil]
    · rw [if_pos ha, if_neg ha, unblanked_append, h.os]
      rfl

end Progress

/-- The group in front of the next one is the last that has been read. -/
theorem last_read {k : Nat} (hk : k ≤ 8) (hpos : k ≠ 0) :
    (g.toList.take k).getLast? = some g[k - 1] := by
  have hlength : (g.toList.take k).length = k := by
    rw [List.length_take, Vector.length_toList]
    omega
  have hlt : k - 1 < k := by omega
  rw [List.getLast?_eq_getElem?, hlength, List.getElem?_take_of_lt hlt]
  simp

/-- One more group. -/
theorem Progress.step {st : Inserted} {a b : List UInt16} {zeros k : Nat} (hk : k < 8)
    (h : Progress (g.toList.take k) st a zeros b) :
    ∃ a' zeros' b', Progress (g.toList.take (k + 1))
      ((new host (bytesOf g) port).insertGroup host st k) a' zeros' b' := by
  have hget : g.toList[k]? = some g[k] := by simp [hk]
  have hread : g.toList.take (k + 1) = g.toList.take k ++ [g[k]] := by
    rw [List.take_add_one, hget]
    rfl
  have hlength : k = a.length + zeros + b.length := by
    have hread := congrArg List.length h.read
    simp only [List.length_take, Vector.length_toList, List.length_append,
      List.length_replicate] at hread
    omega
  have hlast : k ≠ 0 → (a ++ List.replicate zeros 0 ++ b).getLast? = some g[k - 1] := by
    intro hpos
    rw [← h.read]
    exact last_read g (Nat.le_of_lt hk) hpos
  rw [insertGroup_eq host g port st hk, hread]
  by_cases hb : b = []
  · subst hb
    have hused : (!st.usedZeros) = true := by rw [h.used]; rfl
    rw [List.append_nil] at hlast
    by_cases hzero : g[k] = 0
    · rw [if_pos ⟨hzero, hused⟩, hzero]
      exact ⟨a, zeros + 1, [], h.zero⟩
    · rw [if_neg (fun hand => hzero hand.1)]
      by_cases hzeros : zeros = 0
      · subst zeros
        rw [List.replicate_zero, List.append_nil] at hlast
        have hbefore : ¬(k ≠ 0 ∧ g[k - 1] = 0 ∧ (!st.usedZeros) = true) := by
          intro hand
          have hmem := List.mem_of_getLast? (hlast hand.1)
          rw [hand.2.1] at hmem
          exact h.nonzero hmem
        have hempty : k ≠ 0 ↔ a ≠ [] := by
          rw [hlength]
          simp
        rw [if_neg hbefore]
        simp only [hempty]
        exact ⟨a ++ [g[k]], 0, [], h.before hzero⟩
      · have hpos : k ≠ 0 := by omega
        have hprev : g[k - 1] = 0 := by
          have hreplicate := hlast hpos
          rw [List.getLast?_append, List.getLast?_replicate, if_neg hzeros] at hreplicate
          simpa using hreplicate.symm
        rw [if_pos ⟨hpos, hprev, hused⟩]
        dsimp only
        rw [if_pos hpos]
        exact ⟨a, zeros, [g[k]], h.first hzeros g[k]⟩
  · have hused : ¬(!st.usedZeros) = true := by
      rw [h.used]
      simpa using hb
    have hpos : k ≠ 0 := by
      have hlong := List.length_pos_of_ne_nil hb
      omega
    rw [if_neg (fun hand => hused hand.2), if_neg (fun hand => hused hand.2.2)]
    dsimp only
    rw [if_pos hpos]
    exact ⟨a, zeros, b ++ [g[k]], h.more hb g[k]⟩

theorem progress (k : Nat) (hk : k ≤ 8) : ∃ a zeros b, Progress (g.toList.take k)
    ((List.range k).foldl ((new host (bytesOf g) port).insertGroup host) ⟨text "[", false⟩)
    a zeros b := by
  induction k with
  | zero => exact ⟨[], 0, [], rfl, List.not_mem_nil, fun hb => absurd rfl hb, rfl, rfl⟩
  | succ k ih =>
    obtain ⟨a, zeros, b, h⟩ := ih (Nat.le_of_succ_le hk)
    rw [List.range_succ, List.foldl_append, List.foldl_cons, List.foldl_nil]
    exact h.step host g port hk

theorem insert_eq (st : Inserted)
    (hst : (List.range 8).foldl ((new host (bytesOf g) port).insertGroup host) ⟨text "[", false⟩ = st) :
    (new host (bytesOf g) port).insert host =
      (if !st.usedZeros ∧ g[7] = 0 then st.os ++ text "::" else st.os) ++ text "]" ++
        Text.ofNat port.toNat := by
  have hport : byteswap16 host (new host (bytesOf g) port).mAddr.sin6Port = port :=
    byteswap16_twice host port
  unfold insert
  dsimp only
  rw [hst, hport]
  simp only [addr_eq_zero host g port (by decide : 7 < 8)]

theorem unblanked_ofNat (n : Nat) : unblanked (Text.ofNat n) = Text.ofNat n := by
  apply List.filter_eq_self.mpr
  intro b hb
  have hdigit := List.all_eq_true.mp (Text.ofNat_all_isDigit n) b hb
  have hne : b ≠ byte ' ' := by
    intro heq
    rw [heq] at hdigit
    exact absurd hdigit (by decide)
  simpa using hne

/-- Without its blanks the text is a form that is read back, in brackets, and the port. -/
theorem insert_unblanked : ∃ form, parse form = some g.toList ∧
    unblanked ((new host (bytesOf g) port).insert host) =
      text "[" ++ form ++ text "]" ++ Text.ofNat port.toNat := by
  obtain ⟨a, zeros, b, h⟩ := progress host g port 8 (Nat.le_refl 8)
  have hlast := last_read g (k := 8) (by decide) (by decide)
  generalize hst : (List.range 8).foldl ((new host (bytesOf g) port).insertGroup host)
    ⟨text "[", false⟩ = st at h
  have htake : g.toList.take 8 = g.toList := List.take_of_length_le (by rw [Vector.length_toList])
  have hread := h.read
  rw [hread] at hlast
  rw [htake] at hread
  have hlength := congrArg List.length hread
  simp only [Vector.length_toList, List.length_append, List.length_replicate] at hlength
  have hbracket : unblanked (text "]") = text "]" := by decide
  rw [insert_eq host g port st hst, unblanked_append, unblanked_append, unblanked_ofNat, hbracket,
    hread]
  by_cases hzeros : zeros = 0
  · have hb : b = [] := by
      by_contra hb
      exact h.behind hb hzeros
    subst hb hzeros
    rw [List.replicate_zero, List.append_nil, List.append_nil] at hlast ⊢
    have hend : g[7] ≠ 0 := by
      intro hzero
      rw [hzero] at hlast
      exact h.nonzero (List.mem_of_getLast? hlast)
    rw [if_neg (fun hand => hend hand.2), h.os]
    exact ⟨joined a, parse_joined (by simpa using hlength.symm), by simp [written]⟩
  · have hparse := parse_compressed (a := a) (b := b) (by omega)
    have hcount : 8 - (a.length + b.length) = zeros := by omega
    rw [hcount] at hparse
    refine ⟨joined a ++ text "::" ++ joined b, hparse, ?_⟩
    by_cases hb : b = []
    · subst hb
      have hend : g[7] = 0 := by
        rw [List.append_nil, List.getLast?_append, List.getLast?_replicate, if_neg hzeros] at hlast
        simpa using hlast.symm
      have hcolons : unblanked (text "::") = text "::" := by decide
      rw [if_pos ⟨by rw [h.used]; rfl, hend⟩, unblanked_append, h.os, hcolons]
      simp [written, joined]
    · have hused : (!st.usedZeros) ≠ true := by
        rw [h.used]
        simpa using hb
      rw [if_neg (fun hand => hused hand.1), h.os]
      simp [written, hb]

/-- Different addresses and ports have different texts. -/
theorem insert_injective {g g' : Vector UInt16 8} {port port' : UInt16}
    (h : (new host (bytesOf g) port).insert host = (new host (bytesOf g') port').insert host) :
    g = g' ∧ port = port' := by
  obtain ⟨form, hparse, hinsert⟩ := insert_unblanked host g port
  obtain ⟨form', hparse', hinsert'⟩ := insert_unblanked host g' port'
  rw [h, hinsert'] at hinsert
  have hends : (text "[" ++ form') ++ byte ']' :: Text.ofNat port'.toNat =
      (text "[" ++ form) ++ byte ']' :: Text.ofNat port.toNat := by
    simpa [text] using hinsert
  obtain ⟨hforms, hports⟩ := (Pieces.append_last_sep_inj (digits_no_bracket _)
    (digits_no_bracket _)).mp hends
  have hform : form' = form := List.append_cancel_left hforms
  rw [hform, hparse] at hparse'
  constructor
  · exact Vector.toList_inj.mp (Option.some.inj hparse')
  · have hnumbers := congrArg (Text.number 10 0) hports
    rw [Text.number_ofNat, Text.number_ofNat] at hnumbers
    exact UInt16.toNat_inj.mp hnumbers.symm

end Loop

end IPv6Address
end HxSylar
