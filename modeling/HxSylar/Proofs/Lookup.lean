import HxSylar.Lookup
import HxSylar.Proofs.HttpParam

namespace HxSylar
open Lib

/-- A name or a service. -/
structure HostWord where
  text : Text
  nonempty : text ≠ []
  noColon : byte ':' ∉ text
  noBracket : byte '[' ∉ text ∧ byte ']' ∉ text

/-- An IPv6 literal. -/
structure HostLiteral where
  text : Text
  bytes : ∀ b ∈ text, isxdigit b = true ∨ b = byte '.' ∨ b = byte ':'
  colons : 2 ≤ text.count (byte ':')

/-- The forms of a host. -/
inductive HostForm
  | name (n : HostWord)
  | nameService (n s : HostWord)
  | literal (v : HostLiteral)
  | bracketed (v : HostLiteral)
  | bracketedService (v : HostLiteral) (s : HostWord)

namespace HostForm

def host : HostForm → Text
  | name n => n.text
  | nameService n s => n.text ++ byte ':' :: s.text
  | literal v => v.text
  | bracketed v => byte '[' :: v.text ++ [byte ']']
  | bracketedService v s => byte '[' :: v.text ++ byte ']' :: byte ':' :: s.text

/-- The node and the service that the form stands for. -/
def names : HostForm → Text × Option Text
  | name n => (n.text, none)
  | nameService n s => (n.text, some s.text)
  | literal v => (v.text, none)
  | bracketed v => (v.text, none)
  | bracketedService v s => (v.text, some s.text)

/-- A form without a literal, and without a null byte. -/
def Plain : HostForm → Prop
  | name n => 0 ∉ n.text
  | nameService n s => 0 ∉ n.text ∧ 0 ∉ s.text
  | literal _ => False
  | bracketed _ => False
  | bracketedService _ _ => False

end HostForm

section Split
variable {host u w : Text}

theorem cstr_eq_self_iff (t : Text) : t.cstr = t ↔ 0 ∉ t := by
  constructor
  · intro h hzero
    rw [Text.cstr, List.takeWhile_eq_self_iff] at h
    have hne := h 0 hzero
    simp at hne
  · exact cstr_eq_self

/-- The first test looks for a closing bracket at the beginning. -/
theorem lookupNames_no_bracket (h : host[0]? ≠ some (byte ']')) : lookupNames host =
    match findByte host (byte ':') 0 with
    | some service =>
      if !(Text.cstr (host.drop (service + 1))).contains (byte ':') then
        (if host.substr 0 service = [] then host else host.substr 0 service, some (service + 1))
      else (host, some service)
    | none => (host, none) := by
  unfold lookupNames
  rw [if_neg (fun hand => h hand.2)]
  dsimp only
  rw [if_pos rfl]
  cases findByte host (byte ':') 0 with
  | none => rfl
  | some service =>
    dsimp only
    split
    · rfl
    · rfl

theorem lookupArguments_name (h : host[0]? ≠ some (byte ']')) (hcolon : byte ':' ∉ host) :
    lookupArguments host = (host.cstr, none) := by
  rw [lookupArguments, lookupNames_no_bracket h, findByte_none hcolon]
  rfl

theorem lookupArguments_service (h : (u ++ byte ':' :: w)[0]? ≠ some (byte ']')) (hu : byte ':' ∉ u)
    (hne : u ≠ []) (hw : byte ':' ∉ w.cstr) :
    lookupArguments (u ++ byte ':' :: w) = (u.cstr, some w.cstr) := by
  have hfind : findByte (u ++ byte ':' :: w) (byte ':') 0 = some (0 + u.length) :=
    findByte_eq rfl hu
  have hdrop : (u ++ byte ':' :: w).drop (u.length + 1) = w := by simp
  have hsubstr : (u ++ byte ':' :: w).substr 0 u.length = u := by simp [Text.substr]
  rw [lookupArguments, lookupNames_no_bracket h, hfind, Nat.zero_add]
  simp only [hdrop, hsubstr, List.contains_eq_mem, hw, hne, decide_false, Bool.not_false, if_true,
    if_false, Option.map_some]

/-- With a second colon the service stays where the first one is. -/
theorem lookupArguments_colons (h : (u ++ byte ':' :: w)[0]? ≠ some (byte ']'))
    (hu : byte ':' ∉ u) (hw : byte ':' ∈ w.cstr) :
    lookupArguments (u ++ byte ':' :: w) =
      ((u ++ byte ':' :: w).cstr, some (byte ':' :: w.cstr)) := by
  have hfind : findByte (u ++ byte ':' :: w) (byte ':') 0 = some (0 + u.length) :=
    findByte_eq rfl hu
  have hdrop : (u ++ byte ':' :: w).drop (u.length + 1) = w := by simp
  have hservice : (u ++ byte ':' :: w).drop u.length = byte ':' :: w := by simp
  rw [lookupArguments, lookupNames_no_bracket h, hfind, Nat.zero_add]
  simp only [hdrop, hservice, List.contains_eq_mem, hw, decide_true, Bool.not_true,
    Bool.false_eq_true, if_false, Option.map_some]
  rfl

end Split

section Words

theorem HostWord.first_ne (n : HostWord) (t : Text) : (n.text ++ t)[0]? ≠ some (byte ']') := by
  obtain ⟨b, rest, htext⟩ := List.exists_cons_of_ne_nil n.nonempty
  have hb : b ∈ n.text := by simp [htext]
  intro h
  rw [htext, List.cons_append, List.getElem?_cons_zero, Option.some.injEq] at h
  rw [h] at hb
  exact n.noBracket.2 hb

theorem HostLiteral.noNull (v : HostLiteral) : 0 ∉ v.text := by
  intro hzero
  have h := v.bytes 0 hzero
  revert h
  decide

theorem HostLiteral.noBracket (v : HostLiteral) : byte '[' ∉ v.text ∧ byte ']' ∉ v.text := by
  constructor
  · intro hb
    have h := v.bytes _ hb
    revert h
    decide
  · intro hb
    have h := v.bytes _ hb
    revert h
    decide

/-- A literal at its first colon. -/
theorem HostLiteral.split (v : HostLiteral) :
    ∃ u w, v.text = u ++ byte ':' :: w ∧ byte ':' ∉ u ∧ byte ':' ∈ Text.cstr w := by
  have hcolon : byte ':' ∈ v.text := by
    apply List.count_pos_iff.mp
    have h := v.colons
    omega
  obtain ⟨u, w, htext, hu⟩ := List.eq_append_cons_of_mem hcolon
  refine ⟨u, w, htext, hu, ?_⟩
  have hnull : 0 ∉ w := by
    intro hzero
    apply v.noNull
    simp [htext, hzero]
  have hcount := v.colons
  rw [htext, List.count_append, List.count_cons_self, List.count_eq_zero.mpr hu] at hcount
  rw [cstr_eq_self hnull]
  apply List.count_pos_iff.mp
  omega

/-- Whatever stands around a literal, the service is what follows its first colon, or is not null. -/
theorem lookupArguments_literal (v : HostLiteral) (t : Text) :
    ∃ service, lookupArguments (v.text ++ t) = ((v.text ++ t).cstr, some service) ∧
      lookupArguments (byte '[' :: v.text ++ t) =
        (byte '[' :: (v.text ++ t).cstr, some service) := by
  obtain ⟨u, w, htext, hu, hw⟩ := v.split
  have hnull : (0 : UInt8) ∉ w := by
    intro hzero
    apply v.noNull
    simp [htext, hzero]
  have hwt : byte ':' ∈ Text.cstr (w ++ t) := by
    rw [cstr_eq_self hnull] at hw
    rw [Text.cstr, List.takeWhile_append_of_pos]
    · exact List.mem_append_left _ hw
    · intro b hb
      exact bne_iff_ne.mpr (fun heq => hnull (heq ▸ hb))
  have hsame : v.text ++ t = u ++ byte ':' :: (w ++ t) := by rw [htext]; simp
  have hopen : byte '[' :: v.text ++ t = (byte '[' :: u) ++ byte ':' :: (w ++ t) := by
    rw [List.cons_append, hsame]
    rfl
  have huopen : byte ':' ∉ byte '[' :: u := by
    rw [List.mem_cons, not_or]
    exact ⟨by decide, hu⟩
  refine ⟨byte ':' :: Text.cstr (w ++ t), ?_, ?_⟩
  · rw [hsame]
    apply lookupArguments_colons ?_ hu hwt
    intro hfirst
    apply v.noBracket.2
    cases u with
    | nil =>
      rw [List.nil_append, List.getElem?_cons_zero] at hfirst
      exact absurd (Option.some.inj hfirst) (by decide)
    | cons b u =>
      rw [List.cons_append, List.getElem?_cons_zero, Option.some.injEq] at hfirst
      simp [htext, hfirst]
  · rw [hopen, lookupArguments_colons ?_ huopen hwt, ← hopen, List.cons_append, hsame]
    · rfl
    · intro hfirst
      exact absurd (Option.some.inj hfirst) (by decide)

end Words

/-- A form is split as it should be if it has no literal and no null byte: in every form with a
literal the pointer to the service survives, and the brackets stay with the node. -/
theorem lookupArguments_iff_plain (f : HostForm) :
    lookupArguments f.host = f.names ↔ f.Plain := by
  cases f with
  | name n =>
    have hfirst := n.first_ne []
    rw [List.append_nil] at hfirst
    have h := lookupArguments_name hfirst n.noColon
    rw [HostForm.host, h, HostForm.names, HostForm.Plain, ← cstr_eq_self_iff, Prod.mk.injEq,
      and_iff_left rfl]
  | nameService n s =>
    have hs : byte ':' ∉ s.text.cstr := fun hmem => s.noColon ((List.takeWhile_subset _) hmem)
    have h := lookupArguments_service (n.first_ne _) n.noColon n.nonempty hs
    rw [HostForm.host, h, HostForm.names, HostForm.Plain, ← cstr_eq_self_iff, ← cstr_eq_self_iff,
      Prod.mk.injEq, Option.some.injEq]
  | literal v =>
    obtain ⟨service, h, _⟩ := lookupArguments_literal v []
    rw [List.append_nil] at h
    rw [HostForm.host, h, HostForm.names, HostForm.Plain]
    simp
  | bracketed v =>
    obtain ⟨service, _, h⟩ := lookupArguments_literal v [byte ']']
    rw [HostForm.host, h, HostForm.names, HostForm.Plain]
    simp
  | bracketedService v s =>
    obtain ⟨service, _, h⟩ := lookupArguments_literal v (byte ']' :: byte ':' :: s.text)
    rw [HostForm.host, h, HostForm.names, HostForm.Plain, Prod.mk.injEq]
    simp only [iff_false, not_and]
    intro hnode
    have hbracket : byte '[' ∈ v.text := hnode ▸ List.mem_cons_self
    exact absurd hbracket v.noBracket.1

/-- The loopback address in brackets: the node keeps the brackets and the service is not null. -/
theorem lookupArguments_loopback :
    ∃ v : HostLiteral, v.text = text "::1" ∧
      ¬lookupArguments (HostForm.bracketed v).host = (HostForm.bracketed v).names := by
  have hbytes : ∀ b ∈ text "::1", isxdigit b = true ∨ b = byte '.' ∨ b = byte ':' := by
    intro b hb
    obtain hcolon | hone : b = byte ':' ∨ b = byte '1' := by simpa [text] using hb
    · exact Or.inr (Or.inr hcolon)
    · rw [hone]
      exact Or.inl rfl
  refine ⟨⟨text "::1", hbytes, by decide⟩, rfl, ?_⟩
  intro h
  have hnone : (lookupArguments (text "[::1]")).2 = none := congrArg Prod.snd h
  have hservice : (lookupArguments (text "[::1]")).2.isSome = true := by decide
  rw [hnone] at hservice
  cases hservice

end HxSylar
