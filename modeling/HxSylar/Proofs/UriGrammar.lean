import HxSylar.Lib.RagelParts
import HxSylar.Uri

namespace HxSylar
open Lib (Text Stack Ragel Ways)

namespace Uri.Grammar
open Lib.Ragel

def hostPart : Ragel := leave (enter 4 host) 5
def portPart : Ragel := leave (enter 6 port) 7
def pathPart : Ragel := leave (enter 8 pathAbempty) 9

-- What follows each part of a text with an authority.
def behindScheme : Stack := [act 1, cat (char ':') (cat hierPart (tail 10))]
def behindUserinfo : Stack :=
  [act 3, char '@', cat hostPart (opt (cat (char ':') portPart)), pathPart, tail 10]
def behindHost : Stack := [act 5, opt (cat (char ':') portPart), pathPart, tail 10]
def behindPort : Stack := [act 7, pathPart, tail 10]
def behindPath : Stack := [act 9, tail 10]
def behindQuery : Stack := [act 11, opt (cat (char '#') (fragment 12))]
def behindFragment : Stack := [act 13]

/-- The ways behind `//`. -/
def atAuthority : Ways := [[cat (authority 2) pathPart, tail 10]]

theorem begins_scheme : behindScheme.Begins [Lib.byte ':'] := by
  intro c g R h
  simp only [behindScheme, char, Stack.step_act, Stack.step_cat, Stack.step_byte, beq_iff_eq] at h
  obtain ⟨_, ⟨rfl, -⟩, -⟩ := h
  exact List.mem_singleton.mpr rfl

theorem begins_userinfo : behindUserinfo.Begins [Lib.byte '@'] := by
  intro c g R h
  simp only [behindUserinfo, char, Stack.step_act, Stack.step_byte, beq_iff_eq] at h
  obtain ⟨_, ⟨rfl, -⟩, -⟩ := h
  exact List.mem_singleton.mpr rfl

theorem begins_tail (k : Nat) : Stack.Begins [tail k] [Lib.byte '?', Lib.byte '#'] := by
  intro c g R h
  simp only [tail, opt, char, Stack.step_cat, Stack.step_alt, Stack.step_eps, Stack.step_byte,
    Stack.not_mem_step_nil, beq_iff_eq, false_or] at h
  rcases h with ⟨rfl, -⟩ | ⟨rfl, -⟩
  · simp
  · simp

theorem begins_segments {K : Stack} {cs : Text} (h : K.Begins cs) :
    Stack.Begins (segments :: K) (Lib.byte '/' :: cs) := by
  intro c g R hstep
  simp only [segments, char, Stack.step_star, Stack.step_cat, Stack.step_byte, beq_iff_eq] at hstep
  rcases hstep with ⟨_, ⟨rfl, -⟩, -⟩ | hK
  · exact List.mem_cons_self ..
  · exact List.mem_cons_of_mem _ (h c g R hK)

theorem begins_path : behindPath.Begins [Lib.byte '?', Lib.byte '#'] := by
  intro c g R h
  rw [behindPath, Stack.step_act] at h
  obtain ⟨_, h, -⟩ := h
  exact begins_tail 10 c _ R h

theorem path_first {c : UInt8} {g : List Nat} {R : Stack} (h : (g, R) ∈ pathAbempty.expand c) :
    c = Lib.byte '/' := by
  have hnone : Stack.Begins [] [] := nofun
  rw [← Stack.mem_step_singleton] at h
  simp only [pathAbempty, opt, char, Stack.step_cat, Stack.step_alt, Stack.step_eps,
    Stack.step_byte, beq_iff_eq] at h
  rcases h with h | ⟨rfl, -⟩
  · exact List.mem_singleton.mp (begins_segments hnone c g R h)
  · rfl

theorem begins_pathPart :
    Stack.Begins [pathPart, tail 10] [Lib.byte '/', Lib.byte '?', Lib.byte '#'] := by
  intro c g R h
  simp only [pathPart, leave, enter, pathAbempty, opt, char, Stack.step_cat, Stack.step_act,
    Stack.step_alt, Stack.step_eps, Stack.step_byte, beq_iff_eq] at h
  obtain ⟨_, h | ⟨rfl, -⟩, -⟩ := h
  · exact begins_segments begins_path c _ R h
  · exact List.mem_cons_self ..

theorem begins_port : behindPort.Begins [Lib.byte '/', Lib.byte '?', Lib.byte '#'] := by
  intro c g R h
  rw [behindPort, Stack.step_act] at h
  obtain ⟨_, h, -⟩ := h
  exact begins_pathPart c _ R h

theorem begins_host :
    behindHost.Begins [Lib.byte ':', Lib.byte '/', Lib.byte '?', Lib.byte '#'] := by
  intro c g R h
  simp only [behindHost, opt, char, Stack.step_act, Stack.step_alt, Stack.step_eps, Stack.step_cat,
    Stack.step_byte, beq_iff_eq] at h
  obtain ⟨_, h | ⟨rfl, -⟩, -⟩ := h
  · exact List.mem_cons_of_mem _ (begins_pathPart c _ R h)
  · exact List.mem_cons_self ..

theorem begins_query : behindQuery.Begins [Lib.byte '#'] := by
  intro c g R h
  simp only [behindQuery, opt, char, Stack.step_act, Stack.step_alt, Stack.step_eps, Stack.step_cat,
    Stack.step_byte, Stack.not_mem_step_nil, beq_iff_eq, false_or] at h
  obtain ⟨_, ⟨rfl, -⟩, -⟩ := h
  exact List.mem_singleton.mpr rfl

theorem begins_fragment : behindFragment.Begins [] := by
  intro c g R h
  simp [behindFragment] at h

theorem step_scheme_colon : Stack.step (Lib.byte ':') behindScheme ≠ [] := List.cons_ne_nil _ _

theorem step_userinfo_at : Stack.step (Lib.byte '@') behindUserinfo ≠ [] := List.cons_ne_nil _ _

theorem step_host_colon : Stack.step (Lib.byte ':') behindHost ≠ [] := List.cons_ne_nil _ _

theorem step_host_slash : Stack.step (Lib.byte '/') behindHost ≠ [] := List.cons_ne_nil _ _

theorem step_port_slash : Stack.step (Lib.byte '/') behindPort ≠ [] := List.cons_ne_nil _ _

theorem step_path_question : Stack.step (Lib.byte '?') behindPath ≠ [] := List.cons_ne_nil _ _

theorem scheme_ends : schemeText.Ends behindScheme := Ways.ends_of_letter begins_scheme rfl

theorem userinfo_ends : userinfo.Ends behindUserinfo :=
  Ways.ends_of_letter begins_userinfo rfl

theorem port_ends : port.Ends behindPort := Ways.ends_of_letter begins_port rfl

theorem path_ends : pathAbempty.Ends behindPath := Ways.ends_of_letter begins_path rfl

theorem query_ends : queryText.Ends behindQuery := Ways.ends_of_letter begins_query rfl

theorem fragment_ends : queryText.Ends behindFragment := Ways.ends_of_letter begins_fragment rfl

/-- A host in brackets. -/
theorem host_bracket {v : Text} (h : host.accepts (Lib.byte '[' :: v) = true) :
    (Ways.run [[host]] (Lib.byte '[' :: v)).Same [[]] := by
  have hfirst : Ways.run [[host]] (Lib.byte '[' :: v) =
      Ways.run [[cat (alt ipv6address ipvFuture) (char ']')]] v := rfl
  have hrest : (cat (alt ipv6address ipvFuture) (char ']')).accepts v = true := h
  obtain ⟨y, z, rfl, hy, hz⟩ := accepts_cat_iff.mp hrest
  obtain ⟨d, rfl, hd⟩ := accepts_byte_iff.mp hz
  rw [beq_iff_eq] at hd
  subst hd
  rw [hfirst]
  exact Ways.run_cat_byte rfl rfl hy

/-- A host that is not in brackets. -/
theorem host_name {c : UInt8} (hc : c ≠ Lib.byte '[') :
    (Ways.advance [[host]] c).Same (Ways.advance [[alt ipv4address regName]] c) := by
  intro R
  simp only [Ways.mem_advance, List.mem_singleton, exists_eq_left, host, Stack.step_alt, ipLiteral,
    seq, char, Stack.step_cat, Stack.step_byte, beq_iff_eq, hc, false_and, false_or]

theorem host_ends : host.Ends behindHost := by
  intro v c haccepts hstep
  have hc : c ∈ [Lib.byte ':', Lib.byte '/', Lib.byte '?', Lib.byte '#'] := by
    by_contra hc
    exact hstep (begins_host.step_eq_nil hc)
  have hletter : (alt ipv4address regName).letter c = false := Ways.not_letter_of_all rfl hc
  cases v with
  | nil =>
    have hall : [Lib.byte ':', Lib.byte '/', Lib.byte '?', Lib.byte '#'].all
        (fun c => (Ways.advance [[host]] c).isEmpty) = true := rfl
    exact List.isEmpty_iff.mp (List.all_eq_true.mp hall c hc)
  | cons x v =>
    by_cases hx : x = Lib.byte '['
    · subst hx
      have hdone := (host_bracket haccepts).advance c
      exact hdone.eq_nil.mpr rfl
    · have hsame := ((host_name hx).run v).advance c
      rw [← Ways.run_cons, ← Ways.run_cons] at hsame
      exact hsame.eq_nil.mpr (Ways.advance_not_letter hletter)

/-- A userinfo is a name up to its first colon. -/
theorem host_of_userinfo {w r : Text} (haccepts : userinfo.accepts (w ++ r) = true)
    (hcolon : Lib.byte ':' ∉ w) (hr : ∀ c, r.head? = some c → c = Lib.byte ':') :
    host.accepts w = true := by
  have hname : regName.accepts w = true := by
    refine accepts_star_before ?_ ?_ haccepts
    · intro c hc
      rw [hr c hc]
      rfl
    · intro b hb
      by_contra hb'
      have heq : (b == Lib.byte ':') = true := Bool.eq_true_of_not_eq_false hb'
      rw [beq_iff_eq.mp heq] at hb
      exact hcolon hb
  exact accepts_alt_iff.mpr (.inr hname)

/-- The first byte of a scheme may also begin a relative path. -/
theorem mem_step_start {c : UInt8} {w : Text} (haccepts : schemeText.accepts (c :: w) = true)
    {g : List Nat} {R : Stack} : (g, R) ∈ Stack.step c [uriReference] ↔
      (g = [0] ∧ R ∈ (Ways.run [[schemeText]] [c]).frame behindScheme) ∨
        (g = [] ∧ R ∈ (Ways.run [[segmentNzNc]] [c]).frame [segments, tail 20]) := by
  have hletter := Ways.run_letter (Ways.ne_nil_of_isFinal haccepts) c (List.mem_cons_self ..)
  have hslash : c ≠ Lib.byte '/' := by
    rintro rfl
    cases hletter
  have htail : Stack.step c [tail 20] = [] := by
    refine (begins_tail 20).step_eq_nil (fun hc => ?_)
    rw [Ways.not_letter_of_all rfl hc] at hletter
    cases hletter
  have hempty : ¬segmentNzNc.accepts [] = true := by decide
  have hnoscheme : (g, R) ∈ Stack.step c [segmentNzNc, segments, tail 20] ↔
      g = [] ∧ R ∈ (Ways.run [[segmentNzNc]] [c]).frame [segments, tail 20] := by
    rw [Stack.step_plain rfl, or_iff_left (fun h => hempty h.1)]
    rfl
  rw [← Ways.mem_step_entered rfl scheme_ends haccepts, ← hnoscheme]
  simp only [uriReference, uri, scheme, relativeRef, relativePart, pathAbsolute, pathNoscheme, seq,
    enter, leave, char, behindScheme, Stack.step_alt, Stack.step_cat, Stack.step_eps,
    Stack.step_byte, beq_iff_eq, hslash, htail, List.not_mem_nil, false_and, false_or, or_false]

/-- The first byte of a host may also begin a userinfo. -/
theorem mem_step_authority {c : UInt8} {w : Text} (haccepts : host.accepts (c :: w) = true)
    {g : List Nat} {R : Stack} : (g, R) ∈ Stack.step c [cat (authority 2) pathPart, tail 10] ↔
      (g = [2, 4] ∧ R ∈ (Ways.run [[host]] [c]).frame behindHost) ∨
        (g = [2] ∧ R ∈ (Ways.run [[userinfo]] [c]).frame behindUserinfo) := by
  have hletter := Ways.run_letter (Ways.ne_nil_of_isFinal haccepts) c (List.mem_cons_self ..)
  have hat : Stack.step c behindUserinfo = [] := by
    refine begins_userinfo.step_eq_nil (fun hc => ?_)
    rw [List.mem_singleton.mp hc] at hletter
    cases hletter
  have huserinfo : ∀ g, (g, R) ∈ Stack.step c (userinfo :: behindUserinfo) ↔
      g = [] ∧ R ∈ (Ways.run [[userinfo]] [c]).frame behindUserinfo := by
    intro g
    rw [Stack.step_plain rfl, hat]
    simp only [List.not_mem_nil, and_false, or_false]
    rfl
  have hhost : ∀ g, (g, R) ∈ Stack.step c (act 4 :: host :: behindHost) ↔
      g = [4] ∧ R ∈ (Ways.run [[host]] [c]).frame behindHost :=
    fun g => Ways.mem_step_entered rfl host_ends haccepts
  have hsplit : (g, R) ∈ Stack.step c [cat (authority 2) pathPart, tail 10] ↔
      ∃ h, ((h, R) ∈ Stack.step c (act 4 :: host :: behindHost) ∨
        (h, R) ∈ Stack.step c (userinfo :: behindUserinfo)) ∧ g = 2 :: h := by
    simp only [authority, enter, leave, seq, opt, Stack.step_cat, Stack.step_act, Stack.step_alt,
      Stack.step_eps]
    rfl
  rw [hsplit]
  simp only [huserinfo, hhost]
  constructor
  · rintro ⟨h, ⟨rfl, hR⟩ | ⟨rfl, hR⟩, rfl⟩
    · exact .inl ⟨rfl, hR⟩
    · exact .inr ⟨rfl, hR⟩
  · rintro (⟨rfl, hR⟩ | ⟨rfl, hR⟩)
    · exact ⟨[4], .inl ⟨rfl, hR⟩, rfl⟩
    · exact ⟨[], .inr ⟨rfl, hR⟩, rfl⟩

end Uri.Grammar
end HxSylar
