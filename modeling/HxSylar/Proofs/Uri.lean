import HxSylar.Proofs.UriGrammar
import HxSylar.Proofs.UriScan

namespace HxSylar
open Lib (Text Stack Ragel Ways byte isDigit text)

namespace Uri
open Grammar (behindScheme behindUserinfo behindHost behindPort behindPath behindQuery behindFragment
  hostPart portPart pathPart atAuthority)

/-- Behind the part `pre` the loop reads the rest and returns `u`. -/
def Reads (pre rest : Text) (S : Ways) (s : Scan) (u : Uri) : Prop :=
  scanFrom pre rest S s = some (some u)

section Phases
variable {pre m rest w : Text} {x u : Uri} {s z : Scan}

/-- What stands between the mark and the position. -/
theorem slice_marked (m w rest : Text) (x : Uri) :
    slice (m ++ w ++ rest) (m ++ w).length ⟨some m.length, x⟩ = some w := by
  simp [slice, Text.substr]

theorem execAll_cons {t : Text} {p : Nat} {a : Action} (h : a.exec t p s = some z)
    (as : List Action) : execAll t p (a :: as) s = execAll t p as z := by
  simp only [execAll, List.foldlM_cons, h, Option.bind_eq_bind, Option.bind_some]

theorem execAll_singleton (t : Text) (p : Nat) (a : Action) :
    execAll t p [a] s = a.exec t p s := by
  simp [execAll]

theorem scan_slashes : scanFrom pre (byte '/' :: byte '/' :: rest)
    (Ways.advance [behindScheme] (byte ':')) s = scanFrom (pre ++ text "//") rest atAuthority s := by
  have hsecond : (Ways.advance [behindScheme] (byte ':')).advance (byte '/') ≠ [] :=
    List.cons_ne_nil _ _
  have hthird : ((Ways.advance [behindScheme] (byte ':')).advance (byte '/')).advance (byte '/') =
    atAuthority := rfl
  rw [scanFrom_pass rfl hsecond, scanFrom_pass rfl (by rw [hthird]; exact List.cons_ne_nil _ _),
    hthird, List.append_assoc]
  rfl

theorem reads_scheme (haccepts : Grammar.schemeText.accepts w = true)
    (h : Reads (w ++ text "://") rest atAuthority ⟨none, { scheme := w }⟩ u) :
    Reads [] (w ++ text "://" ++ rest) [[Grammar.uriReference]] {} u := by
  have hne : w ≠ [] := by
    rintro rfl
    exact absurd haccepts (by decide)
  obtain ⟨c, w, rfl⟩ := List.exists_cons_of_ne_nil hne
  have hrun : Ways.run [[Grammar.schemeText]] ([c] ++ w) ≠ [] := Ways.ne_nil_of_isFinal haccepts
  have hfirst : (Ways.run [[Grammar.schemeText]] [c]).frame behindScheme ≠ [] :=
    Ways.frame_ne_nil (Ways.run_ne_nil_left hrun)
  -- A relative path cannot go on with the colon.
  have hdies : ((Ways.run [[Grammar.segmentNzNc]] [c]).frame [Grammar.segments, Grammar.tail 20]).Dies
      (w ++ [byte ':']) := by
    refine Ways.dies_frame rfl (Grammar.begins_segments (Grammar.begins_tail 20)) ?_ rfl
    intro b hb hmem
    rcases List.mem_append.mp hb with hb | hb
    · have hletter := Ways.run_letter hrun b (List.mem_append_right [c] hb)
      rw [Ways.not_letter_of_all rfl hmem] at hletter
      cases hletter
    · rw [List.mem_singleton.mp hb] at hmem
      revert hmem
      decide
  have htext : c :: w ++ text "://" ++ rest = c :: (w ++ [byte ':'] ++ byte '/' :: byte '/' :: rest) := by
    simp [text]
  rw [Reads, htext, scanFrom_fork (fun g R => Grammar.mem_step_start haccepts) hfirst nofun rfl]
  refine scanFrom_drop hdies ?_
  rw [List.append_assoc, scanFrom_inside rfl Grammar.scheme_ends hrun]
  have hexec : execAll ([] ++ (c :: w) ++ byte ':' :: byte '/' :: byte '/' :: rest)
      ([] ++ (c :: w)).length (Ways.executed actions (Ways.fired [behindScheme] (byte ':')))
      ⟨some ([] : Text).length, {}⟩ = some ⟨none, { scheme := c :: w }⟩ := by
    have hactions : Ways.executed actions (Ways.fired [behindScheme] (byte ':')) = [.saveScheme] := rfl
    rw [hactions, execAll_singleton, Action.exec, slice_marked]
    rfl
  have hend := scanFrom_end rfl Grammar.scheme_ends haccepts Grammar.step_scheme_colon hexec
  refine hend.trans ?_
  rw [scan_slashes]
  have hpre : [] ++ (c :: w) ++ [byte ':'] ++ text "//" = c :: w ++ text "://" := by simp [text]
  rw [hpre]
  exact h

theorem marks_host : Marks [4] := fun _ _ _ => rfl

theorem marks_port : Marks [6] := fun _ _ _ => rfl

theorem marks_query : Marks [10] := fun _ _ _ => rfl

theorem marks_fragment : Marks [12] := fun _ _ _ => rfl

theorem reads_done {a : Ragel} {K : Stack} (hplain : a.plain = true) (haccepts : a.accepts w = true)
    (hfinal : Ways.isFinal [K] = true)
    (hexec : execAll pre pre.length (Ways.executed actions (Ways.leaving [K])) s = some z) :
    Reads pre [] ((Ways.run [[a]] w).frame K) s z.uri := by
  have hleaving : ∀ k, k ∈ ((Ways.run [[a]] w).frame K).leaving ↔ k ∈ Ways.leaving [K] := by
    intro k
    rw [Ways.leaving_frame ((Ways.plain_singleton hplain).run w)]
    exact and_iff_right haccepts
  have hend : ((Ways.run [[a]] w).frame K).isFinal = true := by
    rw [Ways.isFinal_frame, hfinal, Bool.and_true]
    exact haccepts
  simp only [Reads, scanFrom, scan, List.append_nil, Ways.executed_congr hleaving, hexec, hend,
    Option.map_some, if_true]

/-- Here the text may end, or a fragment follow, with the action `k` in both cases. -/
structure Closes (K : Stack) (k : Nat) : Prop where
  final : Ways.isFinal [K] = true
  leaving : Ways.leaving [K] = [k]
  hash : Stack.step (byte '#') K = [([k], [Grammar.fragment 12])]

theorem closes_path : Closes behindPath 9 := ⟨rfl, rfl, rfl⟩

theorem closes_query : Closes behindQuery 11 := ⟨rfl, rfl, rfl⟩

theorem fragment_alike : Ways.Alike [[Grammar.fragment 12]]
    [.act 12 :: Grammar.queryText :: behindFragment] := by
  intro c g R
  simp only [List.mem_singleton, exists_eq_left, Grammar.fragment, Ragel.leave, Ragel.enter,
    Stack.step_cat]
  rfl

theorem query_alike : Ways.Alike (Ways.advance [behindPath] (byte '?'))
    [.act 10 :: Grammar.queryText :: behindQuery] := by
  intro c g R
  have hadvance : Ways.advance [behindPath] (byte '?') =
    [[Grammar.query 10, .opt (.cat (Grammar.char '#') (Grammar.fragment 12))]] := rfl
  rw [hadvance]
  simp only [List.mem_singleton, exists_eq_left, Grammar.query, Ragel.leave, Ragel.enter,
    Stack.step_cat]
  rfl

/-- What is left behind the last part before the fragment. -/
theorem reads_fragment {a : Ragel} {K : Stack} {k : Nat} {x' : Uri} {f : Text} (hcloses : Closes K k)
    (hplain : a.plain = true) (hends : a.Ends K) (haccepts : a.accepts w = true)
    (hexec : ∀ rest, execAll (m ++ w ++ rest) (m ++ w).length (Ways.executed actions [k])
      ⟨some m.length, x⟩ = some ⟨none, x'⟩)
    (hf : Grammar.queryText.accepts f = true) (hempty : x'.fragment = []) :
    Reads (m ++ w) ((if f = [] then [] else text "#") ++ f) ((Ways.run [[a]] w).frame K)
      ⟨some m.length, x⟩ { x' with fragment := f } := by
  by_cases hnil : f = []
  · subst hnil
    have hlast := hexec []
    rw [List.append_nil, ← hcloses.leaving] at hlast
    have heq : { x' with fragment := [] } = x' := by rw [← hempty]
    rw [if_pos rfl, heq]
    exact reads_done hplain haccepts hcloses.final hlast
  · rw [if_neg hnil]
    have hfired : Ways.fired [K] (byte '#') = [k] := by
      rw [Ways.fired_singleton, hcloses.hash]
      rfl
    have hadvance : Ways.advance [K] (byte '#') = [[Grammar.fragment 12]] := by
      rw [Ways.advance_singleton, hcloses.hash]
      rfl
    have hstep : Stack.step (byte '#') K ≠ [] := by
      rw [hcloses.hash]
      exact List.cons_ne_nil _ _
    have hhash := scanFrom_end hplain hends haccepts hstep (by rw [hfired]; exact hexec (byte '#' :: f))
    refine hhash.trans ?_
    have henter : scanFrom (m ++ w ++ [byte '#']) (f ++ []) [[Grammar.fragment 12]] ⟨none, x'⟩ = _ :=
      scanFrom_enter fragment_alike rfl Grammar.fragment_ends hf hnil marks_fragment
    rw [List.append_nil] at henter
    rw [hadvance, henter]
    have hfinal : Ways.isFinal [behindFragment] = true := rfl
    refine reads_done (z := ⟨none, { x' with fragment := f }⟩) rfl hf hfinal ?_
    have hactions : Ways.executed actions (Ways.leaving [behindFragment]) = [.saveFragment] := rfl
    have hslice := slice_marked (m ++ w ++ [byte '#']) f [] x'
    rw [List.append_nil] at hslice
    rw [hactions, execAll_singleton, Action.exec, hslice]
    rfl

/-- The end of the path, with what follows it. -/
theorem reads_tail {q f : Text} (haccepts : Grammar.pathAbempty.accepts w = true)
    (hq : Grammar.queryText.accepts q = true) (hf : Grammar.queryText.accepts f = true)
    (hquery : x.query = []) (hfragment : x.fragment = []) :
    Reads (m ++ w) ((if q = [] then [] else text "?") ++ q ++ ((if f = [] then [] else text "#") ++ f))
      ((Ways.run [[Grammar.pathAbempty]] w).frame behindPath) ⟨some m.length, x⟩
      { x with path := w, query := q, fragment := f } := by
  have hsave : ∀ rest, execAll (m ++ w ++ rest) (m ++ w).length (Ways.executed actions [9])
      ⟨some m.length, x⟩ = some ⟨none, { x with path := w }⟩ := by
    intro rest
    have hactions : Ways.executed actions [9] = [.savePath] := rfl
    rw [hactions, execAll_singleton, Action.exec, slice_marked]
    rfl
  by_cases hnil : q = []
  · subst hnil
    have heq : { x with path := w, query := [], fragment := f } =
        { x with path := w, fragment := f } := by rw [← hquery]
    rw [if_pos rfl, heq]
    exact reads_fragment closes_path rfl Grammar.path_ends haccepts hsave hf hfragment
  · rw [if_neg hnil]
    have hfired : Ways.fired [behindPath] (byte '?') = [9] := rfl
    have hquestion : text "?" = [byte '?'] := rfl
    rw [hquestion, List.append_assoc, List.singleton_append]
    refine (scanFrom_end rfl Grammar.path_ends haccepts Grammar.step_path_question
      (by rw [hfired]; exact hsave _)).trans ?_
    have hsaveQuery : ∀ rest, execAll (m ++ w ++ [byte '?'] ++ q ++ rest)
        (m ++ w ++ [byte '?'] ++ q).length (Ways.executed actions [11])
        ⟨some (m ++ w ++ [byte '?']).length, { x with path := w }⟩ =
          some ⟨none, { x with path := w, query := q }⟩ := by
      intro rest
      have hactions : Ways.executed actions [11] = [.saveQuery] := rfl
      rw [hactions, execAll_singleton, Action.exec, slice_marked]
      rfl
    rw [scanFrom_enter query_alike rfl Grammar.query_ends hq hnil marks_query]
    exact reads_fragment closes_query rfl Grammar.query_ends hq hsaveQuery hf hfragment

theorem exec_saveHost (m w rest : Text) (x : Uri) :
    Action.exec (m ++ w ++ rest) (m ++ w).length ⟨some m.length, x⟩ .saveHost =
      some ⟨some m.length, { x with host := w }⟩ := by
  simp only [Action.exec, Option.isSome_some, if_true, slice_marked, Option.map_some]

/-- The end of a host without a port. -/
theorem reads_slash (haccepts : Grammar.host.accepts w = true)
    (h : Reads (m ++ w ++ [byte '/']) rest
      ((Ways.run [[Grammar.pathAbempty]] [byte '/']).frame behindPath)
      ⟨some (m ++ w).length, { x with host := w }⟩ u) :
    Reads (m ++ w) (byte '/' :: rest) ((Ways.run [[Grammar.host]] w).frame behindHost)
      ⟨some m.length, x⟩ u := by
  have hactions : Ways.executed actions (Ways.fired [behindHost] (byte '/')) = [.saveHost, .markh] :=
    rfl
  refine (scanFrom_end rfl Grammar.host_ends haccepts Grammar.step_host_slash ?_).trans h
  rw [hactions, execAll_cons (exec_saveHost m w _ x)]
  rfl

theorem exec_savePort {ds : Text} (hne : ds ≠ []) (m rest : Text) (x : Uri) :
    Action.exec (m ++ ds ++ rest) (m ++ ds).length ⟨some m.length, x⟩ .savePort =
      some ⟨none, { x with port := Text.atoi (ds ++ rest) }⟩ := by
  have hmark : ¬some m.length = some (m ++ ds).length := by
    simpa using hne
  rw [Action.exec, if_neg hmark, List.append_assoc]
  simp only [Option.map_some, List.drop_left]

theorem port_alike : Ways.Alike (Ways.advance [behindHost] (byte ':'))
    [.act 6 :: Grammar.port :: behindPort] := by
  intro c g R
  have hadvance : Ways.advance [behindHost] (byte ':') = [[portPart, pathPart, Grammar.tail 10]] := rfl
  rw [hadvance]
  simp only [List.mem_singleton, exists_eq_left, portPart, Ragel.leave, Ragel.enter, Stack.step_cat]
  rfl

/-- The end of a host with a port. -/
theorem reads_port {ds : Text} (haccepts : Grammar.host.accepts w = true) (hne : ds ≠ [])
    (hdigits : ds.all isDigit = true)
    (h : Reads (m ++ w ++ [byte ':'] ++ ds ++ [byte '/']) rest
      ((Ways.run [[Grammar.pathAbempty]] [byte '/']).frame behindPath)
      ⟨some (m ++ w ++ [byte ':'] ++ ds).length,
        { x with host := w, port := Text.atoi (ds ++ byte '/' :: rest) }⟩ u) :
    Reads (m ++ w) (byte ':' :: (ds ++ byte '/' :: rest))
      ((Ways.run [[Grammar.host]] w).frame behindHost) ⟨some m.length, x⟩ u := by
  have hcolon : Ways.executed actions (Ways.fired [behindHost] (byte ':')) = [.saveHost] := rfl
  have hslash : Ways.executed actions (Ways.fired [behindPort] (byte '/')) = [.savePort, .markh] := rfl
  have hport : Grammar.port.accepts ds = true :=
    Ragel.accepts_star_byte (List.all_eq_true.mp hdigits)
  refine (scanFrom_end (z := ⟨some m.length, { x with host := w }⟩) rfl Grammar.host_ends haccepts
    Grammar.step_host_colon ?_).trans ?_
  · rw [hcolon, execAll_singleton, exec_saveHost]
  rw [scanFrom_enter port_alike rfl Grammar.port_ends hport hne marks_port]
  refine (scanFrom_end rfl Grammar.port_ends hport Grammar.step_port_slash ?_).trans h
  rw [hslash, execAll_cons (exec_savePort hne _ _ _)]
  rfl

theorem host_alike : Ways.Alike (Ways.advance [behindUserinfo] (byte '@'))
    [.act 4 :: Grammar.host :: behindHost] := by
  intro c g R
  have hadvance : Ways.advance [behindUserinfo] (byte '@') =
    [[.cat hostPart (.opt (.cat (Grammar.char ':') portPart)), pathPart, Grammar.tail 10]] := rfl
  rw [hadvance]
  simp only [List.mem_singleton, exists_eq_left, hostPart, Ragel.leave, Ragel.enter, Stack.step_cat]
  rfl

theorem letter_of_accepts {a : Ragel} (haccepts : a.accepts w = true) {c : UInt8} (hc : c ∈ w) :
    a.letter c = true := Ways.run_letter (Ways.ne_nil_of_isFinal haccepts) c hc

/-- The first byte behind `//`, in a host or in a userinfo that looks like one so far. -/
theorem scan_authority {c : UInt8} (haccepts : Grammar.host.accepts (c :: w) = true) :
    scanFrom pre (c :: rest) atAuthority s = scanFrom (pre ++ [c]) rest
      ((Ways.run [[Grammar.host]] [c]).frame behindHost ++
        (Ways.run [[Grammar.userinfo]] [c]).frame behindUserinfo)
      { s with mark := some pre.length } := by
  have hrun : Ways.run [[Grammar.host]] ([c] ++ w) ≠ [] := Ways.ne_nil_of_isFinal haccepts
  exact scanFrom_fork (fun g R => Grammar.mem_step_authority haccepts)
    (Ways.frame_ne_nil (Ways.run_ne_nil_left hrun)) (by decide) rfl

/-- A host without a userinfo before it, and what follows up to the path. -/
theorem reads_host {y : Text} (hne : w ≠ []) (haccepts : Grammar.host.accepts w = true)
    (hy : byte '@' ∉ y) (h : Reads (pre ++ w) (y ++ byte '/' :: rest)
      ((Ways.run [[Grammar.host]] w).frame behindHost) ⟨some pre.length, x⟩ u) :
    Reads pre (w ++ y ++ byte '/' :: rest) atAuthority ⟨none, x⟩ u := by
  obtain ⟨c, w, rfl⟩ := List.exists_cons_of_ne_nil hne
  have hrun : Ways.run [[Grammar.host]] ([c] ++ w) ≠ [] := Ways.ne_nil_of_isFinal haccepts
  -- The userinfo would need an `@` before the slash.
  have hdies : ((Ways.run [[Grammar.userinfo]] [c]).frame behindUserinfo).Dies
      (w ++ y ++ [byte '/']) := by
    refine Ways.dies_frame rfl Grammar.begins_userinfo ?_ rfl
    intro b hb hmem
    rw [List.mem_singleton.mp hmem, List.mem_append, List.mem_append] at hb
    rcases hb with (hb | hb) | hb
    · cases letter_of_accepts haccepts (List.mem_cons_of_mem c hb)
    · exact hy hb
    · cases List.mem_singleton.mp hb
  have htext : c :: w ++ y ++ byte '/' :: rest = c :: (w ++ y ++ [byte '/'] ++ rest) := by simp
  rw [Reads, htext, scan_authority haccepts]
  refine scanFrom_drop hdies ?_
  rw [List.append_assoc, List.append_assoc, scanFrom_inside rfl Grammar.host_ends hrun,
    List.append_assoc pre]
  exact h

/-- The rest of a userinfo, of which the part from the mark on is kept. -/
theorem reads_at {v k : Text} (haccepts : Grammar.userinfo.accepts (v ++ w) = true)
    (hkept : pre ++ w = m ++ k)
    (h : Reads (pre ++ w ++ [byte '@']) rest (Ways.advance [behindUserinfo] (byte '@'))
      ⟨none, { x with userinfo := k }⟩ u) :
    Reads pre (w ++ byte '@' :: rest) ((Ways.run [[Grammar.userinfo]] v).frame behindUserinfo)
      ⟨some m.length, x⟩ u := by
  have hactions : Ways.executed actions (Ways.fired [behindUserinfo] (byte '@')) = [.saveUserinfo] :=
    rfl
  rw [Reads, scanFrom_inside rfl Grammar.userinfo_ends (Ways.ne_nil_of_isFinal haccepts)]
  refine (scanFrom_end rfl Grammar.userinfo_ends haccepts Grammar.step_userinfo_at ?_).trans h
  rw [hactions, execAll_singleton, Action.exec, hkept, slice_marked]
  rfl

/-- A byte of a userinfo is not one behind a host, but for the colon. -/
theorem not_mem_of_userinfo {b : UInt8} (hletter : Grammar.userinfo.letter b = true)
    (hcolon : b ≠ byte ':') : b ∉ [byte ':', byte '/', byte '?', byte '#'] := by
  intro hmem
  rcases List.mem_cons.mp hmem with heq | hmem
  · exact hcolon heq
  · rw [Ways.not_letter_of_all rfl hmem] at hletter
    cases hletter

/-- A userinfo without a colon. -/
theorem reads_userinfo_name (hne : w ≠ []) (haccepts : Grammar.userinfo.accepts w = true)
    (hcolon : byte ':' ∉ w)
    (h : Reads (pre ++ w ++ [byte '@']) rest (Ways.advance [behindUserinfo] (byte '@'))
      ⟨none, { x with userinfo := w }⟩ u) :
    Reads pre (w ++ byte '@' :: rest) atAuthority ⟨none, x⟩ u := by
  have hhost : Grammar.host.accepts w = true :=
    Grammar.host_of_userinfo (r := []) (by rw [List.append_nil]; exact haccepts) hcolon nofun
  obtain ⟨c, w, rfl⟩ := List.exists_cons_of_ne_nil hne
  have hdies : ((Ways.run [[Grammar.host]] [c]).frame behindHost).Dies (w ++ [byte '@']) := by
    refine Ways.dies_frame rfl Grammar.begins_host ?_ rfl
    intro b hb
    rcases List.mem_append.mp hb with hb | hb
    · have hmem := List.mem_cons_of_mem c hb
      exact not_mem_of_userinfo (letter_of_accepts haccepts hmem)
        (fun heq => hcolon (by rw [← heq]; exact hmem))
    · rw [List.mem_singleton.mp hb]
      decide
  have htext : c :: w ++ byte '@' :: rest = c :: (w ++ [byte '@'] ++ rest) := by simp
  rw [Reads, htext, scan_authority hhost, scanFrom, scan_same (Ways.Same.comm _ _)]
  refine scanFrom_drop hdies ?_
  rw [List.append_assoc]
  refine reads_at haccepts (List.append_assoc pre [c] w) ?_
  rw [List.append_assoc pre]
  exact h

/-- Up to the first colon of a userinfo, where a host may end. -/
theorem reads_userinfo_colon (hrun : Ways.run [[Grammar.userinfo]] (w ++ [byte ':']) ≠ [])
    (hhost : Grammar.host.accepts w = true)
    (h : ∀ y, Reads (pre ++ w ++ [byte ':']) rest
      ((Ways.run [[Grammar.userinfo]] (w ++ [byte ':'])).frame behindUserinfo ++
        Ways.advance [behindHost] (byte ':')) ⟨some pre.length, { x with host := y }⟩ u) :
    Reads pre (w ++ byte ':' :: rest) atAuthority ⟨none, x⟩ u := by
  cases w with
  | nil =>
    have hfired : Ways.fired atAuthority (byte ':') = [2, 2, 4, 5] := rfl
    have hadvance : Ways.advance atAuthority (byte ':') =
      (Ways.run [[Grammar.userinfo]] [byte ':']).frame behindUserinfo ++
        Ways.advance [behindHost] (byte ':') := rfl
    have hactions : Ways.executed actions [2, 2, 4, 5] = [.markh, .saveHost] := rfl
    have hlast := h []
    rw [List.append_nil] at hlast
    refine (scanFrom_step (fun k => by rw [hfired]) (by rw [hadvance]; exact .refl _)
      (List.cons_ne_nil _ _) ?_).trans hlast
    have hsave := exec_saveHost pre [] (byte ':' :: rest) x
    rw [List.append_nil] at hsave
    rw [hactions, execAll_cons rfl, execAll_singleton, hsave]
  | cons c w =>
    have hhostRun : Ways.run [[Grammar.host]] ([c] ++ w) ≠ [] := Ways.ne_nil_of_isFinal hhost
    have huserRun : Ways.run [[Grammar.userinfo]] ([c] ++ w) ≠ [] := Ways.run_ne_nil_left hrun
    obtain ⟨hhostSame, hhostSilent⟩ := Ways.run_inside (v := [c]) rfl Grammar.host_ends hhostRun
    obtain ⟨huserSame, huserSilent⟩ := Ways.run_inside (v := [c]) rfl Grammar.userinfo_ends huserRun
    have hsame := hhostSame.append huserSame
    rw [← Ways.run_append] at hsame
    have hne : (Ways.run [[Grammar.host]] ([c] ++ w)).frame behindHost ++
        (Ways.run [[Grammar.userinfo]] ([c] ++ w)).frame behindUserinfo ≠ [] :=
      List.append_ne_nil_of_left_ne_nil (Ways.frame_ne_nil hhostRun) _
    rw [Reads, List.cons_append, scan_authority hhost,
      scanFrom_silent (hhostSilent.append huserSilent) (fun hnil => hne (hsame.eq_nil.mp hnil)),
      List.append_assoc, scanFrom, scan_same hsame]
    have huserStep := Ways.step_inside (S := Ways.run [[Grammar.userinfo]] (c :: w))
      ((Ways.plain_singleton rfl).run _) (Grammar.begins_userinfo.step_eq_nil (c := byte ':') (by decide))
    have hfired : Ways.fired [behindHost] (byte ':') = [5] := rfl
    refine (scanFrom_step (g := [5]) ?_ ?_ ?_ ?_).trans (h (c :: w))
    · intro k
      rw [Ways.fired_append, List.mem_append, ← hfired]
      refine Iff.trans (or_iff_left ?_) (Ways.fired_end rfl hhost _ k)
      exact fun hk => List.not_mem_nil (huserStep.2 ▸ hk)
    · have hcolon : Ways.run [[Grammar.userinfo]] (c :: w ++ [byte ':']) =
        (Ways.run [[Grammar.userinfo]] (c :: w)).advance (byte ':') := Ways.run_text_append _ _
      rw [Ways.advance_append, hcolon]
      refine Ways.Same.trans (Ways.Same.append ?_ huserStep.1) (Ways.Same.comm _ _)
      exact Ways.advance_end Grammar.host_ends hhost Grammar.step_host_colon
    · have hport : Ways.advance [behindHost] (byte ':') ≠ [] := List.cons_ne_nil _ _
      exact List.append_ne_nil_of_right_ne_nil _ hport
    · have hactions : Ways.executed actions [5] = [.saveHost] := rfl
      rw [hactions, execAll_singleton]
      exact exec_saveHost pre (c :: w) _ x

/-- A byte that cannot begin a port or what follows one. -/
theorem port_dies {d : UInt8} (hdigit : isDigit d = false)
    (hd : d ∉ [byte '/', byte '?', byte '#']) :
    (Ways.advance [behindHost] (byte ':')).Dies [d] := by
  have hstep : ∀ g R, (g, R) ∉ Stack.step d (.act 6 :: Grammar.port :: behindPort) := by
    intro g R
    simp [Grammar.port, Grammar.digit, hdigit, Grammar.begins_port.step_eq_nil hd]
  refine ⟨?_, ?_⟩
  · intro v c r heq
    cases v with
    | nil =>
      cases heq
      refine List.eq_nil_iff_forall_not_mem.mpr (fun k hk => ?_)
      obtain ⟨K, hK, g, R, hg, -⟩ := Ways.mem_fired.mp ((port_alike.fired d k).mp hk)
      rw [List.mem_singleton.mp hK] at hg
      exact hstep g R hg
    | cons b v => simp at heq
  · refine (port_alike.advance d).eq_nil.mpr (List.eq_nil_iff_forall_not_mem.mpr (fun R hR => ?_))
    obtain ⟨K, hK, g, hg⟩ := Ways.mem_advance.mp hR
    rw [List.mem_singleton.mp hK] at hg
    exact hstep g R hg

/-- A digit behind the first colon of a userinfo moves the mark. -/
theorem scan_port_digit {v : Text} {d : UInt8} (hdigit : isDigit d = true) :
    scanFrom pre (d :: rest) ((Ways.run [[Grammar.userinfo]] v).frame behindUserinfo ++
        Ways.advance [behindHost] (byte ':')) s =
      scanFrom (pre ++ [d]) rest
        ((Ways.run [[Grammar.userinfo]] (v ++ [d])).frame behindUserinfo ++
          (Ways.run [[Grammar.port]] [d]).frame behindPort) { s with mark := some pre.length } := by
  have hport : Grammar.port.accepts [d] = true := by
    refine Ragel.accepts_star_byte ?_
    rw [List.forall_mem_singleton]
    exact hdigit
  have hat : d ∉ [byte '@'] := by
    intro hmem
    rw [List.mem_singleton.mp hmem] at hdigit
    cases hdigit
  have huserStep := Ways.step_inside (S := Ways.run [[Grammar.userinfo]] v)
    ((Ways.plain_singleton rfl).run _) (Grammar.begins_userinfo.step_eq_nil hat)
  have hne : (Ways.run [[Grammar.port]] [d]).frame behindPort ≠ [] :=
    Ways.frame_ne_nil (Ways.ne_nil_of_isFinal hport)
  refine scanFrom_step (g := [6]) ?_ ?_ (List.append_ne_nil_of_right_ne_nil _ hne)
    (marks_port _ _ s)
  · intro k
    rw [Ways.fired_append, huserStep.2, List.nil_append, port_alike.fired d k]
    exact Ways.fired_entered rfl Grammar.port_ends hport 6 k
  · have hdigit : Ways.run [[Grammar.userinfo]] (v ++ [d]) =
      (Ways.run [[Grammar.userinfo]] v).advance d := Ways.run_text_append _ _
    rw [Ways.advance_append, hdigit]
    refine huserStep.1.append ((port_alike.advance d).trans ?_)
    exact Ways.advance_entered rfl Grammar.port_ends hport 6

/-- The rest of a userinfo behind a colon that cannot stand before a port. -/
theorem reads_userinfo_rest {v : Text} (haccepts : Grammar.userinfo.accepts (v ++ w) = true)
    (hkept : pre ++ w = m ++ (v ++ w)) (hdigit : ∀ d, w.head? = some d → isDigit d = false)
    (h : Reads (pre ++ w ++ [byte '@']) rest (Ways.advance [behindUserinfo] (byte '@'))
      ⟨none, { x with userinfo := v ++ w }⟩ u) :
    Reads pre (w ++ byte '@' :: rest) ((Ways.run [[Grammar.userinfo]] v).frame behindUserinfo ++
      Ways.advance [behindHost] (byte ':')) ⟨some m.length, x⟩ u := by
  have hreads := reads_at haccepts hkept h
  cases w with
  | nil => exact scanFrom_drop (w := [byte '@']) (port_dies rfl (by decide)) hreads
  | cons d w =>
    have hd : d ∉ [byte '/', byte '?', byte '#'] := by
      intro hmem
      have hletter := letter_of_accepts haccepts (List.mem_append_right v (List.mem_cons_self ..))
      rw [Ways.not_letter_of_all rfl hmem] at hletter
      cases hletter
    exact scanFrom_drop (w := [d]) (port_dies (hdigit d rfl) hd) hreads

/-- The rest of a userinfo behind a colon with a digit. -/
theorem reads_userinfo_digit {v : Text} {d : UInt8}
    (haccepts : Grammar.userinfo.accepts (v ++ d :: w) = true) (hdigit : isDigit d = true)
    (h : Reads (pre ++ d :: w ++ [byte '@']) rest (Ways.advance [behindUserinfo] (byte '@'))
      ⟨none, { x with userinfo := d :: w }⟩ u) :
    Reads pre (d :: w ++ byte '@' :: rest) ((Ways.run [[Grammar.userinfo]] v).frame behindUserinfo ++
      Ways.advance [behindHost] (byte ':')) ⟨some m.length, x⟩ u := by
  have hdies : ((Ways.run [[Grammar.port]] [d]).frame behindPort).Dies (w ++ [byte '@']) := by
    refine Ways.dies_frame rfl Grammar.begins_port ?_ rfl
    intro b hb hmem
    rcases List.mem_append.mp hb with hb | hb
    · have hletter := letter_of_accepts haccepts
        (List.mem_append_right v (List.mem_cons_of_mem d hb))
      rw [Ways.not_letter_of_all rfl hmem] at hletter
      cases hletter
    · rw [List.mem_singleton.mp hb] at hmem
      revert hmem
      decide
  rw [List.append_cons] at haccepts
  have htext : d :: w ++ byte '@' :: rest = d :: (w ++ [byte '@'] ++ rest) := by simp
  rw [Reads, htext, scan_port_digit hdigit]
  refine scanFrom_drop hdies ?_
  rw [List.append_assoc]
  refine reads_at haccepts (List.append_assoc pre [d] w) ?_
  rw [List.append_assoc pre]
  exact h

end Phases

section Round
variable {pre m rest w y q f : Text} {x u : Uri}

/-- The rest of a path behind its first slash, with what follows it. -/
theorem reads_path (haccepts : Grammar.pathAbempty.accepts (byte '/' :: y) = true)
    (hq : Grammar.queryText.accepts q = true) (hf : Grammar.queryText.accepts f = true)
    (hquery : x.query = []) (hfragment : x.fragment = []) :
    Reads (m ++ [byte '/'])
      (y ++ ((if q = [] then [] else text "?") ++ q ++ ((if f = [] then [] else text "#") ++ f)))
      ((Ways.run [[Grammar.pathAbempty]] [byte '/']).frame behindPath) ⟨some m.length, x⟩
      { x with path := byte '/' :: y, query := q, fragment := f } := by
  have hrun : Ways.run [[Grammar.pathAbempty]] ([byte '/'] ++ y) ≠ [] :=
    Ways.ne_nil_of_isFinal haccepts
  rw [Reads, scanFrom_inside rfl Grammar.path_ends hrun, List.append_assoc]
  exact reads_tail haccepts hq hf hquery hfragment

end Round

/-- The first colon of the userinfo is directly followed by a digit, like one before a port. -/
def portLike (userinfo : Text) : Bool :=
  (userinfo.dropWhile (fun b => b != byte ':')).tail.head?.any isDigit

/-- What is left of a userinfo. -/
def keptUserinfo (userinfo : Text) : Text :=
  if portLike userinfo then (userinfo.dropWhile (fun b => b != byte ':')).tail else userinfo

theorem userinfo_split (w : Text) : (byte ':' ∉ w ∧ keptUserinfo w = w) ∨
    ∃ t v, w = t ++ byte ':' :: v ∧ byte ':' ∉ t ∧
      keptUserinfo w = if v.head?.any isDigit then v else w := by
  have hsplit := List.takeWhile_append_dropWhile (p := fun b => b != byte ':') (l := w)
  have hbefore : byte ':' ∉ w.takeWhile (fun b => b != byte ':') := by
    intro hmem
    have hcolon := List.mem_takeWhile_imp hmem
    simp at hcolon
  cases hdrop : w.dropWhile (fun b => b != byte ':') with
  | nil =>
    left
    rw [hdrop, List.append_nil] at hsplit
    rw [hsplit] at hbefore
    refine ⟨hbefore, ?_⟩
    rw [keptUserinfo, portLike, hdrop]
    rfl
  | cons e v =>
    right
    have he : e = byte ':' := by
      have hnot := List.head?_dropWhile_not (fun b => b != byte ':') w
      rw [hdrop] at hnot
      simpa using hnot
    rw [hdrop, he] at hsplit
    refine ⟨_, v, hsplit.symm, hbefore, ?_⟩
    rw [keptUserinfo, portLike, hdrop]
    rfl

theorem reads_userinfo {pre rest w : Text} {x u : Uri} (hne : w ≠ [])
    (haccepts : Grammar.userinfo.accepts w = true)
    (h : ∀ y, Reads (pre ++ w ++ [byte '@']) rest (Ways.advance [behindUserinfo] (byte '@'))
      ⟨none, { x with userinfo := keptUserinfo w, host := y }⟩ u) :
    Reads pre (w ++ byte '@' :: rest) atAuthority ⟨none, x⟩ u := by
  rcases userinfo_split w with ⟨hcolon, hkept⟩ | ⟨t, v, rfl, hcolon, hkept⟩
  · rw [hkept] at h
    exact reads_userinfo_name hne haccepts hcolon (h x.host)
  · have hhost : Grammar.host.accepts t = true :=
      Grammar.host_of_userinfo haccepts hcolon (by simp)
    rw [List.append_cons] at haccepts
    have hrun := Ways.run_ne_nil_left (Ways.ne_nil_of_isFinal haccepts)
    rw [List.append_assoc, List.cons_append]
    refine reads_userinfo_colon hrun hhost (fun y => ?_)
    have hlast := h y
    rw [hkept, List.append_cons t, ← List.append_assoc pre, ← List.append_assoc pre] at hlast
    by_cases hport : v.head?.any isDigit = true
    · rw [if_pos hport] at hlast
      cases v with
      | nil => cases hport
      | cons d v => exact reads_userinfo_digit haccepts hport hlast
    · rw [if_neg hport] at hlast
      refine reads_userinfo_rest haccepts (by simp) ?_ hlast
      intro d hd
      rw [hd] at hport
      exact Bool.eq_false_of_not_eq_true hport

/-- A `Uri` with an authority, each part in the grammar. -/
structure InGrammar (u : Uri) : Prop where
  scheme : Grammar.schemeText.accepts u.scheme = true
  userinfo : Grammar.userinfo.accepts u.userinfo = true
  host : Grammar.host.accepts u.host = true
  hostNonempty : u.host ≠ []
  port : 0 ≤ u.port ∧ u.port ≤ 65535
  path : Grammar.pathAbempty.accepts u.path = true
  query : Grammar.queryText.accepts u.query = true
  fragment : Grammar.queryText.accepts u.fragment = true

namespace InGrammar
variable {u : Uri}

theorem getPath_eq (h : InGrammar u) : ∃ y, u.getPath = byte '/' :: y ∧
    Grammar.pathAbempty.accepts (byte '/' :: y) = true := by
  rw [getPath]
  split
  · exact ⟨[], rfl, rfl⟩
  · rename_i hne
    obtain ⟨c, y, hpath⟩ := List.exists_cons_of_ne_nil hne
    have haccepts := h.path
    rw [hpath] at haccepts ⊢
    obtain ⟨g, R, hg, -⟩ := Ragel.accepts_cons_iff.mp haccepts
    rw [Grammar.path_first hg] at haccepts ⊢
    exact ⟨y, rfl, haccepts⟩

/-- The text behind the host, as `dump` writes it. -/
theorem reads_behindHost (h : InGrammar u) {m : Text} {x : Uri} (hport : x.port = 0)
    (hquery : x.query = []) (hfragment : x.fragment = []) :
    Reads (m ++ u.host) ((if u.isDefaultPort then [] else text ":" ++ Text.decimal u.port) ++
        (u.getPath ++ ((if u.query = [] then [] else text "?") ++ u.query ++
          ((if u.fragment = [] then [] else text "#") ++ u.fragment))))
      ((Ways.run [[Grammar.host]] u.host).frame behindHost) ⟨some m.length, x⟩
      { x with
        host := u.host
        port := if u.isDefaultPort then 0 else u.port
        path := u.getPath
        query := u.query
        fragment := u.fragment } := by
  obtain ⟨y, hpath, haccepts⟩ := h.getPath_eq
  rw [hpath]
  by_cases hdefault : u.isDefaultPort = true
  · rw [if_pos hdefault, if_pos hdefault, ← hport]
    exact reads_slash h.host (reads_path haccepts h.query h.fragment hquery hfragment)
  · have hdecimal : Text.decimal u.port = Text.ofNat u.port.natAbs :=
      if_neg (Int.not_lt.mpr h.port.1)
    have hstop : ¬Lib.digitValue (byte '/') < 10 := by decide
    have hatoi := Text.atoi_ofNat (n := u.port.natAbs) (by have := h.port; omega) hstop
    have hvalue : ((u.port.natAbs : Nat) : Int) = u.port := Int.natAbs_of_nonneg h.port.1
    have hlast := reads_path (m := m ++ u.host ++ [byte ':'] ++ Text.ofNat u.port.natAbs)
      (x := { x with host := u.host, port := u.port }) haccepts h.query h.fragment hquery hfragment
    have hcolon : text ":" = [byte ':'] := rfl
    rw [if_neg hdefault, if_neg hdefault, hdecimal, hcolon, List.append_assoc, List.singleton_append,
      List.cons_append]
    refine reads_port h.host (Text.ofNat_ne_nil _) (Text.ofNat_all_isDigit _) ?_
    rw [hatoi, hvalue]
    exact hlast

theorem not_at_port (h : InGrammar u) :
    byte '@' ∉ (if u.isDefaultPort then [] else text ":" ++ Text.decimal u.port) := by
  split
  · exact List.not_mem_nil
  · have hdecimal : Text.decimal u.port = Text.ofNat u.port.natAbs :=
      if_neg (Int.not_lt.mpr h.port.1)
    rw [hdecimal, List.mem_append]
    rintro (hmem | hmem)
    · revert hmem
      decide
    · have hdigit := List.all_eq_true.mp (Text.ofNat_all_isDigit u.port.natAbs) _ hmem
      cases hdigit

end InGrammar

/-- What `Create` makes of the text of a `Uri`. -/
theorem create_toString {u : Uri} (h : InGrammar u) : create u.toString = some (some { u with
    userinfo := keptUserinfo u.userinfo
    port := if u.isDefaultPort then 0 else u.port
    path := u.getPath }) := by
  obtain ⟨y, hpath, -⟩ := h.getPath_eq
  have htext : u.toString = u.scheme ++ text "://" ++
      (u.userinfo ++ ((if u.userinfo = [] then [] else text "@") ++ (u.host ++
        (if u.isDefaultPort then [] else text ":" ++ Text.decimal u.port) ++ byte '/' :: (y ++
          ((if u.query = [] then [] else text "?") ++ u.query ++
            ((if u.fragment = [] then [] else text "#") ++ u.fragment)))))) := by
    simp only [toString, hpath, List.append_assoc, List.cons_append]
  rw [htext]
  refine reads_scheme h.scheme ?_
  by_cases hnil : u.userinfo = []
  · have hkept : keptUserinfo u.userinfo = [] := by
      rw [hnil]
      rfl
    have hlast := h.reads_behindHost (m := u.scheme ++ text "://") (x := { scheme := u.scheme }) rfl
      rfl rfl
    rw [hpath, List.cons_append] at hlast
    rw [hkept, hpath, hnil, if_pos rfl]
    exact reads_host h.hostNonempty h.host h.not_at_port hlast
  · have hat : text "@" = [byte '@'] := rfl
    rw [if_neg hnil, hat, List.singleton_append]
    refine reads_userinfo hnil h.userinfo (fun z => ?_)
    rw [Reads, List.append_assoc u.host, scanFrom_enter host_alike rfl Grammar.host_ends h.host
      h.hostNonempty marks_host]
    have hlast := h.reads_behindHost (m := u.scheme ++ text "://" ++ u.userinfo ++ [byte '@'])
      (x := { scheme := u.scheme, userinfo := keptUserinfo u.userinfo, host := z }) rfl rfl rfl
    rw [hpath, List.cons_append] at hlast
    rw [hpath]
    exact hlast

/-- `Create` gives the text of `u` back as an equal `Uri`. -/
def RoundTrip (u : Uri) : Prop :=
  ∃ v, create u.toString = some (some v) ∧ v.scheme = u.scheme ∧ v.userinfo = u.userinfo ∧
    v.host = u.host ∧ v.getPort = u.getPort ∧ v.getPath = u.getPath ∧ v.query = u.query ∧
    v.fragment = u.fragment

theorem keptUserinfo_eq_iff (w : Text) : keptUserinfo w = w ↔ portLike w = false := by
  rw [keptUserinfo]
  by_cases hport : portLike w = true
  · have hne : w.dropWhile (fun b => b != byte ':') ≠ [] := by
      intro hnil
      rw [portLike, hnil] at hport
      cases hport
    have hle := (List.dropWhile_suffix (l := w) (fun b => b != byte ':')).length_le
    have hpos := List.length_pos_of_ne_nil hne
    rw [if_pos hport, hport]
    refine iff_of_false (fun heq => ?_) (by decide)
    have hlength := congrArg List.length heq
    rw [List.length_tail] at hlength
    omega
  · rw [if_neg hport]
    exact iff_of_true rfl (Bool.eq_false_of_not_eq_true hport)

theorem getPort_default {u v : Uri} (hscheme : v.scheme = u.scheme)
    (hport : v.port = if u.isDefaultPort then 0 else u.port) : v.getPort = u.getPort := by
  simp only [getPort, hscheme, hport, isDefaultPort]
  split_ifs <;> simp_all

/-- The text of a `Uri` is read back exactly when its userinfo does not look like a host with
a port. -/
theorem roundTrip_iff {u : Uri} (h : InGrammar u) : RoundTrip u ↔ portLike u.userinfo = false := by
  have hpath : u.getPath ≠ [] := by
    obtain ⟨y, hpath, -⟩ := h.getPath_eq
    rw [hpath]
    exact List.cons_ne_nil _ _
  constructor
  · rintro ⟨v, hv, -, huserinfo, -⟩
    rw [create_toString h] at hv
    cases hv
    exact (keptUserinfo_eq_iff u.userinfo).mp huserinfo
  · intro hport
    refine ⟨_, create_toString h, rfl, (keptUserinfo_eq_iff u.userinfo).mpr hport, rfl,
      getPort_default rfl rfl, ?_, rfl, rfl⟩
    exact if_neg hpath

theorem roundTrip_password : portLike (text "user:pw") = false ∧
    RoundTrip ⟨text "http", text "user:pw", text "host", 8080, text "/p", text "q", text "f"⟩ := by
  refine ⟨by decide, (roundTrip_iff ?_).mpr (by decide)⟩
  constructor <;> decide

/-- The userinfo `user:1w` comes back as `1w`. -/
theorem not_roundTrip_digit :
    let u : Uri := ⟨text "http", text "user:1w", text "host", 0, text "/", [], []⟩
    InGrammar u ∧ create u.toString = some (some { u with userinfo := text "1w" }) ∧
      ¬RoundTrip u := by
  intro u
  have hcreate : create u.toString = some (some { u with userinfo := text "1w" }) := by
    decide
  refine ⟨by constructor <;> decide, hcreate, ?_⟩
  rintro ⟨v, hv, -, huserinfo, -⟩
  rw [hcreate] at hv
  cases hv
  revert huserinfo
  decide

end Uri
end HxSylar
