import HxSylar.Lib.RagelParts
import HxSylar.Uri

namespace HxSylar
open Lib (Text Stack Ragel Ways)

namespace Uri

/-- The loop behind the part `pre` of a text. -/
def scanFrom (pre rest : Text) (S : Ways) (s : Scan) : Option (Option Uri) :=
  scan (pre ++ rest) rest pre.length S s

section Rules
variable {pre rest w : Text} {c : UInt8} {S S' Z : Ways} {s z : Scan} {g : List Nat}

theorem scanFrom_cons : scanFrom pre (c :: rest) S s =
    (execAll (pre ++ c :: rest) pre.length (Ways.executed actions (S.fired c)) s).bind (fun s =>
      if (S.advance c).isEmpty then some none else scanFrom (pre ++ [c]) rest (S.advance c) s) := by
  simp only [scanFrom, scan, List.append_assoc, List.singleton_append, List.length_append,
    List.length_singleton]

theorem scan_same {t rest : Text} {p : Nat} (h : S.Same S') :
    scan t rest p S s = scan t rest p S' s := by
  induction rest generalizing S S' p s with
  | nil => simp only [scan, Ways.executed_congr h.leaving, h.isFinal]
  | cons c rest ih =>
    have hempty : (S.advance c).isEmpty = (S'.advance c).isEmpty := by
      rw [Bool.eq_iff_iff, List.isEmpty_iff, List.isEmpty_iff]
      exact (h.advance c).eq_nil
    simp only [scan, Ways.executed_congr (h.fired c), hempty]
    congr 1
    funext s
    rw [ih (h.advance c)]

/-- One byte: its actions, and the ways behind it. -/
theorem scanFrom_step (hfired : ∀ k, k ∈ S.fired c ↔ k ∈ g) (hadvance : (S.advance c).Same S')
    (hne : S' ≠ []) (hexec : execAll (pre ++ c :: rest) pre.length (Ways.executed actions g) s =
      some z) : scanFrom pre (c :: rest) S s = scanFrom (pre ++ [c]) rest S' z := by
  have hempty : (S.advance c).isEmpty = false := by
    rw [List.isEmpty_eq_false_iff]
    exact fun hnil => hne (hadvance.eq_nil.mp hnil)
  rw [scanFrom_cons, Ways.executed_congr hfired, hexec]
  simp only [Option.bind_some, hempty, Bool.false_eq_true, if_false]
  exact scan_same hadvance

theorem scanFrom_pass (hfired : S.fired c = []) (hne : S.advance c ≠ []) :
    scanFrom pre (c :: rest) S s = scanFrom (pre ++ [c]) rest (S.advance c) s :=
  scanFrom_step (g := []) (fun k => by rw [hfired]) (.refl _) hne rfl

theorem scanFrom_alike (h : S.Alike S') :
    scanFrom pre (c :: rest) S s = scanFrom pre (c :: rest) S' s := by
  have hempty : (S.advance c).isEmpty = (S'.advance c).isEmpty := by
    rw [Bool.eq_iff_iff, List.isEmpty_iff, List.isEmpty_iff]
    exact (h.advance c).eq_nil
  rw [scanFrom_cons, scanFrom_cons, Ways.executed_congr (h.fired c), hempty]
  congr 1
  funext s
  split
  · rfl
  · exact scan_same (h.advance c)

/-- A text within which nothing is executed. -/
theorem scanFrom_silent (hsilent : S.Silent w) (hne : S.run w ≠ []) :
    scanFrom pre (w ++ rest) S s = scanFrom (pre ++ w) rest (S.run w) s := by
  induction w generalizing pre S with
  | nil => rw [List.append_nil]; rfl
  | cons c w ih =>
    obtain ⟨hfired, htail⟩ := hsilent.tail
    rw [List.cons_append, scanFrom_pass hfired (Ways.advance_ne_nil hne), ih htail hne,
      List.append_assoc]
    rfl

/-- Ways that die on the text do not keep it from being read. -/
theorem scanFrom_drop {u : Uri} (hdies : Z.Dies w)
    (h : scanFrom pre (w ++ rest) S s = some (some u)) :
    scanFrom pre (w ++ rest) (S ++ Z) s = some (some u) := by
  induction w generalizing pre S Z s with
  | nil =>
    have hnil : Z = [] := hdies.2
    rw [hnil, List.append_nil]
    exact h
  | cons c w ih =>
    obtain ⟨hfired, htail⟩ := hdies.tail
    rw [List.cons_append, scanFrom_cons] at h ⊢
    obtain ⟨z, hexec, h⟩ := Option.bind_eq_some_iff.mp h
    rw [Ways.fired_append, hfired, List.append_nil, Ways.advance_append, hexec, Option.bind_some]
    by_cases hempty : (S.advance c).isEmpty = true
    · rw [if_pos hempty] at h
      cases h
    · rw [if_neg hempty] at h
      rw [if_neg]
      · exact ih htail h
      · simp only [List.isEmpty_iff, List.append_eq_nil_iff] at hempty ⊢
        exact fun hboth => hempty hboth.1

end Rules

/-- The actions set `mark` to the position and do nothing else. -/
def Marks (g : List Nat) : Prop :=
  ∀ t p s, execAll t p (Ways.executed actions g) s = some { s with mark := some p }

section Parts
variable {pre rest v w : Text} {c : UInt8} {a : Ragel} {K : Stack} {s z : Scan} {k : Nat}

/-- A byte with two ways, where the second has no action of its own. -/
theorem scanFrom_fork {F G : Ways} {fs gs : List Nat} (hstep : ∀ g R, (g, R) ∈ Stack.step c K ↔
      (g = fs ∧ R ∈ F) ∨ (g = gs ∧ R ∈ G)) (hne : F ≠ []) (hsub : ∀ k ∈ gs, k ∈ fs)
    (hexec : execAll (pre ++ c :: rest) pre.length (Ways.executed actions fs) s = some z) :
    scanFrom pre (c :: rest) [K] s = scanFrom (pre ++ [c]) rest (F ++ G) z := by
  refine scanFrom_step ?_ ?_ (List.append_ne_nil_of_left_ne_nil hne G) hexec
  · intro k
    simp only [Ways.mem_fired, List.mem_singleton, exists_eq_left, hstep]
    constructor
    · rintro ⟨g, R, ⟨rfl, -⟩ | ⟨rfl, -⟩, hk⟩
      · exact hk
      · exact hsub k hk
    · intro hk
      obtain ⟨R, hR⟩ := List.exists_mem_of_ne_nil _ hne
      exact ⟨fs, R, .inl ⟨rfl, hR⟩, hk⟩
  · intro R
    simp only [Ways.mem_advance, List.mem_singleton, exists_eq_left, hstep, List.mem_append]
    constructor
    · rintro ⟨g, ⟨-, hR⟩ | ⟨-, hR⟩⟩
      · exact .inl hR
      · exact .inr hR
    · rintro (hR | hR)
      · exact ⟨fs, .inl ⟨rfl, hR⟩⟩
      · exact ⟨gs, .inr ⟨rfl, hR⟩⟩

theorem scanFrom_inside (hplain : a.plain = true) (hends : a.Ends K)
    (hne : Ways.run [[a]] (v ++ w) ≠ []) :
    scanFrom pre (w ++ rest) ((Ways.run [[a]] v).frame K) s =
      scanFrom (pre ++ w) rest ((Ways.run [[a]] (v ++ w)).frame K) s := by
  obtain ⟨hsame, hsilent⟩ := Ways.run_inside hplain hends hne
  have hframe : (Ways.run [[a]] (v ++ w)).frame K ≠ [] := Ways.frame_ne_nil hne
  rw [scanFrom_silent hsilent (fun hnil => hframe (hsame.eq_nil.mp hnil))]
  exact scan_same hsame

theorem scanFrom_end (hplain : a.plain = true) (hends : a.Ends K) (haccepts : a.accepts v = true)
    (hstep : Stack.step c K ≠ []) (hexec : execAll (pre ++ c :: rest) pre.length
      (Ways.executed actions (Ways.fired [K] c)) s = some z) :
    scanFrom pre (c :: rest) ((Ways.run [[a]] v).frame K) s =
      scanFrom (pre ++ [c]) rest (Ways.advance [K] c) z := by
  refine scanFrom_step (Ways.fired_end hplain haccepts c) (Ways.advance_end hends haccepts hstep)
    ?_ hexec
  rw [Ways.advance_singleton, Ne, List.map_eq_nil_iff]
  exact hstep

theorem scanFrom_enter {S : Ways} (halike : S.Alike [.act k :: a :: K]) (hplain : a.plain = true)
    (hends : a.Ends K) (haccepts : a.accepts w = true) (hne : w ≠ []) (hmarks : Marks [k]) :
    scanFrom pre (w ++ rest) S s =
      scanFrom (pre ++ w) rest ((Ways.run [[a]] w).frame K) { s with mark := some pre.length } := by
  obtain ⟨c, w, rfl⟩ := List.exists_cons_of_ne_nil hne
  have hrun : Ways.run [[a]] ([c] ++ w) ≠ [] := Ways.ne_nil_of_isFinal haccepts
  rw [List.cons_append, scanFrom_alike halike,
    scanFrom_step (Ways.fired_entered hplain hends haccepts k)
      (Ways.advance_entered hplain hends haccepts k)
      (Ways.frame_ne_nil (Ways.run_ne_nil_left hrun)) (hmarks _ _ s),
    scanFrom_inside hplain hends hrun, List.append_assoc]
  rfl

end Parts

end Uri
end HxSylar
