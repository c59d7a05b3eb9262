import HxSylar.Lib.Ragel

namespace HxSylar.Lib

/-- Only these bytes can come first. -/
def Stack.Begins (K : Stack) (cs : Text) : Prop := ∀ c g R, (g, R) ∈ Stack.step c K → c ∈ cs

theorem Stack.Begins.step_eq_nil {K : Stack} {cs : Text} {c : UInt8} (h : K.Begins cs)
    (hc : c ∉ cs) : Stack.step c K = [] := by
  refine List.eq_nil_iff_forall_not_mem.mpr ?_
  rintro ⟨g, R⟩ hg
  exact hc (h c g R hg)

/-- Where a text of `a` may end, a byte that begins `K` cannot continue it. -/
def Ragel.Ends (a : Ragel) (K : Stack) : Prop :=
  ∀ v c, a.accepts v = true → Stack.step c K ≠ [] → (Ways.run [[a]] v).advance c = []

namespace Ways
variable {S S' Z : Ways} {K : Stack} {a : Ragel} {c : UInt8} {v w : Text}

/-- A byte that does not occur in the expression has no way. -/
theorem advance_not_letter (h : a.letter c = false) : (run [[a]] v).advance c = [] := by
  by_contra hadvance
  have hrun : run [[a]] (v ++ [c]) ≠ [] := by
    rw [run_text_append]
    exact hadvance
  have hc := run_letter hrun c (List.mem_append_right v (List.mem_singleton.mpr rfl))
  rw [h] at hc
  cases hc

theorem not_letter_of_all {cs : Text} (h : cs.all (fun c => !a.letter c) = true) (hc : c ∈ cs) :
    a.letter c = false := by
  rw [List.all_eq_true] at h
  have hletter := h c hc
  rw [Bool.not_eq_true'] at hletter
  exact hletter

theorem ends_of_letter {cs : Text} (hK : K.Begins cs)
    (h : cs.all (fun c => !a.letter c) = true) : a.Ends K := by
  intro v c _ hstep
  by_cases hc : c ∈ cs
  · exact advance_not_letter (not_letter_of_all h hc)
  · exact absurd (hK.step_eq_nil hc) hstep

theorem run_ne_nil_left (h : S.run (v ++ w) ≠ []) : S.run v ≠ [] := by
  intro hnil
  rw [run_text_append, hnil, run_nil] at h
  exact h rfl

theorem frame_ne_nil (h : S ≠ []) : S.frame K ≠ [] := by
  rw [frame, Ne, List.map_eq_nil_iff]
  exact h

theorem advance_ne_nil (h : S.run (c :: w) ≠ []) : S.advance c ≠ [] := by
  intro hnil
  rw [run_cons, hnil, run_nil] at h
  exact h rfl

/-- Inside a part the text of the part runs to its end, and nothing is executed. -/
theorem run_inside (hplain : a.plain = true) (hends : a.Ends K) (hne : run [[a]] (v ++ w) ≠ []) :
    Same (((run [[a]] v).frame K).run w) ((run [[a]] (v ++ w)).frame K) ∧
      ((run [[a]] v).frame K).Silent w := by
  rw [run_text_append]
  refine run_frame ((plain_singleton hplain).run v) ?_
  intro v' c r heq hfinal
  by_contra hstep
  have hadvance := hends (v ++ v') c (by rw [Ragel.accepts, run_text_append]; exact hfinal) hstep
  rw [heq, ← List.append_assoc, run_text_append, run_cons, hadvance, run_nil] at hne
  exact hne rfl

/-- A byte that cannot begin what follows a part. -/
theorem step_inside (hplain : S.Plain) (hstep : Stack.step c K = []) :
    Same ((S.frame K).advance c) ((S.advance c).frame K) ∧ (S.frame K).fired c = [] := by
  obtain ⟨hsame, hsilent⟩ := run_frame (K := K) (t := [c]) hplain (by
    intro v b r heq _
    cases v with
    | nil =>
      cases heq
      exact hstep
    | cons d v => simp at heq)
  exact ⟨hsame, hsilent [] c [] rfl⟩

/-- The byte behind a part is the first of what follows. -/
theorem advance_end (hends : a.Ends K) (haccepts : a.accepts v = true)
    (hstep : Stack.step c K ≠ []) :
    Same (((run [[a]] v).frame K).advance c) (advance [K] c) := by
  refine (advance_frame _ K c).trans ?_
  have hfinal : (run [[a]] v).isFinal = true := haccepts
  rw [hends v c haccepts hstep, if_pos hfinal]
  exact .refl _

theorem fired_end (hplain : a.plain = true) (haccepts : a.accepts v = true) (c k) :
    k ∈ ((run [[a]] v).frame K).fired c ↔ k ∈ fired [K] c := by
  rw [fired_frame ((plain_singleton hplain).run v)]
  exact and_iff_right haccepts

/-- The first byte of a part that is entered with an action. -/
theorem mem_step_entered (hplain : a.plain = true) (hends : a.Ends K)
    (haccepts : a.accepts (c :: w) = true) {k : Nat} {g : List Nat} {R : Stack} :
    (g, R) ∈ Stack.step c (.act k :: a :: K) ↔ g = [k] ∧ R ∈ (run [[a]] [c]).frame K := by
  have hadvance : advance [[a]] c ≠ [] := advance_ne_nil (ne_nil_of_isFinal haccepts)
  have hpassed : a.accepts [] = true → Stack.step c K = [] := by
    intro hempty
    by_contra hstep
    exact hadvance (hends [] c hempty hstep)
  rw [Stack.step_act]
  constructor
  · rintro ⟨h, hh, rfl⟩
    rcases (Stack.step_plain hplain).mp hh with ⟨rfl, hR⟩ | ⟨hempty, hK⟩
    · exact ⟨rfl, hR⟩
    · rw [hpassed hempty] at hK
      cases hK
  · rintro ⟨rfl, hR⟩
    exact ⟨[], (Stack.step_plain hplain).mpr (.inl ⟨rfl, hR⟩), rfl⟩

theorem advance_entered (hplain : a.plain = true) (hends : a.Ends K)
    (haccepts : a.accepts (c :: w) = true) (k : Nat) :
    Same (advance [.act k :: a :: K] c) ((run [[a]] [c]).frame K) := by
  intro R
  simp only [mem_advance, List.mem_singleton, exists_eq_left,
    mem_step_entered hplain hends haccepts]

theorem fired_entered (hplain : a.plain = true) (hends : a.Ends K)
    (haccepts : a.accepts (c :: w) = true) (k j : Nat) :
    j ∈ fired [.act k :: a :: K] c ↔ j ∈ [k] := by
  have hne : (run [[a]] [c]).frame K ≠ [] :=
    frame_ne_nil (advance_ne_nil (ne_nil_of_isFinal haccepts))
  simp only [mem_fired, List.mem_singleton, exists_eq_left, mem_step_entered hplain hends haccepts]
  constructor
  · rintro ⟨g, R, ⟨rfl, -⟩, hj⟩
    exact List.mem_singleton.mp hj
  · rintro rfl
    obtain ⟨R, hR⟩ := List.exists_mem_of_ne_nil _ hne
    exact ⟨[j], R, ⟨rfl, hR⟩, List.mem_singleton.mpr rfl⟩

theorem Same.comm (S S' : Ways) : Same (S ++ S') (S' ++ S) := by
  intro K
  rw [List.mem_append, List.mem_append, or_comm]

/-- The bytes take the same ways from `S` as from `S'`. -/
def Alike (S S' : Ways) : Prop :=
  ∀ c g R, (∃ K ∈ S, (g, R) ∈ Stack.step c K) ↔ ∃ K ∈ S', (g, R) ∈ Stack.step c K

theorem Alike.advance (h : Alike S S') (c : UInt8) : Same (S.advance c) (S'.advance c) := by
  intro R
  rw [mem_advance, mem_advance]
  constructor
  · rintro ⟨K, hK, g, hg⟩
    obtain ⟨K', hK', hg'⟩ := (h c g R).mp ⟨K, hK, hg⟩
    exact ⟨K', hK', g, hg'⟩
  · rintro ⟨K, hK, g, hg⟩
    obtain ⟨K', hK', hg'⟩ := (h c g R).mpr ⟨K, hK, hg⟩
    exact ⟨K', hK', g, hg'⟩

theorem Alike.fired (h : Alike S S') (c k) : k ∈ S.fired c ↔ k ∈ S'.fired c := by
  rw [mem_fired, mem_fired]
  constructor
  · rintro ⟨K, hK, g, R, hg, hk⟩
    obtain ⟨K', hK', hg'⟩ := (h c g R).mp ⟨K, hK, hg⟩
    exact ⟨K', hK', g, R, hg', hk⟩
  · rintro ⟨K, hK, g, R, hg, hk⟩
    obtain ⟨K', hK', hg'⟩ := (h c g R).mpr ⟨K, hK, hg⟩
    exact ⟨K', hK', g, R, hg', hk⟩

theorem alike_cat (a b : Ragel) (K : Stack) : Alike [.cat a b :: K] [a :: b :: K] := by
  intro c g R
  simp only [List.mem_singleton, exists_eq_left, Stack.step_cat]

/-- Nothing is left behind a text that ends with a byte of its own. -/
theorem run_cat_byte (hplain : a.plain = true) {d : UInt8} (hletter : a.letter d = false)
    (haccepts : a.accepts v = true) :
    Same (run [[.cat a (.byte (fun b => b == d))]] (v ++ [d])) [[]] := by
  have hbegins : Stack.Begins [.byte (fun b => b == d)] [d] := by
    intro c g R h
    rw [Stack.step_byte, beq_iff_eq] at h
    exact List.mem_singleton.mpr h.1
  have hends : a.Ends [.byte (fun b => b == d)] := by
    refine ends_of_letter hbegins ?_
    rw [List.all_cons, hletter]
    rfl
  have hstep : Stack.step d [.byte (fun b => b == d)] = [([], [])] := by
    simp [Stack.step, Ragel.expand, Ragel.empties]
  have hinside := (run_inside (v := []) hplain hends (ne_nil_of_isFinal haccepts)).1
  have hsplit : Same (run [[.cat a (.byte (fun b => b == d))]] (v ++ [d]))
      (run [[a, .byte (fun b => b == d)]] (v ++ [d])) := by
    cases v with
    | nil => exact (alike_cat a _ []).advance d
    | cons c v => exact ((alike_cat a _ []).advance c).run (v ++ [d])
  refine hsplit.trans ?_
  rw [run_text_append]
  refine (hinside.run [d]).trans ?_
  have hend := advance_end hends haccepts (c := d) (by rw [hstep]; exact List.cons_ne_nil _ _)
  rw [advance_singleton, hstep] at hend
  exact hend

/-- Within the text the ways of `Z` end, without an action. -/
def Dies (Z : Ways) (w : Text) : Prop := Z.Silent w ∧ Z.run w = []

theorem Dies.tail (h : Z.Dies (c :: w)) : Z.fired c = [] ∧ (Z.advance c).Dies w := by
  obtain ⟨hfired, hsilent⟩ := h.1.tail
  exact ⟨hfired, hsilent, h.2⟩

/-- A part without actions dies at a byte that it does not have, if what follows cannot begin. -/
theorem dies_frame {cs : Text} (hplain : a.plain = true) (hK : K.Begins cs)
    (hstep : ∀ b ∈ w ++ [c], b ∉ cs) (hletter : a.letter c = false) :
    ((run [[a]] v).frame K).Dies (w ++ [c]) := by
  obtain ⟨hsame, hsilent⟩ := run_frame (K := K) (t := w ++ [c]) ((plain_singleton hplain).run v)
    (by
      intro v' b r heq _
      exact hK.step_eq_nil (hstep b (by rw [heq]; simp)))
  refine ⟨hsilent, hsame.eq_nil.mpr ?_⟩
  rw [← run_text_append, ← List.append_assoc, run_text_append]
  have hdead : (run (run [[a]] (v ++ w)) [c]) = [] := advance_not_letter hletter
  rw [hdead]
  rfl

end Ways

theorem Ragel.accepts_star_byte {p : UInt8 → Bool} {t : Text} (h : ∀ b ∈ t, p b = true) :
    (star (.byte p)).accepts t = true := by
  induction t with
  | nil => exact accepts_nil_iff.mpr ⟨[], List.mem_singleton.mpr rfl⟩
  | cons b t ih =>
    rw [List.forall_mem_cons] at h
    exact accepts_star_cons_iff.mpr ⟨[], t, rfl, accepts_byte_iff.mpr ⟨b, rfl, h.1⟩, ih h.2⟩

/-- The text before a separator of a repetition is one without separators. -/
theorem Ragel.accepts_star_before {a b : Ragel} {t r : Text}
    (ha : ∀ c, r.head? = some c → a.letter c = false) (hb : ∀ x ∈ t, b.letter x = false)
    (h : (star (alt a b)).accepts (t ++ r) = true) : (star a).accepts t = true := by
  induction hn : t.length using Nat.strongRecOn generalizing t with
  | ind n ih =>
    cases t with
    | nil => exact accepts_nil_iff.mpr ⟨[], List.mem_singleton.mpr rfl⟩
    | cons x t =>
      rw [List.forall_mem_cons] at hb
      obtain ⟨u, v, heq, hu, hv⟩ := accepts_star_cons_iff.mp h
      -- The first item cannot be a separator, so it ends before one.
      have hitem : a.accepts (x :: u) = true := by
        rcases accepts_alt_iff.mp hu with hu | hu
        · exact hu
        · have hx := Ways.run_letter (Ways.ne_nil_of_isFinal hu) x (List.mem_cons_self ..)
          rw [hb.1] at hx
          cases hx
      have hletters := Ways.run_letter (Ways.ne_nil_of_isFinal hitem)
      rcases List.append_eq_append_iff.mp heq with ⟨t', rfl, hrest⟩ | ⟨t', rfl, rfl⟩
      · cases t' with
        | nil =>
          rw [List.append_nil] at hitem
          exact accepts_star_cons_iff.mpr ⟨t, [], (List.append_nil t).symm, hitem,
            accepts_nil_iff.mpr ⟨[], List.mem_singleton.mpr rfl⟩⟩
        | cons d t' =>
          have hmem := hletters d (by simp)
          rw [ha d (by rw [hrest]; rfl)] at hmem
          cases hmem
      · rw [List.forall_mem_append] at hb
        have hrest := ih t'.length (by simp at hn; omega) hb.2.2 hv rfl
        exact accepts_star_cons_iff.mpr ⟨u, t', rfl, hitem, hrest⟩

end HxSylar.Lib
