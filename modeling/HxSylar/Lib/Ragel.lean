import HxSylar.Lib.Text
import Mathlib.Data.List.Basic

namespace HxSylar.Lib

/-- A regular expression of Ragel. The places where actions are embedded are numbered in the order
in which Ragel meets them, so that an action is executed before those with higher numbers. -/
inductive Ragel
  | eps
  | byte (p : UInt8 → Bool)
  | act (k : Nat)
  | alt (a b : Ragel)
  | cat (a b : Ragel)
  | star (a : Ragel)

namespace Ragel

/-- `a >k`: with the first byte of `a`, or with what follows if `a` is passed without one. -/
def enter (k : Nat) (a : Ragel) : Ragel := cat (act k) a

/-- `a %k`: with the byte that follows `a`, or at the end. -/
def leave (a : Ragel) (k : Nat) : Ragel := cat a (act k)

def opt (a : Ragel) : Ragel := alt eps a

def plus (a : Ragel) : Ragel := cat a (star a)

/-- `a{n}`. -/
def rep : Nat → Ragel → Ragel
  | 0, _ => eps
  | 1, a => a
  | n + 2, a => cat a (rep (n + 1) a)

def seq : List Ragel → Ragel
  | [] => eps
  | [a] => a
  | a :: as => cat a (seq as)

/-- The actions on each way through without a byte. -/
def empties : Ragel → List (List Nat)
  | eps => [[]]
  | byte _ => []
  | act k => [[k]]
  | alt a b => a.empties ++ b.empties
  | cat a b => a.empties.flatMap (fun f => b.empties.map (f ++ ·))
  | star _ => [[]]

/-- The ways to take a byte: the actions on the way, and what is then still to come, in order. -/
def expand (c : UInt8) : Ragel → List (List Nat × List Ragel)
  | eps => []
  | byte p => if p c then [([], [])] else []
  | act _ => []
  | alt a b => a.expand c ++ b.expand c
  | cat a b => (a.expand c).map (fun t => (t.1, t.2 ++ [b])) ++
      a.empties.flatMap (fun f => (b.expand c).map (fun t => (f ++ t.1, t.2)))
  | star a => (a.expand c).map (fun t => (t.1, t.2 ++ [star a]))

end Ragel

/-- What is still to come on one of the ways that the text so far allows. -/
abbrev Stack := List Ragel

namespace Stack

def empties : Stack → List (List Nat)
  | [] => [[]]
  | a :: K => a.empties.flatMap (fun f => (empties K).map (f ++ ·))

def step (c : UInt8) : Stack → List (List Nat × Stack)
  | [] => []
  | a :: K => (a.expand c).map (fun t => (t.1, t.2 ++ K)) ++
      a.empties.flatMap (fun f => (step c K).map (fun t => (f ++ t.1, t.2)))

end Stack

/-- A state of the scanner that Ragel generates: all ways that the text so far allows. -/
abbrev Ways := List Stack

namespace Ways

/-- The state behind a byte; without a way left it is the error state. -/
def advance (S : Ways) (c : UInt8) : Ways := S.flatMap (fun K => (K.step c).map Prod.snd)

/-- The actions on any way that takes the byte. -/
def fired (S : Ways) (c : UInt8) : List Nat := S.flatMap (fun K => (K.step c).flatMap Prod.fst)

def isFinal (S : Ways) : Bool := S.any (fun K => !(Stack.empties K).isEmpty)

/-- The actions at the end of the text. -/
def leaving (S : Ways) : List Nat := S.flatMap (fun K => (Stack.empties K).flatten)

/-- The actions as they are executed: in the order of their places, each one once. -/
def executed {α : Type} [BEq α] (table : List α) (ks : List Nat) : List α :=
  ((table.zipIdx.filter (fun a => decide (a.2 ∈ ks))).map Prod.fst).eraseDups

def run (S : Ways) (t : Text) : Ways := t.foldl advance S

/-- Every way of `S`, and `K` behind it. -/
def frame (S : Ways) (K : Stack) : Ways := S.map (fun R => R ++ K)

end Ways

/-- The text is in the language of the expression. -/
def Ragel.accepts (a : Ragel) (t : Text) : Bool := (Ways.run [[a]] t).isFinal

section Steps
variable {c : UInt8} {g : List Nat} {R K K' : Stack} {a b : Ragel}

theorem Ragel.mem_expand_cat : (g, R) ∈ (Ragel.cat a b).expand c ↔
    (∃ R', (g, R') ∈ a.expand c ∧ R = R' ++ [b]) ∨
      ∃ f h, f ∈ a.empties ∧ (h, R) ∈ b.expand c ∧ g = f ++ h := by
  simp only [Ragel.expand, List.mem_append, List.mem_map, List.mem_flatMap, Prod.exists,
    Prod.mk.injEq]
  constructor
  · rintro (⟨g', R', h, rfl, rfl⟩ | ⟨f, hf, h, R', hb, rfl, rfl⟩)
    · exact .inl ⟨R', h, rfl⟩
    · exact .inr ⟨f, h, hf, hb, rfl⟩
  · rintro (⟨R', h, rfl⟩ | ⟨f, h, hf, hb, rfl⟩)
    · exact .inl ⟨g, R', h, rfl, rfl⟩
    · exact .inr ⟨f, hf, h, R, hb, rfl, rfl⟩

theorem Stack.mem_step_cons : (g, R) ∈ Stack.step c (a :: K) ↔
    (∃ R', (g, R') ∈ a.expand c ∧ R = R' ++ K) ∨
      ∃ f h, f ∈ a.empties ∧ (h, R) ∈ Stack.step c K ∧ g = f ++ h := by
  simp only [Stack.step, List.mem_append, List.mem_map, List.mem_flatMap, Prod.exists,
    Prod.mk.injEq]
  constructor
  · rintro (⟨g', R', h, rfl, rfl⟩ | ⟨f, hf, h, R', hK, rfl, rfl⟩)
    · exact .inl ⟨R', h, rfl⟩
    · exact .inr ⟨f, h, hf, hK, rfl⟩
  · rintro (⟨R', h, rfl⟩ | ⟨f, h, hf, hK, rfl⟩)
    · exact .inl ⟨g, R', h, rfl, rfl⟩
    · exact .inr ⟨f, hf, h, R, hK, rfl, rfl⟩

theorem Stack.mem_empties_cons : g ∈ Stack.empties (a :: K) ↔
    ∃ f h, f ∈ a.empties ∧ h ∈ Stack.empties K ∧ g = f ++ h := by
  simp only [Stack.empties, List.mem_flatMap, List.mem_map]
  constructor
  · rintro ⟨f, hf, h, hh, rfl⟩
    exact ⟨f, h, hf, hh, rfl⟩
  · rintro ⟨f, h, hf, hh, rfl⟩
    exact ⟨f, hf, h, hh, rfl⟩

theorem Stack.mem_empties_append : g ∈ Stack.empties (K ++ K') ↔
    ∃ f h, f ∈ Stack.empties K ∧ h ∈ Stack.empties K' ∧ g = f ++ h := by
  induction K generalizing g with
  | nil => simp [Stack.empties]
  | cons a K ih =>
    simp only [List.cons_append, Stack.mem_empties_cons, ih]
    constructor
    · rintro ⟨f, _, hf, ⟨f', h, hf', hh, rfl⟩, rfl⟩
      exact ⟨f ++ f', h, ⟨f, f', hf, hf', rfl⟩, hh, (List.append_assoc ..).symm⟩
    · rintro ⟨_, h, ⟨f, f', hf, hf', rfl⟩, hh, rfl⟩
      exact ⟨f, f' ++ h, hf, ⟨f', h, hf', hh, rfl⟩, List.append_assoc ..⟩

/-- A byte is taken inside the first part, or the first part is passed. -/
theorem Stack.mem_step_append : (g, R) ∈ Stack.step c (K ++ K') ↔
    (∃ R', (g, R') ∈ Stack.step c K ∧ R = R' ++ K') ∨
      ∃ f h, f ∈ Stack.empties K ∧ (h, R) ∈ Stack.step c K' ∧ g = f ++ h := by
  induction K generalizing g R with
  | nil => simp [Stack.step, Stack.empties]
  | cons a K ih =>
    simp only [List.cons_append, Stack.mem_step_cons, Stack.mem_empties_cons, ih]
    constructor
    · rintro (⟨R', h, rfl⟩ | ⟨f, _, hf, ⟨R', h, rfl⟩ | ⟨f', h, hf', hh, rfl⟩, rfl⟩)
      · exact .inl ⟨R' ++ K, .inl ⟨R', h, rfl⟩, (List.append_assoc ..).symm⟩
      · exact .inl ⟨R', .inr ⟨f, _, hf, h, rfl⟩, rfl⟩
      · exact .inr ⟨f ++ f', h, ⟨f, f', hf, hf', rfl⟩, hh, (List.append_assoc ..).symm⟩
    · rintro (⟨_, ⟨R', h, rfl⟩ | ⟨f, h, hf, hh, rfl⟩, rfl⟩ | ⟨_, h, ⟨f, f', hf, hf', rfl⟩, hh, rfl⟩)
      · exact .inl ⟨R', h, List.append_assoc ..⟩
      · exact .inr ⟨f, h, hf, .inl ⟨_, hh, rfl⟩, rfl⟩
      · exact .inr ⟨f, f' ++ h, hf, .inr ⟨f', h, hf', hh, rfl⟩, List.append_assoc ..⟩

theorem Stack.mem_step_singleton : (g, R) ∈ Stack.step c [a] ↔ (g, R) ∈ a.expand c := by
  simp [Stack.step]

end Steps

namespace Ways
variable {S S' : Ways} {c : UInt8} {k : Nat} {R K : Stack}

theorem mem_advance : R ∈ S.advance c ↔ ∃ K ∈ S, ∃ g, (g, R) ∈ Stack.step c K := by
  simp only [advance, List.mem_flatMap, List.mem_map, Prod.exists, exists_eq_right]

theorem mem_fired : k ∈ S.fired c ↔ ∃ K ∈ S, ∃ g R, (g, R) ∈ Stack.step c K ∧ k ∈ g := by
  simp only [fired, List.mem_flatMap, Prod.exists]

theorem mem_leaving : k ∈ S.leaving ↔ ∃ K ∈ S, ∃ g ∈ Stack.empties K, k ∈ g := by
  simp only [leaving, List.mem_flatMap, List.mem_flatten]

theorem isFinal_iff : S.isFinal = true ↔ ∃ K ∈ S, ∃ g, g ∈ Stack.empties K := by
  simp only [isFinal, List.any_eq_true, Bool.not_eq_true', List.isEmpty_eq_false_iff_exists_mem]

/-- The same ways, in any order. -/
def Same (S S' : Ways) : Prop := ∀ K, K ∈ S ↔ K ∈ S'

namespace Same

theorem refl (S : Ways) : Same S S := fun _ => Iff.rfl

theorem symm (h : Same S S') : Same S' S := fun K => (h K).symm

theorem trans {S'' : Ways} (h : Same S S') (h' : Same S' S'') : Same S S'' :=
  fun K => (h K).trans (h' K)

theorem append {T T' : Ways} (h : Same S S') (h' : Same T T') : Same (S ++ T) (S' ++ T') := by
  intro K
  rw [List.mem_append, List.mem_append, h K, h' K]

theorem advance (h : Same S S') (c : UInt8) : Same (S.advance c) (S'.advance c) := by
  intro R
  simp only [mem_advance, h _]

theorem run (h : Same S S') (t : Text) : Same (S.run t) (S'.run t) := by
  induction t generalizing S S' with
  | nil => exact h
  | cons c t ih => exact ih (h.advance c)

theorem fired (h : Same S S') (c : UInt8) : ∀ k, k ∈ S.fired c ↔ k ∈ S'.fired c := by
  intro k
  simp only [mem_fired, h _]

theorem leaving (h : Same S S') : ∀ k, k ∈ S.leaving ↔ k ∈ S'.leaving := by
  intro k
  simp only [mem_leaving, h _]

theorem isFinal (h : Same S S') : S.isFinal = S'.isFinal := by
  rw [Bool.eq_iff_iff, isFinal_iff, isFinal_iff]
  simp only [h _]

theorem eq_nil (h : Same S S') : S = [] ↔ S' = [] := by
  rw [List.eq_nil_iff_forall_not_mem, List.eq_nil_iff_forall_not_mem]
  simp only [h _]

end Same

theorem advance_append (c : UInt8) : (S ++ S').advance c = S.advance c ++ S'.advance c :=
  List.flatMap_append

theorem fired_append (c : UInt8) : (S ++ S').fired c = S.fired c ++ S'.fired c :=
  List.flatMap_append

theorem run_nil (t : Text) : run [] t = [] := by
  induction t with
  | nil => rfl
  | cons c t ih => exact ih

theorem run_append (t : Text) : (S ++ S').run t = S.run t ++ S'.run t := by
  induction t generalizing S S' with
  | nil => rfl
  | cons c t ih =>
    rw [run, List.foldl_cons, advance_append]
    exact ih

theorem run_text_append (t u : Text) : S.run (t ++ u) = (S.run t).run u := List.foldl_append

theorem run_cons (t : Text) : S.run (c :: t) = (S.advance c).run t := rfl

theorem executed_congr {α : Type} [BEq α] {table : List α} {ks ks' : List Nat}
    (h : ∀ k, k ∈ ks ↔ k ∈ ks') : executed table ks = executed table ks' := by
  simp only [executed, h _]

/-- No action is executed within the text. -/
def Silent (S : Ways) (t : Text) : Prop := ∀ v c r, t = v ++ c :: r → (S.run v).fired c = []

theorem Silent.append {t : Text} (h : S.Silent t) (h' : S'.Silent t) : (S ++ S').Silent t := by
  intro v c r heq
  rw [run_append, fired_append, h v c r heq, h' v c r heq]
  rfl

theorem Silent.congr {t : Text} (h : Same S S') (hs : S.Silent t) : S'.Silent t := by
  intro v c r heq
  have hfired := (h.run v).fired c
  rw [hs v c r heq] at hfired
  exact List.eq_nil_iff_forall_not_mem.mpr (fun k hk => List.not_mem_nil ((hfired k).mpr hk))

theorem Silent.tail {t : Text} (h : S.Silent (c :: t)) :
    S.fired c = [] ∧ (S.advance c).Silent t := by
  refine ⟨h [] c t rfl, ?_⟩
  intro v c' r heq
  exact h (c :: v) c' r (by rw [heq]; rfl)

end Ways

/-- Without actions. -/
def Ragel.plain : Ragel → Bool
  | .eps | .byte _ => true
  | .act _ => false
  | .alt a b | .cat a b => a.plain && b.plain
  | .star a => a.plain

namespace Ragel

theorem plain_empties {a : Ragel} (h : a.plain = true) {f : List Nat} (hf : f ∈ a.empties) :
    f = [] := by
  induction a generalizing f with
  | eps => exact List.mem_singleton.mp hf
  | byte p => cases hf
  | act k => cases h
  | alt a b iha ihb =>
    rw [plain, Bool.and_eq_true] at h
    rcases List.mem_append.mp hf with hf | hf
    · exact iha h.1 hf
    · exact ihb h.2 hf
  | cat a b iha ihb =>
    rw [plain, Bool.and_eq_true] at h
    simp only [empties, List.mem_flatMap, List.mem_map] at hf
    obtain ⟨f, hf, g, hg, rfl⟩ := hf
    rw [iha h.1 hf, ihb h.2 hg]
    rfl
  | star a _ => exact List.mem_singleton.mp hf

theorem plain_expand {a : Ragel} (h : a.plain = true) {c : UInt8} {g : List Nat} {R : Stack}
    (hg : (g, R) ∈ a.expand c) : g = [] ∧ ∀ r ∈ R, r.plain = true := by
  induction a generalizing g R with
  | eps => cases hg
  | byte p =>
    simp only [expand] at hg
    split at hg
    · cases List.mem_singleton.mp hg
      exact ⟨rfl, nofun⟩
    · cases hg
  | act k => cases h
  | alt a b iha ihb =>
    rw [plain, Bool.and_eq_true] at h
    rcases List.mem_append.mp hg with hg | hg
    · exact iha h.1 hg
    · exact ihb h.2 hg
  | cat a b iha ihb =>
    rw [plain, Bool.and_eq_true] at h
    rcases mem_expand_cat.mp hg with ⟨R', hR', rfl⟩ | ⟨f, g', hf, hb, rfl⟩
    · obtain ⟨rfl, hplain⟩ := iha h.1 hR'
      refine ⟨rfl, List.forall_mem_append.mpr ⟨hplain, ?_⟩⟩
      rw [List.forall_mem_singleton]
      exact h.2
    · obtain ⟨rfl, hplain⟩ := ihb h.2 hb
      rw [plain_empties h.1 hf]
      exact ⟨rfl, hplain⟩
  | star a ih =>
    simp only [expand, List.mem_map, Prod.exists, Prod.mk.injEq] at hg
    obtain ⟨g', R', hR', rfl, rfl⟩ := hg
    obtain ⟨rfl, hplain⟩ := ih h hR'
    refine ⟨rfl, List.forall_mem_append.mpr ⟨hplain, ?_⟩⟩
    rw [List.forall_mem_singleton]
    exact h

end Ragel

namespace Ways
variable {S : Ways} {c : UInt8} {k : Nat} {R K : Stack}

/-- No way has an action. -/
def Plain (S : Ways) : Prop := ∀ K ∈ S, ∀ a ∈ K, a.plain = true

theorem plain_singleton {a : Ragel} (h : a.plain = true) : Plain [[a]] := by
  intro K hK a' ha'
  rw [List.mem_singleton.mp hK, List.mem_singleton] at ha'
  rw [ha']
  exact h

theorem plain_stack_empties (h : ∀ a ∈ K, a.plain = true) {f : List Nat}
    (hf : f ∈ Stack.empties K) : f = [] := by
  induction K generalizing f with
  | nil => exact List.mem_singleton.mp hf
  | cons a K ih =>
    rw [List.forall_mem_cons] at h
    obtain ⟨f, g, ha, hg, rfl⟩ := Stack.mem_empties_cons.mp hf
    rw [Ragel.plain_empties h.1 ha, ih h.2 hg]
    rfl

theorem plain_stack_step (h : ∀ a ∈ K, a.plain = true) {g : List Nat}
    (hg : (g, R) ∈ Stack.step c K) : g = [] ∧ ∀ r ∈ R, r.plain = true := by
  induction K generalizing g R with
  | nil => cases hg
  | cons a K ih =>
    rw [List.forall_mem_cons] at h
    rcases Stack.mem_step_cons.mp hg with ⟨R', hR', rfl⟩ | ⟨f, g', hf, hK, rfl⟩
    · obtain ⟨rfl, hplain⟩ := Ragel.plain_expand h.1 hR'
      exact ⟨rfl, List.forall_mem_append.mpr ⟨hplain, h.2⟩⟩
    · obtain ⟨rfl, hplain⟩ := ih h.2 hK
      rw [Ragel.plain_empties h.1 hf]
      exact ⟨rfl, hplain⟩

theorem Plain.advance (h : S.Plain) (c : UInt8) : (S.advance c).Plain := by
  intro R hR
  obtain ⟨K, hK, g, hg⟩ := mem_advance.mp hR
  exact (plain_stack_step (h K hK) hg).2

theorem Plain.run (h : S.Plain) (t : Text) : (S.run t).Plain := by
  induction t generalizing S with
  | nil => exact h
  | cons c t ih => exact ih (h.advance c)

theorem advance_singleton (K : Stack) (c : UInt8) :
    advance [K] c = (Stack.step c K).map Prod.snd := List.flatMap_singleton ..

theorem fired_singleton (K : Stack) (c : UInt8) :
    fired [K] c = (Stack.step c K).flatMap Prod.fst := List.flatMap_singleton ..

theorem mem_frame : R ∈ S.frame K ↔ ∃ R' ∈ S, R = R' ++ K := by
  simp only [frame, List.mem_map, eq_comm]

/-- A byte is taken inside, or by what follows once the inside may end. -/
theorem advance_frame (S : Ways) (K : Stack) (c : UInt8) : Same ((S.frame K).advance c)
    ((S.advance c).frame K ++ if S.isFinal then advance [K] c else []) := by
  intro R
  simp only [mem_advance, mem_frame, List.mem_append]
  constructor
  · rintro ⟨_, ⟨R', hR', rfl⟩, g, hg⟩
    rcases Stack.mem_step_append.mp hg with ⟨R'', hstep, rfl⟩ | ⟨f, g', hf, hstep, rfl⟩
    · exact .inl ⟨R'', ⟨R', hR', g, hstep⟩, rfl⟩
    · right
      rw [if_pos (isFinal_iff.mpr ⟨R', hR', f, hf⟩), mem_advance]
      exact ⟨K, List.mem_singleton.mpr rfl, g', hstep⟩
  · rintro (⟨R', ⟨K', hK', g, hg⟩, rfl⟩ | hK)
    · exact ⟨K' ++ K, ⟨K', hK', rfl⟩, g, Stack.mem_step_append.mpr (.inl ⟨R', hg, rfl⟩)⟩
    · split at hK
      · rename_i hfinal
        obtain ⟨K', hK', f, hf⟩ := isFinal_iff.mp hfinal
        obtain ⟨_, hmem, g, hg⟩ := mem_advance.mp hK
        rw [List.mem_singleton.mp hmem] at hg
        exact ⟨K' ++ K, ⟨K', hK', rfl⟩, f ++ g,
          Stack.mem_step_append.mpr (.inr ⟨f, g, hf, hg, rfl⟩)⟩
      · cases hK

theorem fired_frame (h : S.Plain) (K : Stack) (c k) : k ∈ (S.frame K).fired c ↔
    S.isFinal = true ∧ k ∈ fired [K] c := by
  simp only [mem_fired, mem_frame, isFinal_iff]
  constructor
  · rintro ⟨_, ⟨R', hR', rfl⟩, g, R, hg, hk⟩
    rcases Stack.mem_step_append.mp hg with ⟨R'', hstep, rfl⟩ | ⟨f, g', hf, hstep, rfl⟩
    · rw [(plain_stack_step (h R' hR') hstep).1] at hk
      cases hk
    · rw [plain_stack_empties (h R' hR') hf] at hk
      exact ⟨⟨R', hR', f, hf⟩, K, List.mem_singleton.mpr rfl, g', R, hstep, hk⟩
  · rintro ⟨⟨R', hR', f, hf⟩, _, hmem, g, R, hg, hk⟩
    rw [List.mem_singleton.mp hmem] at hg
    exact ⟨R' ++ K, ⟨R', hR', rfl⟩, f ++ g, R, Stack.mem_step_append.mpr (.inr ⟨f, g, hf, hg, rfl⟩),
      List.mem_append_right f hk⟩

theorem leaving_frame (h : S.Plain) (K : Stack) (k : Nat) : k ∈ (S.frame K).leaving ↔
    S.isFinal = true ∧ k ∈ leaving [K] := by
  simp only [mem_leaving, mem_frame, isFinal_iff]
  constructor
  · rintro ⟨_, ⟨R', hR', rfl⟩, g, hg, hk⟩
    obtain ⟨f, g', hf, hg', rfl⟩ := Stack.mem_empties_append.mp hg
    rw [plain_stack_empties (h R' hR') hf] at hk
    exact ⟨⟨R', hR', f, hf⟩, K, List.mem_singleton.mpr rfl, g', hg', hk⟩
  · rintro ⟨⟨R', hR', f, hf⟩, _, hmem, g, hg, hk⟩
    rw [List.mem_singleton.mp hmem] at hg
    exact ⟨R' ++ K, ⟨R', hR', rfl⟩, f ++ g, Stack.mem_empties_append.mpr ⟨f, g, hf, hg, rfl⟩,
      List.mem_append_right f hk⟩

theorem isFinal_frame (S : Ways) (K : Stack) :
    (S.frame K).isFinal = (S.isFinal && isFinal [K]) := by
  rw [Bool.eq_iff_iff, Bool.and_eq_true]
  simp only [isFinal_iff, mem_frame]
  constructor
  · rintro ⟨_, ⟨R', hR', rfl⟩, g, hg⟩
    obtain ⟨f, g', hf, hg', rfl⟩ := Stack.mem_empties_append.mp hg
    exact ⟨⟨R', hR', f, hf⟩, K, List.mem_singleton.mpr rfl, g', hg'⟩
  · rintro ⟨⟨R', hR', f, hf⟩, _, hmem, g, hg⟩
    rw [List.mem_singleton.mp hmem] at hg
    exact ⟨R' ++ K, ⟨R', hR', rfl⟩, f ++ g, Stack.mem_empties_append.mpr ⟨f, g, hf, hg, rfl⟩⟩

/-- Inside a part without actions nothing is executed as long as what follows cannot begin. -/
theorem run_frame (h : S.Plain) {t : Text}
    (hstay : ∀ v c r, t = v ++ c :: r → (S.run v).isFinal = true → Stack.step c K = []) :
    Same ((S.frame K).run t) ((S.run t).frame K) ∧ (S.frame K).Silent t := by
  induction t generalizing S with
  | nil => exact ⟨.refl _, fun v c r heq => by simp at heq⟩
  | cons c t ih =>
    have hstep : S.isFinal = true → Stack.step c K = [] := hstay [] c t rfl
    have hsame : Same ((S.frame K).advance c) ((S.advance c).frame K) := by
      refine (advance_frame S K c).trans ?_
      split
      · rename_i hfinal
        rw [advance_singleton, hstep hfinal, List.map_nil, List.append_nil]
        exact .refl _
      · rw [List.append_nil]
        exact .refl _
    obtain ⟨hrun, hsilent⟩ := ih (h.advance c)
      (fun v c' r heq => hstay (c :: v) c' r (by rw [heq]; rfl))
    refine ⟨(hsame.run t).trans hrun, ?_⟩
    intro v c' r heq
    cases v with
    | nil =>
      cases heq
      refine List.eq_nil_iff_forall_not_mem.mpr (fun k hk => ?_)
      obtain ⟨hfinal, hk⟩ := (fired_frame h K c k).mp hk
      rw [fired_singleton, hstep hfinal] at hk
      cases hk
    | cons b v =>
      cases heq
      exact hsilent.congr hsame.symm v c' r rfl

end Ways

/-- The bytes that occur in the expression. -/
def Ragel.letter (c : UInt8) : Ragel → Bool
  | .eps | .act _ => false
  | .byte p => p c
  | .alt a b | .cat a b => a.letter c || b.letter c
  | .star a => a.letter c

namespace Ragel

theorem expand_letter {a : Ragel} {c : UInt8} {g : List Nat} {R : Stack}
    (h : (g, R) ∈ a.expand c) :
    a.letter c = true ∧ ∀ r ∈ R, ∀ c', r.letter c' = true → a.letter c' = true := by
  induction a generalizing g R with
  | eps => cases h
  | act k => cases h
  | byte p =>
    simp only [expand] at h
    split at h
    · rename_i hp
      cases List.mem_singleton.mp h
      exact ⟨hp, nofun⟩
    · cases h
  | alt a b iha ihb =>
    simp only [letter, Bool.or_eq_true]
    rcases List.mem_append.mp h with h | h
    · obtain ⟨hc, hR⟩ := iha h
      exact ⟨.inl hc, fun r hr c' hc' => .inl (hR r hr c' hc')⟩
    · obtain ⟨hc, hR⟩ := ihb h
      exact ⟨.inr hc, fun r hr c' hc' => .inr (hR r hr c' hc')⟩
  | cat a b iha ihb =>
    simp only [letter, Bool.or_eq_true]
    rcases mem_expand_cat.mp h with ⟨R', hR', rfl⟩ | ⟨f, g', hf, hb, rfl⟩
    · obtain ⟨hc, hR⟩ := iha hR'
      refine ⟨.inl hc, List.forall_mem_append.mpr ⟨fun r hr c' hc' => .inl (hR r hr c' hc'), ?_⟩⟩
      rw [List.forall_mem_singleton]
      exact fun c' hc' => .inr hc'
    · obtain ⟨hc, hR⟩ := ihb hb
      exact ⟨.inr hc, fun r hr c' hc' => .inr (hR r hr c' hc')⟩
  | star a ih =>
    simp only [expand, List.mem_map, Prod.exists, Prod.mk.injEq] at h
    obtain ⟨g', R', hR', rfl, rfl⟩ := h
    obtain ⟨hc, hR⟩ := ih hR'
    refine ⟨hc, List.forall_mem_append.mpr ⟨hR, ?_⟩⟩
    rw [List.forall_mem_singleton]
    exact fun c' hc' => hc'

end Ragel

namespace Ways
variable {S : Ways} {c : UInt8} {K K' : Stack} {a b : Ragel} {t : Text}

theorem step_letter {L : UInt8 → Prop} (h : ∀ a ∈ K, ∀ c, a.letter c = true → L c) {g : List Nat}
    {R : Stack} (hg : (g, R) ∈ Stack.step c K) :
    L c ∧ ∀ r ∈ R, ∀ c, r.letter c = true → L c := by
  induction K generalizing g R with
  | nil => cases hg
  | cons a K ih =>
    rw [List.forall_mem_cons] at h
    rcases Stack.mem_step_cons.mp hg with ⟨R', hR', rfl⟩ | ⟨f, g', -, hK, rfl⟩
    · obtain ⟨hc, hR⟩ := Ragel.expand_letter hR'
      exact ⟨h.1 c hc, List.forall_mem_append.mpr ⟨fun r hr c' hc' => h.1 c' (hR r hr c' hc'), h.2⟩⟩
    · exact ih h.2 hK

/-- A text that an expression can begin with has only the bytes of the expression. -/
theorem run_letters {L : UInt8 → Prop} (h : ∀ K ∈ S, ∀ a ∈ K, ∀ c, a.letter c = true → L c)
    (hrun : S.run t ≠ []) : ∀ c ∈ t, L c := by
  induction t generalizing S with
  | nil => exact nofun
  | cons c t ih =>
    have hadvance : S.advance c ≠ [] := by
      intro hnil
      rw [run_cons, hnil, run_nil] at hrun
      exact hrun rfl
    rw [List.forall_mem_cons]
    refine ⟨?_, ih ?_ hrun⟩
    · obtain ⟨R, hR⟩ := List.exists_mem_of_ne_nil _ hadvance
      obtain ⟨K, hK, g, hg⟩ := mem_advance.mp hR
      exact (step_letter (h K hK) hg).1
    · intro R hR
      obtain ⟨K, hK, g, hg⟩ := mem_advance.mp hR
      exact (step_letter (h K hK) hg).2

theorem run_letter (hrun : run [[a]] t ≠ []) : ∀ c ∈ t, a.letter c = true := by
  refine run_letters ?_ hrun
  intro K hK a' ha'
  rw [List.mem_singleton.mp hK, List.mem_singleton] at ha'
  rw [ha']
  exact fun c hc => hc

theorem ne_nil_of_isFinal (h : S.isFinal = true) : S ≠ [] := by
  rintro rfl
  cases h

theorem run_isFinal_iff : (S.run t).isFinal = true ↔ ∃ K ∈ S, (run [K] t).isFinal = true := by
  induction t generalizing S with
  | nil =>
    simp only [run, List.foldl_nil, isFinal_iff, List.mem_singleton, exists_eq_left]
  | cons c t ih =>
    simp only [run_cons]
    rw [ih]
    constructor
    · rintro ⟨R, hR, hfinal⟩
      obtain ⟨K, hK, g, hg⟩ := mem_advance.mp hR
      refine ⟨K, hK, ih.mpr ⟨R, ?_, hfinal⟩⟩
      exact mem_advance.mpr ⟨K, List.mem_singleton.mpr rfl, g, hg⟩
    · rintro ⟨K, hK, hfinal⟩
      obtain ⟨R, hR, hfinal⟩ := ih.mp hfinal
      obtain ⟨K', hK', g, hg⟩ := mem_advance.mp hR
      rw [List.mem_singleton.mp hK'] at hg
      exact ⟨R, mem_advance.mpr ⟨K, hK, g, hg⟩, hfinal⟩

theorem run_cons_isFinal_iff : (run [K] (c :: t)).isFinal = true ↔
    ∃ g R, (g, R) ∈ Stack.step c K ∧ (run [R] t).isFinal = true := by
  rw [run_cons, run_isFinal_iff]
  simp only [mem_advance, List.mem_singleton, exists_eq_left]
  constructor
  · rintro ⟨R, ⟨g, hg⟩, hfinal⟩
    exact ⟨g, R, hg, hfinal⟩
  · rintro ⟨g, R, hg, hfinal⟩
    exact ⟨R, ⟨g, hg⟩, hfinal⟩

/-- A text of two parts is one of the first and one of the second. -/
theorem isFinal_append_iff : (run [K ++ K'] t).isFinal = true ↔
    ∃ u v, t = u ++ v ∧ (run [K] u).isFinal = true ∧ (run [K'] v).isFinal = true := by
  induction t generalizing K with
  | nil =>
    simp only [List.nil_eq, List.append_eq_nil_iff]
    constructor
    · intro hfinal
      obtain ⟨_, hmem, g, hg⟩ := isFinal_iff.mp hfinal
      rw [List.mem_singleton.mp hmem] at hg
      obtain ⟨f, h, hf, hh, -⟩ := Stack.mem_empties_append.mp hg
      exact ⟨[], [], ⟨rfl, rfl⟩, isFinal_iff.mpr ⟨K, List.mem_singleton.mpr rfl, f, hf⟩,
        isFinal_iff.mpr ⟨K', List.mem_singleton.mpr rfl, h, hh⟩⟩
    · rintro ⟨_, _, ⟨rfl, rfl⟩, hK, hK'⟩
      obtain ⟨_, hmem, f, hf⟩ := isFinal_iff.mp hK
      obtain ⟨_, hmem', h, hh⟩ := isFinal_iff.mp hK'
      rw [List.mem_singleton.mp hmem] at hf
      rw [List.mem_singleton.mp hmem'] at hh
      exact isFinal_iff.mpr ⟨K ++ K', List.mem_singleton.mpr rfl, f ++ h,
        Stack.mem_empties_append.mpr ⟨f, h, hf, hh, rfl⟩⟩
  | cons c t ih =>
    rw [run_cons_isFinal_iff]
    constructor
    · rintro ⟨g, R, hg, hfinal⟩
      rcases Stack.mem_step_append.mp hg with ⟨R', hR', rfl⟩ | ⟨f, h, hf, hh, rfl⟩
      · obtain ⟨u, v, rfl, hu, hv⟩ := ih.mp hfinal
        exact ⟨c :: u, v, rfl, run_cons_isFinal_iff.mpr ⟨g, R', hR', hu⟩, hv⟩
      · exact ⟨[], c :: t, rfl, isFinal_iff.mpr ⟨K, List.mem_singleton.mpr rfl, f, hf⟩,
          run_cons_isFinal_iff.mpr ⟨h, R, hh, hfinal⟩⟩
    · rintro ⟨u, v, heq, hu, hv⟩
      cases u with
      | nil =>
        rw [List.nil_append] at heq
        rw [← heq] at hv
        obtain ⟨_, hmem, f, hf⟩ := isFinal_iff.mp hu
        rw [List.mem_singleton.mp hmem] at hf
        obtain ⟨h, R, hh, hfinal⟩ := run_cons_isFinal_iff.mp hv
        exact ⟨f ++ h, R, Stack.mem_step_append.mpr (.inr ⟨f, h, hf, hh, rfl⟩), hfinal⟩
      | cons c' u =>
        cases heq
        obtain ⟨g, R, hg, hfinal⟩ := run_cons_isFinal_iff.mp hu
        exact ⟨g, R ++ K', Stack.mem_step_append.mpr (.inl ⟨R, hg, rfl⟩),
          ih.mpr ⟨u, v, rfl, hfinal, hv⟩⟩

end Ways

namespace Ragel
variable {a b : Ragel} {t : Text} {c : UInt8}

theorem accepts_cons_iff : a.accepts (c :: t) = true ↔
    ∃ g R, (g, R) ∈ a.expand c ∧ (Ways.run [R] t).isFinal = true := by
  rw [accepts, Ways.run_cons_isFinal_iff]
  simp only [Stack.mem_step_singleton]

theorem accepts_nil_iff : a.accepts [] = true ↔ ∃ f, f ∈ a.empties := by
  rw [accepts, Ways.run, List.foldl_nil, Ways.isFinal_iff]
  simp [Stack.empties]

theorem accepts_alt_iff : (alt a b).accepts t = true ↔ a.accepts t = true ∨ b.accepts t = true := by
  cases t with
  | nil =>
    simp only [accepts_nil_iff, empties, List.mem_append]
    exact exists_or
  | cons c t =>
    simp only [accepts_cons_iff, expand, List.mem_append]
    constructor
    · rintro ⟨g, R, hg | hg, hfinal⟩
      · exact .inl ⟨g, R, hg, hfinal⟩
      · exact .inr ⟨g, R, hg, hfinal⟩
    · rintro (⟨g, R, hg, hfinal⟩ | ⟨g, R, hg, hfinal⟩)
      · exact ⟨g, R, .inl hg, hfinal⟩
      · exact ⟨g, R, .inr hg, hfinal⟩

theorem accepts_cat_iff : (cat a b).accepts t = true ↔
    ∃ u v, t = u ++ v ∧ a.accepts u = true ∧ b.accepts v = true := by
  have hstack : (cat a b).accepts t = true ↔ (Ways.run [[a] ++ [b]] t).isFinal = true := by
    cases t with
    | nil =>
      rw [accepts_nil_iff, Ways.run, List.foldl_nil, Ways.isFinal_iff]
      simp [Stack.empties, empties]
    | cons c t =>
      rw [accepts_cons_iff, Ways.run_cons_isFinal_iff]
      simp only [mem_expand_cat, List.singleton_append, Stack.mem_step_cons (K := [b]),
        Stack.mem_step_singleton]
  rw [hstack, Ways.isFinal_append_iff]
  rfl

theorem accepts_star_cons_iff : (star a).accepts (c :: t) = true ↔
    ∃ u v, t = u ++ v ∧ a.accepts (c :: u) = true ∧ (star a).accepts v = true := by
  rw [accepts_cons_iff]
  simp only [expand, List.mem_map, Prod.exists, Prod.mk.injEq]
  constructor
  · rintro ⟨g, _, ⟨g', R, hR, rfl, rfl⟩, hfinal⟩
    obtain ⟨u, v, rfl, hu, hv⟩ := Ways.isFinal_append_iff.mp hfinal
    exact ⟨u, v, rfl, accepts_cons_iff.mpr ⟨g', R, hR, hu⟩, hv⟩
  · rintro ⟨u, v, rfl, hu, hv⟩
    obtain ⟨g, R, hR, hfinal⟩ := accepts_cons_iff.mp hu
    exact ⟨g, _, ⟨g, R, hR, rfl, rfl⟩, Ways.isFinal_append_iff.mpr ⟨u, v, rfl, hfinal, hv⟩⟩

theorem accepts_byte_iff {p : UInt8 → Bool} :
    (byte p).accepts t = true ↔ ∃ c, t = [c] ∧ p c = true := by
  cases t with
  | nil => simp [accepts_nil_iff, empties]
  | cons c t =>
    rw [accepts_cons_iff]
    constructor
    · rintro ⟨g, R, hg, hfinal⟩
      simp only [expand] at hg
      split at hg
      · rename_i hp
        cases List.mem_singleton.mp hg
        cases t with
        | nil => exact ⟨c, rfl, hp⟩
        | cons c' t =>
          obtain ⟨_, _, hstep, -⟩ := Ways.run_cons_isFinal_iff.mp hfinal
          cases hstep
      · cases hg
    · rintro ⟨_, heq, hp⟩
      cases heq
      exact ⟨[], [], by simp [expand, hp], rfl⟩

end Ragel

namespace Stack
variable {c : UInt8} {g : List Nat} {R K : Stack} {a b : Ragel}

@[simp]
theorem step_cat : (g, R) ∈ Stack.step c (.cat a b :: K) ↔ (g, R) ∈ Stack.step c (a :: b :: K) := by
  simp only [mem_step_cons (a := a), mem_step_cons (a := b), mem_step_cons (a := .cat a b),
    Ragel.mem_expand_cat, Ragel.empties, List.mem_flatMap, List.mem_map]
  constructor
  · rintro (⟨R', ⟨R'', h, rfl⟩ | ⟨f, h, hf, hb, rfl⟩, rfl⟩ | ⟨_, h, ⟨f, hf, f', hf', rfl⟩, hK, rfl⟩)
    · exact .inl ⟨R'', h, by simp⟩
    · exact .inr ⟨f, h, hf, .inl ⟨R', hb, rfl⟩, rfl⟩
    · exact .inr ⟨f, f' ++ h, hf, .inr ⟨f', h, hf', hK, rfl⟩, List.append_assoc ..⟩
  · rintro (⟨R', h, rfl⟩ | ⟨f, _, hf, ⟨R', hb, rfl⟩ | ⟨f', h, hf', hK, rfl⟩, rfl⟩)
    · exact .inl ⟨R' ++ [b], .inl ⟨R', h, rfl⟩, by simp⟩
    · exact .inl ⟨R', .inr ⟨f, _, hf, hb, rfl⟩, rfl⟩
    · exact .inr ⟨f ++ f', h, ⟨f, hf, f', hf', rfl⟩, hK, (List.append_assoc ..).symm⟩

@[simp]
theorem step_alt : (g, R) ∈ Stack.step c (.alt a b :: K) ↔
    (g, R) ∈ Stack.step c (a :: K) ∨ (g, R) ∈ Stack.step c (b :: K) := by
  simp only [mem_step_cons, Ragel.expand, Ragel.empties, List.mem_append]
  constructor
  · rintro (⟨R', h | h, rfl⟩ | ⟨f, h, hf | hf, hK, rfl⟩)
    · exact .inl (.inl ⟨R', h, rfl⟩)
    · exact .inr (.inl ⟨R', h, rfl⟩)
    · exact .inl (.inr ⟨f, h, hf, hK, rfl⟩)
    · exact .inr (.inr ⟨f, h, hf, hK, rfl⟩)
  · rintro ((⟨R', h, rfl⟩ | ⟨f, h, hf, hK, rfl⟩) | (⟨R', h, rfl⟩ | ⟨f, h, hf, hK, rfl⟩))
    · exact .inl ⟨R', .inl h, rfl⟩
    · exact .inr ⟨f, h, .inl hf, hK, rfl⟩
    · exact .inl ⟨R', .inr h, rfl⟩
    · exact .inr ⟨f, h, .inr hf, hK, rfl⟩

@[simp]
theorem step_eps : (g, R) ∈ Stack.step c (.eps :: K) ↔ (g, R) ∈ Stack.step c K := by
  simp [Stack.step, Ragel.expand, Ragel.empties]

@[simp]
theorem step_act {k : Nat} : (g, R) ∈ Stack.step c (.act k :: K) ↔
    ∃ h, (h, R) ∈ Stack.step c K ∧ g = k :: h := by
  simp only [mem_step_cons, Ragel.expand, Ragel.empties, List.not_mem_nil, false_and, exists_false,
    false_or, List.mem_singleton]
  constructor
  · rintro ⟨_, h, rfl, hK, rfl⟩
    exact ⟨h, hK, rfl⟩
  · rintro ⟨h, hK, rfl⟩
    exact ⟨[k], h, rfl, hK, rfl⟩

@[simp]
theorem step_byte {p : UInt8 → Bool} : (g, R) ∈ Stack.step c (.byte p :: K) ↔
    p c = true ∧ g = [] ∧ R = K := by
  simp only [Stack.step, Ragel.expand, Ragel.empties, List.flatMap_nil, List.append_nil]
  split
  · rename_i hp
    simp [hp]
  · rename_i hp
    simp [hp]

@[simp]
theorem step_star : (g, R) ∈ Stack.step c (.star a :: K) ↔
    (∃ R', (g, R') ∈ Stack.step c [a] ∧ R = R' ++ .star a :: K) ∨ (g, R) ∈ Stack.step c K := by
  simp only [mem_step_cons (K := K), mem_step_singleton, Ragel.expand, Ragel.empties, List.mem_map,
    Prod.exists, Prod.mk.injEq, List.mem_singleton]
  constructor
  · rintro (⟨_, ⟨g', R', h, rfl, rfl⟩, rfl⟩ | ⟨_, h, rfl, hK, rfl⟩)
    · exact .inl ⟨R', h, List.append_assoc ..⟩
    · exact .inr hK
  · rintro (⟨R', h, rfl⟩ | hK)
    · exact .inl ⟨_, ⟨g, R', h, rfl, rfl⟩, by simp⟩
    · exact .inr ⟨[], g, rfl, hK, rfl⟩

@[simp]
theorem not_mem_step_nil : ¬(g, R) ∈ Stack.step c [] := List.not_mem_nil

/-- A part without actions takes the byte or is passed. -/
theorem step_plain (h : a.plain = true) : (g, R) ∈ Stack.step c (a :: K) ↔
    (g = [] ∧ R ∈ (Ways.advance [[a]] c).frame K) ∨
      (a.accepts [] = true ∧ (g, R) ∈ Stack.step c K) := by
  rw [mem_step_cons]
  simp only [Ways.mem_frame, Ways.advance_singleton, List.mem_map, Prod.exists, exists_eq_right,
    mem_step_singleton, Ragel.accepts_nil_iff]
  constructor
  · rintro (⟨R', hR', rfl⟩ | ⟨f, g', hf, hK, rfl⟩)
    · exact .inl ⟨(Ragel.plain_expand h hR').1, R', ⟨g, hR'⟩, rfl⟩
    · rw [Ragel.plain_empties h hf]
      exact .inr ⟨⟨f, hf⟩, hK⟩
  · rintro (⟨rfl, R', ⟨g', hR'⟩, rfl⟩ | ⟨⟨f, hf⟩, hK⟩)
    · obtain ⟨rfl, -⟩ := Ragel.plain_expand h hR'
      exact .inl ⟨R', hR', rfl⟩
    · have hnil := Ragel.plain_empties h hf
      exact .inr ⟨f, g, hf, hK, by rw [hnil]; rfl⟩

end Stack

end HxSylar.Lib
