import HxSylar.Lib.Text

namespace HxSylar.Lib

/-- A scanner with actions on its transitions. `none` is the error state. -/
abbrev Table (α : Type*) := Nat → UInt8 → Option (Nat × List α)

/-- Where a scan ended: its state, how many bytes it took, and what the actions made. -/
structure Scan (σ : Type*) where
  cs : Nat
  n : Nat
  out : σ

namespace Table
variable {α σ : Type*} (T : Table α) (stop : α → Bool)

/-- The actions of one byte, at its position. -/
def apply (act : Nat → α → σ → σ) (pos : Nat) (as : List α) (s : σ) : σ :=
  as.foldl (fun s a => act pos a s) s

/-- Scans until an error, which leaves the byte, until an action that stops after its byte, or
to the end. -/
def run (act : Nat → α → σ → σ) : Nat → Nat → Text → σ → Scan σ
  | cs, pos, [], s => ⟨cs, pos, s⟩
  | cs, pos, b :: bs, s =>
    match T cs b with
    | none => ⟨0, pos, s⟩
    | some (cs', as) =>
      if as.any stop then ⟨cs', pos + 1, apply act pos as s⟩
      else run act cs' (pos + 1) bs (apply act pos as s)

/-- The state behind a text in which there is neither an error nor a stop. -/
def after : Nat → Text → Option Nat
  | cs, [] => some cs
  | cs, b :: bs => (T cs b).bind (fun r => if r.2.any stop then none else after r.1 bs)

/-- Whether an action stops the scan. -/
def stopsIn : Nat → Text → Bool
  | _, [] => false
  | cs, b :: bs => (T cs b).any (fun r => r.2.any stop || stopsIn r.1 bs)

/-- A text that the scanner takes whole, stopping at its last byte. -/
def Accepts (cs : Nat) (t : Text) (final : Nat) : Prop :=
  ∃ front last cs' as, t = front ++ [last] ∧ T.after stop cs front = some cs' ∧
    T cs' last = some (final, as) ∧ as.any stop = true

/-- A table by states: the first of a state's ranges in which a byte lies decides. -/
def ofRows (rows : List (List (UInt8 × UInt8 × Nat × List α))) : Table α := fun cs b =>
  ((rows.getD cs []).find? (fun e => e.1 ≤ b && b ≤ e.2.1)).map (fun e => e.2.2)

/-- What a state does is decided by its row. -/
theorem ofRows_row {rows : List (List (UInt8 × UInt8 × Nat × List α))} {cs : Nat}
    {row : List (UInt8 × UInt8 × Nat × List α)} (h : rows.getD cs [] = row) (b : UInt8) :
    ofRows rows cs b = ofRows [row] 0 b := by
  rw [ofRows, h]
  rfl

theorem mem_of_ofRows {rows : List (List (UInt8 × UInt8 × Nat × List α))} {cs cs' : Nat} {b : UInt8}
    {as : List α} (h : ofRows rows cs b = some (cs', as)) :
    ∃ lo hi, (lo, hi, cs', as) ∈ rows.getD cs [] ∧ lo ≤ b ∧ b ≤ hi := by
  obtain ⟨⟨lo, hi, e⟩, he, rfl⟩ := Option.map_eq_some_iff.mp h
  have hin := List.find?_some he
  rw [Bool.and_eq_true, decide_eq_true_iff, decide_eq_true_iff] at hin
  exact ⟨lo, hi, List.mem_of_find?_eq_some he, hin⟩

/-- What is checked of every range of every state, holds of every transition. -/
theorem all_of_ofRows {rows : List (List (UInt8 × UInt8 × Nat × List α))} {cs cs' : Nat} {b : UInt8}
    {as : List α} (h : ofRows rows cs b = some (cs', as))
    {P : Nat → UInt8 × UInt8 × Nat × List α → Bool}
    (hall : rows.zipIdx.all (fun row => row.1.all (P row.2)) = true) :
    ∃ lo hi, P cs (lo, hi, cs', as) = true ∧ lo ≤ b ∧ b ≤ hi := by
  obtain ⟨lo, hi, hmem, hin⟩ := mem_of_ofRows h
  rw [List.getD_eq_getElem?_getD] at hmem
  cases hrow : rows[cs]? with
  | none =>
    rw [hrow] at hmem
    cases hmem
  | some row =>
    rw [hrow] at hmem
    have hindex : (row, cs) ∈ rows.zipIdx := List.mem_zipIdx_iff_getElem?.mpr hrow
    exact ⟨lo, hi, List.all_eq_true.mp (List.all_eq_true.mp hall _ hindex) _ hmem, hin⟩

theorem ofRows_isSome {rows : List (List (UInt8 × UInt8 × Nat × List α))} {cs : Nat} {b : UInt8}
    {e : UInt8 × UInt8 × Nat × List α} (he : e ∈ rows.getD cs []) (hlo : e.1 ≤ b)
    (hhi : b ≤ e.2.1) : ∃ r, ofRows rows cs b = some r := by
  rw [← Option.isSome_iff_exists, ofRows, Option.isSome_map, List.find?_isSome]
  exact ⟨e, he, by simp [hlo, hhi]⟩

variable {T stop}

theorem after_append {cs : Nat} (xs ys : Text) :
    T.after stop cs (xs ++ ys) = (T.after stop cs xs).bind (fun cs' => T.after stop cs' ys) := by
  induction xs generalizing cs with
  | nil => rfl
  | cons x xs ih =>
    simp only [List.cons_append, after]
    cases T cs x with
    | none => rfl
    | some r =>
      simp only [Option.bind_some]
      split
      · rfl
      · exact ih

/-- The last step of a scan without error and stop. -/
theorem after_last {cs c : Nat} {xs : Text} (hxs : xs ≠ []) (h : T.after stop cs xs = some c) :
    ∃ cs' b as, T cs' b = some (c, as) ∧ as.any stop = false := by
  obtain rfl | ⟨ys, b, rfl⟩ := List.eq_nil_or_concat xs
  · exact absurd rfl hxs
  · rw [List.concat_eq_append, after_append] at h
    obtain ⟨cs', _, hlast⟩ := Option.bind_eq_some_iff.mp h
    obtain ⟨⟨c', as⟩, hstep, hstop⟩ := Option.bind_eq_some_iff.mp hlast
    split at hstop
    · cases hstop
    · rename_i hany
      cases hstop
      exact ⟨cs', b, as, hstep, by simpa using hany⟩

/-- Scanning on behind a text without error and stop. -/
theorem run_append {act : Nat → α → σ → σ} {cs cs' pos : Nat} {xs : Text} (ys : Text) {s : σ}
    (h : T.after stop cs xs = some cs') :
    T.run stop act cs pos (xs ++ ys) s =
      T.run stop act cs' (pos + xs.length) ys (T.run stop act cs pos xs s).out := by
  induction xs generalizing cs pos s with
  | nil =>
    cases h
    rfl
  | cons x xs ih =>
    obtain ⟨⟨c, as⟩, hstep, h⟩ := Option.bind_eq_some_iff.mp h
    split at h
    · cases h
    · rename_i hstop
      simp only [List.cons_append, run, hstep, hstop]
      rw [if_neg (by simp), if_neg (by simp), ih h, List.length_cons]
      congr 1
      omega

theorem run_of_after (act : Nat → α → σ → σ) {cs cs' : Nat} (pos : Nat) {xs : Text} (s : σ)
    (h : T.after stop cs xs = some cs') :
    T.run stop act cs pos xs s = ⟨cs', pos + xs.length, (T.run stop act cs pos xs s).out⟩ := by
  have happ : T.run stop act cs pos (xs ++ []) s = _ := run_append [] h
  rw [List.append_nil] at happ
  rw [happ]
  rfl

/-- Where a scan stops does not depend on what the actions make. -/
theorem run_of_accepts (act : Nat → α → σ → σ) {cs final : Nat} {t : Text} (rest : Text) (s : σ)
    (h : T.Accepts stop cs t final) :
    T.run stop act cs 0 (t ++ rest) s = ⟨final, t.length, (T.run stop act cs 0 t s).out⟩ := by
  obtain ⟨front, last, cs', as, rfl, hfront, hlast, hstop⟩ := h
  have hend : ∀ ys s', T.run stop act cs' front.length (last :: ys) s' =
      ⟨final, front.length + 1, apply act front.length as s'⟩ := by
    intro ys s'
    simp only [run, hlast, hstop, ↓reduceIte]
  rw [List.append_assoc, run_append _ hfront, run_append _ hfront, Nat.zero_add,
    List.singleton_append, hend, hend]
  simp

/-- What is taken whole can be taken in two parts. -/
theorem Accepts.split {cs final : Nat} {xs ys : Text} (h : T.Accepts stop cs (xs ++ ys) final)
    (hys : ys ≠ []) : ∃ cs', T.after stop cs xs = some cs' ∧ T.Accepts stop cs' ys final := by
  obtain ⟨front, last, c, as, happ, hfront, hlast, hstop⟩ := h
  obtain rfl | ⟨zs, b, rfl⟩ := List.eq_nil_or_concat ys
  · exact absurd rfl hys
  · rw [List.concat_eq_append, ← List.append_assoc] at happ
    obtain ⟨rfl, hb⟩ := List.append_inj' happ rfl
    obtain rfl := List.singleton_inj.mp hb
    rw [after_append] at hfront
    obtain ⟨cs', hxs, hzs⟩ := Option.bind_eq_some_iff.mp hfront
    exact ⟨cs', hxs, zs, b, c, as, List.concat_eq_append, hzs, hlast, hstop⟩

/-- What the actions of every byte keep between scans of one text, at positions `d` apart, the
scans keep. -/
theorem run_related {φ τ : Type*} {track : Nat → α → φ → φ} {act : Nat → α → σ → σ}
    {act' : Nat → α → τ → τ} {R : Nat → Nat → φ → σ → τ → Prop} {d : Nat} {t : Text}
    (hstep : ∀ cs pos b cs' as f s s', t[pos]? = some b → T cs b = some (cs', as) →
      R cs pos f s s' →
      R cs' (pos + 1) (apply track pos as f) (apply act (pos + d) as s) (apply act' pos as s'))
    {cs pos : Nat} {f : φ} {s : σ} {s' : τ} (xs : Text) (hxs : t.drop pos = xs)
    (h : R cs pos f s s') :
    ∃ c n, R c n (T.run stop track cs pos xs f).out (T.run stop act cs (pos + d) xs s).out
      (T.run stop act' cs pos xs s').out := by
  induction xs generalizing cs pos f s s' with
  | nil => exact ⟨cs, pos, h⟩
  | cons x xs ih =>
    have hx : t[pos]? = some x := by
      rw [← List.head?_drop, hxs]
      rfl
    have htail : t.drop (pos + 1) = xs := by
      rw [← List.drop_drop, hxs]
      rfl
    simp only [run]
    cases hT : T cs x with
    | none => exact ⟨cs, pos, h⟩
    | some r =>
      obtain ⟨cs', as⟩ := r
      have hnext := hstep _ _ _ _ _ _ _ _ hx hT h
      simp only
      split
      · exact ⟨cs', pos + 1, hnext⟩
      · rw [Nat.add_right_comm]
        exact ih htail hnext

/-- The same for what every single action keeps. -/
theorem run_matched {φ τ : Type*} {track : Nat → α → φ → φ} {act : Nat → α → σ → σ}
    {act' : Nat → α → τ → τ} {R : φ → σ → τ → Prop} {d : Nat}
    (hact : ∀ pos a f s s', R f s s' → R (track pos a f) (act (pos + d) a s) (act' pos a s'))
    {cs : Nat} {f : φ} {s : σ} {s' : τ} (xs : Text) (h : R f s s') :
    R (T.run stop track cs 0 xs f).out (T.run stop act cs d xs s).out
      (T.run stop act' cs 0 xs s').out := by
  have happly : ∀ pos as f s s', R f s s' →
      R (apply track pos as f) (apply act (pos + d) as s) (apply act' pos as s') := by
    intro pos as
    induction as with
    | nil => exact fun _ _ _ h => h
    | cons a as ih => exact fun _ _ _ h => ih _ _ _ (hact _ _ _ _ _ h)
  obtain ⟨_, _, hend⟩ : ∃ c n : Nat, R (T.run stop track cs 0 xs f).out
      (T.run stop act cs (0 + d) xs s).out (T.run stop act' cs 0 xs s').out :=
    run_related (R := fun _ _ => R) (fun _ pos _ _ as f s s' _ _ h => happly pos as f s s' h)
      xs List.drop_zero h
  rw [Nat.zero_add] at hend
  exact hend

/-- The same between two scans at the same positions. -/
theorem run_paired {φ : Type*} {track : Nat → α → φ → φ} {act : Nat → α → σ → σ}
    {R : φ → σ → Prop} (hact : ∀ pos a f s, R f s → R (track pos a f) (act pos a s))
    {cs : Nat} {f : φ} {s : σ} (xs : Text) (h : R f s) :
    R (T.run stop track cs 0 xs f).out (T.run stop act cs 0 xs s).out :=
  @run_matched α σ T stop φ σ track act act (fun f s _ => R f s) 0
    (fun pos a f s _ h => hact pos a f s h) cs f s s xs h

/-- Actions that do not look at the positions make the same at all of them. -/
theorem run_out_shift {act : α → σ → σ} (cs pos pos' : Nat) (xs : Text) (s : σ) :
    (T.run stop (fun _ => act) cs pos xs s).out = (T.run stop (fun _ => act) cs pos' xs s).out := by
  induction xs generalizing cs pos pos' s with
  | nil => rfl
  | cons x xs ih =>
    simp only [run]
    cases T cs x with
    | none => rfl
    | some r =>
      simp only
      split
      · rfl
      · exact ih _ _ _ _

theorem apply_keeps {act : Nat → α → σ → σ} {P : σ → Prop} (h : ∀ pos a s, P s → P (act pos a s))
    (pos : Nat) (as : List α) {s : σ} (hs : P s) : P (apply act pos as s) := by
  induction as generalizing s with
  | nil => exact hs
  | cons a as ih => exact ih (h pos a s hs)

/-- What every action keeps at the positions of the text, a scan keeps. -/
theorem run_keeps_below {act : Nat → α → σ → σ} {P : σ → Prop} {last : Nat}
    (h : ∀ pos < last, ∀ a s, P s → P (act pos a s)) {cs pos : Nat} {xs : Text} {s : σ}
    (hlast : pos + xs.length ≤ last) (hs : P s) : P (T.run stop act cs pos xs s).out := by
  induction xs generalizing cs pos s with
  | nil => exact hs
  | cons x xs ih =>
    rw [List.length_cons] at hlast
    have hpos : ∀ _ : Nat, ∀ a s, P s → P (act pos a s) := fun _ => h pos (by omega)
    have happly : ∀ as, P (apply act pos as s) := fun as => apply_keeps hpos pos as hs
    simp only [run]
    split
    · exact hs
    · split
      · exact happly _
      · exact ih (by omega) (happly _)

/-- What every action keeps, a scan keeps. -/
theorem run_keeps {act : Nat → α → σ → σ} {P : σ → Prop} (h : ∀ pos a s, P s → P (act pos a s))
    {cs pos : Nat} {xs : Text} {s : σ} (hs : P s) : P (T.run stop act cs pos xs s).out :=
  run_keeps_below (fun pos _ => h pos) (Nat.le_refl _) hs

/-- What every transition keeps, of the state and of what is made, a scan keeps unless it ends in an
error. -/
theorem run_invariant {act : Nat → α → σ → σ} {I : Nat → σ → Prop}
    (hstep : ∀ cs pos b cs' as s, T cs b = some (cs', as) → I cs s → I cs' (apply act pos as s))
    {cs pos : Nat} {xs : Text} {s : σ} (h : I cs s) :
    I (T.run stop act cs pos xs s).cs (T.run stop act cs pos xs s).out ∨
      (T.run stop act cs pos xs s).cs = 0 := by
  induction xs generalizing cs pos s with
  | nil => exact .inl h
  | cons x xs ih =>
    simp only [run]
    cases hT : T cs x with
    | none => exact .inr rfl
    | some r =>
      have hnext := hstep cs pos x r.1 r.2 s hT h
      simp only
      split
      · exact .inl hnext
      · exact ih hnext

/-- A scan takes no more than there is. -/
theorem run_n_le (act : Nat → α → σ → σ) (cs pos : Nat) (xs : Text) (s : σ) :
    (T.run stop act cs pos xs s).n ≤ pos + xs.length := by
  induction xs generalizing cs pos s with
  | nil => exact Nat.le_refl _
  | cons x xs ih =>
    rw [run, List.length_cons]
    split
    · exact Nat.le_add_right _ _
    · split
      · simp only
        omega
      · exact Nat.le_trans (ih _ _ _) (by omega)

/-- A scan that makes less than another. -/
theorem run_map {τ : Type*} {act : Nat → α → σ → σ} {act' : Nat → α → τ → τ} {f : σ → τ}
    (h : ∀ pos a s, f (act pos a s) = act' pos a (f s)) (cs pos : Nat) (xs : Text) (s : σ) :
    T.run stop act' cs pos xs (f s) =
      ⟨(T.run stop act cs pos xs s).cs, (T.run stop act cs pos xs s).n,
        f (T.run stop act cs pos xs s).out⟩ := by
  have happly : ∀ pos as s, apply act' pos as (f s) = f (apply act pos as s) := by
    intro pos as
    induction as with
    | nil => exact fun _ => rfl
    | cons a as ih =>
      intro s
      rw [apply, List.foldl_cons, ← h]
      exact ih _
  induction xs generalizing cs pos s with
  | nil => rfl
  | cons x xs ih =>
    simp only [run]
    cases T cs x with
    | none => rfl
    | some r =>
      simp only [happly]
      split
      · rfl
      · exact ih _ _ _

/-- The actions of a scan with their positions. -/
def trace (T : Table α) (stop : α → Bool) (cs : Nat) (xs : Text) : List (Nat × α) :=
  (T.run stop (fun pos a as => as ++ [(pos, a)]) cs 0 xs []).out

theorem run_out_trace (act : Nat → α → σ → σ) (cs : Nat) (xs : Text) (s : σ) :
    (T.run stop act cs 0 xs s).out =
      (T.trace stop cs xs).foldl (fun s e => act e.1 e.2 s) s := by
  have happly : ∀ pos a (as : List (Nat × α)),
      (as ++ [(pos, a)]).foldl (fun s e => act e.1 e.2 s) s =
        act pos a (as.foldl (fun s e => act e.1 e.2 s) s) := fun _ _ _ => List.foldl_concat _ _ _ _
  have hmap : T.run stop act cs 0 xs (([] : List (Nat × α)).foldl (fun s e => act e.1 e.2 s) s) = _ :=
    run_map (f := fun as : List (Nat × α) => as.foldl (fun s e => act e.1 e.2 s) s) happly cs 0 xs []
  exact congrArg Scan.out hmap

/-- What only a stopping action sets, to the number of bytes taken. -/
theorem run_stop_set {act : Nat → α → σ → σ} {g : σ → Nat}
    (h : ∀ pos a s, g (act pos a s) = if stop a then pos + 1 else g s) (cs pos : Nat) (xs : Text)
    (s : σ) : g (T.run stop act cs pos xs s).out =
      if T.stopsIn stop cs xs then (T.run stop act cs pos xs s).n else g s := by
  have happly : ∀ pos as s, g (apply act pos as s) = if as.any stop then pos + 1 else g s := by
    intro pos as
    induction as with
    | nil => exact fun _ => rfl
    | cons a as ih =>
      intro s
      rw [apply, List.foldl_cons, ← apply, ih, h, List.any_cons]
      cases stop a with
      | true => simp
      | false => simp
  induction xs generalizing cs pos s with
  | nil => rfl
  | cons x xs ih =>
    cases hT : T cs x with
    | none => simp only [run, stopsIn, hT, Option.any_none, Bool.false_eq_true, if_false]
    | some r =>
      cases hstop : r.2.any stop with
      | true =>
        simp only [run, stopsIn, hT, Option.any_some, hstop, Bool.true_or, if_true, happly]
      | false =>
        simp only [run, stopsIn, hT, Option.any_some, hstop, Bool.false_or, Bool.false_eq_true,
          if_false, ih, happly]

/-- Wherever a text stands behind `pos`, the scan goes from one state to another over it. -/
def Passes (T : Table α) (stop : α → Bool) (act : Nat → α → σ → σ) (cs pos : Nat) (xs : Text)
    (s : σ) (cs' : Nat) (s' : σ) : Prop :=
  ∀ rest, T.run stop act cs pos (xs ++ rest) s = T.run stop act cs' (pos + xs.length) rest s'

section Passes
variable {act : Nat → α → σ → σ} {cs cs' cs'' pos : Nat} {xs ys : Text} {b : UInt8} {as : List α}
  {s s' s'' : σ}

theorem Passes.nil : T.Passes stop act cs pos [] s cs s := fun _ => rfl

theorem Passes.append (h : T.Passes stop act cs pos xs s cs' s')
    (h' : T.Passes stop act cs' (pos + xs.length) ys s' cs'' s'') :
    T.Passes stop act cs pos (xs ++ ys) s cs'' s'' := by
  intro rest
  rw [List.append_assoc, h, h', List.length_append, Nat.add_assoc]

theorem Passes.one (hT : T cs b = some (cs', as)) (hstop : as.any stop = false) :
    T.Passes stop act cs pos [b] s cs' (apply act pos as s) := by
  intro rest
  rw [List.singleton_append, run, hT]
  simp only [hstop, Bool.false_eq_true, if_false, List.length_singleton]

theorem Passes.cons (hT : T cs b = some (cs', as)) (hstop : as.any stop = false)
    (h : T.Passes stop act cs' (pos + 1) xs (apply act pos as s) cs'' s'') :
    T.Passes stop act cs pos (b :: xs) s cs'' s'' := Passes.append (Passes.one hT hstop) h

theorem Passes.of_after (h : T.after stop cs xs = some cs') :
    T.Passes stop act cs pos xs s cs' (T.run stop act cs pos xs s).out := fun rest =>
  run_append rest h

/-- States that some bytes do not leave without actions in between, with what is known of them
after what was read so far. -/
theorem Passes.within {Q : Text → Nat → Prop} {p : UInt8 → Prop} {w : Text}
    (hQ : ∀ w c, Q w c → ∀ b, p b → ∃ c', T c b = some (c', []) ∧ Q (w ++ [b]) c') (hcs : Q w cs)
    (hxs : ∀ b ∈ xs, p b) : ∃ cs', Q (w ++ xs) cs' ∧ T.Passes stop act cs pos xs s cs' s := by
  induction xs generalizing cs pos w with
  | nil => exact ⟨cs, by rwa [List.append_nil], Passes.nil⟩
  | cons x xs ih =>
    obtain ⟨c, hT, hc⟩ := hQ w cs hcs x (hxs x List.mem_cons_self)
    obtain ⟨cs', hcs', hpass⟩ := ih hc (fun b hb => hxs b (List.mem_cons_of_mem _ hb))
    rw [List.append_assoc] at hcs'
    exact ⟨cs', hcs', Passes.cons hT rfl hpass⟩

/-- The same for one state. -/
theorem Passes.loop {p : UInt8 → Prop} (hT : ∀ b, p b → T cs b = some (cs, []))
    (hxs : ∀ b ∈ xs, p b) : T.Passes stop act cs pos xs s cs s := by
  have hstay : ∀ (_ : Text) c, c = cs → ∀ b, p b → ∃ c', T c b = some (c', []) ∧ c' = cs :=
    fun _ c hc b hb => ⟨cs, hc ▸ hT b hb, rfl⟩
  obtain ⟨_, rfl, hpass⟩ : ∃ c, c = cs ∧ T.Passes stop act cs pos xs s c s :=
    Passes.within (w := []) hstay rfl hxs
  exact hpass

end Passes

/-- States that spell words letter by letter, up to `fold`, next to one for all other words. -/
structure Spelling (T : Table α) (p : UInt8 → Prop) (fold : UInt8 → UInt8) (other : Nat)
    (words : List (Text × Nat)) : Prop where
  stays : ∀ b, p b → T other b = some (other, [])
  goes : ∀ e ∈ words, ∀ b, p b → ∃ c, T e.2 b = some (c, []) ∧
    (c ≠ other → (e.1 ++ [fold b], c) ∈ words)
  spells : ∀ e ∈ words, ∀ e' ∈ words, e'.1 = e.1.dropLast → ∀ b, fold b ∈ e.1.getLast? →
    T e'.2 b = some (e.2, [])
  closed : ∀ e ∈ words, e.1.dropLast = [] ∨ ∃ e' ∈ words, e'.1 = e.1.dropLast
  named : ∀ e ∈ words, e.1 ≠ [] ∧ e.2 ≠ other

namespace Spelling
variable {p : UInt8 → Prop} {fold : UInt8 → UInt8} {other : Nat} {words : List (Text × Nat)}

/-- The state that a word leads to. -/
def Leads (other : Nat) (words : List (Text × Nat)) (w : Text) (c : Nat) : Prop :=
  (w, c) ∈ words ∨ c = other ∧ ∀ e ∈ words, e.1 ≠ w

theorem step (h : Spelling T p fold other words) {w : Text} {c : Nat} (hw : w ≠ [])
    (hc : Leads other words w c) {b : UInt8} (hb : p b) :
    ∃ c', T c b = some (c', []) ∧ Leads other words (w ++ [fold b]) c' := by
  rcases hc with hc | ⟨rfl, hc⟩
  · obtain ⟨c', hT, hc'⟩ := h.goes _ hc b hb
    refine ⟨c', hT, ?_⟩
    by_cases hother : c' = other
    · refine .inr ⟨hother, fun e he hkey => ?_⟩
      have hspells := h.spells e he _ hc (by rw [hkey, List.dropLast_concat]) b
        (by rw [hkey, List.getLast?_concat]; rfl)
      rw [hT] at hspells
      cases hspells
      exact (h.named e he).2 hother
    · exact .inl (hc' hother)
  · refine ⟨c, h.stays b hb, .inr ⟨rfl, fun e he hkey => ?_⟩⟩
    rcases h.closed e he with hnil | ⟨e', he', hprefix⟩
    · rw [hkey, List.dropLast_concat] at hnil
      exact hw hnil
    · rw [hkey, List.dropLast_concat] at hprefix
      exact hc e' he' hprefix

/-- What is read behind the first letters of a word. -/
theorem passes (h : Spelling T p fold other words) {act : Nat → α → σ → σ} {c pos : Nat}
    {w xs : Text} {s : σ} (hw : w ≠ []) (hc : Leads other words (w.map fold) c)
    (hxs : ∀ b ∈ xs, p b) : ∃ c', Leads other words ((w ++ xs).map fold) c' ∧
      T.Passes stop act c pos xs s c' s := by
  have hstep : ∀ w c, w ≠ [] ∧ Leads other words (w.map fold) c → ∀ b, p b → ∃ c',
      T c b = some (c', []) ∧ w ++ [b] ≠ [] ∧ Leads other words ((w ++ [b]).map fold) c' := by
    intro w c ⟨hw, hc⟩ b hb
    obtain ⟨c', hT, hc'⟩ := h.step (fun hnil => hw (List.map_eq_nil_iff.mp hnil)) hc hb
    refine ⟨c', hT, List.append_ne_nil_of_right_ne_nil _ (List.cons_ne_nil _ _), ?_⟩
    rwa [List.map_append]
  obtain ⟨c', ⟨_, hc'⟩, hpass⟩ : ∃ c', (w ++ xs ≠ [] ∧ Leads other words ((w ++ xs).map fold) c') ∧
      T.Passes stop act c pos xs s c' s := Passes.within hstep ⟨hw, hc⟩ hxs
  exact ⟨c', hc', hpass⟩

/-- What is left to check of the ranges of a table. `variants` are the bytes that `fold` takes to one
and the same, `cover` are ranges of every state that together take all bytes in question. -/
theorem of_rows [DecidableEq α] {rows : List (List (UInt8 × UInt8 × Nat × List α))}
    {p : UInt8 → Bool} {variants : UInt8 → List UInt8} {cover : List (UInt8 × UInt8 × Nat × List α)}
    (hvariants : ∀ b, b ∈ variants (fold b))
    (hcover : ∀ b, p b = true → ∃ r ∈ cover, r.1 ≤ b ∧ b ≤ r.2.1)
    (hstays : ∀ b, p b = true → ofRows rows other b = some (other, []))
    (hedges : ∀ e ∈ words, (∀ r ∈ cover, r ∈ rows.getD e.2 []) ∧ ∀ r ∈ rows.getD e.2 [],
      r.2.2.2 = [] ∧ (r.2.2.1 = other ∨ r.1 = r.2.1 ∧ (e.1 ++ [fold r.1], r.2.2.1) ∈ words) ∨
        r.1 = r.2.1 ∧ p r.1 = false)
    (hspells : ∀ e ∈ words, ∀ e' ∈ words, e'.1 = e.1.dropLast →
      ∀ b ∈ variants (e.1.getLastD 0), ofRows rows e'.2 b = some (e.2, []))
    (hclosed : ∀ e ∈ words, e.1.dropLast = [] ∨ ∃ e' ∈ words, e'.1 = e.1.dropLast)
    (hnamed : ∀ e ∈ words, e.1 ≠ [] ∧ e.2 ≠ other) :
    Spelling (ofRows rows) (fun b => p b = true) fold other words where
  stays := hstays
  goes e he b hb := by
    obtain ⟨hcovered, hrow⟩ := hedges e he
    obtain ⟨r, hr, hlo, hhi⟩ := hcover b hb
    obtain ⟨⟨c, as⟩, hT⟩ := ofRows_isSome (hcovered r hr) hlo hhi
    obtain ⟨⟨lo, hi, _⟩, hfind, rfl⟩ := Option.map_eq_some_iff.mp hT
    have hin := List.find?_some hfind
    rw [Bool.and_eq_true, decide_eq_true_iff, decide_eq_true_iff] at hin
    have hone : ∀ {x : UInt8}, x = hi → x = lo → b = x := by
      rintro x rfl rfl
      exact UInt8.le_antisymm hin.2 hin.1
    rcases hrow _ (List.mem_of_find?_eq_some hfind) with ⟨has, hnext⟩ | ⟨hrange, hp⟩
    · obtain rfl : as = [] := has
      refine ⟨c, hT, fun hc => ?_⟩
      obtain ⟨hrange, hword⟩ := hnext.resolve_left hc
      rwa [hone hrange rfl]
    · rw [← hone hrange rfl, hb] at hp
      cases hp
  spells e he e' he' hprefix b hb := by
    apply hspells e he e' he' hprefix
    rw [List.getLastD_eq_getLast?, Option.mem_def.mp hb]
    exact hvariants b
  closed := hclosed
  named := hnamed

end Spelling

end Table
end HxSylar.Lib
