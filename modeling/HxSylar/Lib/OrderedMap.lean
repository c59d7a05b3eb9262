import Mathlib.Tactic.TypeStar

namespace HxSylar.Lib

/-- The entries of a `std::map` in the order of its comparison. -/
abbrev OrderedMap (κ β : Type*) := List (κ × β)

namespace OrderedMap
variable {κ β : Type*} (less : κ → κ → Bool)

/-- Neither key comes before the other. -/
def same (k k' : κ) : Bool := !less k k' && !less k' k

def find (m : OrderedMap κ β) (k : κ) : Option β :=
  (List.find? (fun e => same less e.1 k) m).map Prod.snd

/-- `m[k] = v`. A key that is there already stays as it was written first. -/
def assign : OrderedMap κ β → κ → β → OrderedMap κ β
  | [], k, v => [(k, v)]
  | (k', v') :: m, k, v =>
    if less k k' then (k, v) :: (k', v') :: m
    else if less k' k then (k', v') :: assign m k v
    else (k', v) :: m

/-- `m.insert(make_pair(k, v))`. A key that is there already keeps its value. -/
def insert : OrderedMap κ β → κ → β → OrderedMap κ β
  | [], k, v => [(k, v)]
  | (k', v') :: m, k, v =>
    if less k k' then (k, v) :: (k', v') :: m
    else if less k' k then (k', v') :: insert m k v
    else (k', v') :: m

/-- `m.erase(k)`. -/
def erase (m : OrderedMap κ β) (k : κ) : OrderedMap κ β :=
  List.filter (fun e => !same less e.1 k) m

/-- The entries are in order, each key once. -/
def Sorted (m : OrderedMap κ β) : Prop := List.Pairwise (fun e e' => less e.1 e'.1 = true) m

/-- The comparison is that of an image of the keys. -/
def Compares {γ : Type*} [LT γ] (image : κ → γ) : Prop :=
  ∀ k k', less k k' = true ↔ image k < image k'

theorem mem_insert {m : OrderedMap κ β} {k : κ} {v : β} {e : κ × β} (h : e ∈ insert less m k v) :
    e = (k, v) ∨ e ∈ m := by
  induction m with
  | nil => exact .inl (List.mem_singleton.mp h)
  | cons e' m ih =>
    simp only [insert] at h
    split at h
    · exact List.mem_cons.mp h
    · split at h
      · rcases List.mem_cons.mp h with rfl | h
        · exact .inr List.mem_cons_self
        · exact (ih h).imp_right (List.mem_cons_of_mem _)
      · exact .inr h

/-- An assignment brings no other key. -/
theorem mem_assign {m : OrderedMap κ β} {k : κ} {v : β} {e : κ × β} (h : e ∈ assign less m k v) :
    e.1 = k ∨ ∃ e' ∈ m, e'.1 = e.1 := by
  induction m with
  | nil =>
    rw [List.mem_singleton.mp h]
    exact .inl rfl
  | cons e' m ih =>
    simp only [assign] at h
    split at h
    · rcases List.mem_cons.mp h with rfl | h
      · exact .inl rfl
      · exact .inr ⟨e, h, rfl⟩
    · split at h
      · rcases List.mem_cons.mp h with rfl | h
        · exact .inr ⟨_, List.mem_cons_self, rfl⟩
        · refine (ih h).imp_right ?_
          rintro ⟨e₁, he₁, heq⟩
          exact ⟨e₁, List.mem_cons_of_mem _ he₁, heq⟩
      · rcases List.mem_cons.mp h with rfl | h
        · exact .inr ⟨_, List.mem_cons_self, rfl⟩
        · exact .inr ⟨e, List.mem_cons_of_mem _ h, rfl⟩

theorem Sorted.erase {m : OrderedMap κ β} (h : Sorted less m) (k : κ) :
    Sorted less (erase less m k) :=
  List.Pairwise.filter _ h

theorem Compares.ne_of_less {γ : Type*} [LT γ] [Std.Irrefl (α := γ) (· < ·)]
    {less : κ → κ → Bool} {image : κ → γ} (h : Compares less image) {k k' : κ}
    (hless : less k k' = true) : image k ≠ image k' := by
  have hirrefl : ∀ x : γ, ¬x < x := Std.Irrefl.irrefl
  intro heq
  rw [h, heq] at hless
  exact hirrefl _ hless

theorem Compares.eq_of_not_less {γ : Type*} [LT γ] [Std.Trichotomous (α := γ) (· < ·)]
    {less : κ → κ → Bool} {image : κ → γ} (h : Compares less image) {k k' : κ}
    (hless : ¬less k k' = true) (hgreater : ¬less k' k = true) : image k = image k' := by
  rw [h] at hless hgreater
  exact Std.Trichotomous.trichotomous _ _ hless hgreater

/-- Entries of the same key are one entry. -/
theorem Sorted.unique {γ : Type*} [LT γ] [Std.Irrefl (α := γ) (· < ·)] {less : κ → κ → Bool}
    {image : κ → γ} {m : OrderedMap κ β} (h : Compares less image) (hm : Sorted less m)
    {e e' : κ × β} (he : e ∈ m) (he' : e' ∈ m) (hsame : image e.1 = image e'.1) : e = e' :=
  List.Pairwise.forall_of_forall_of_flip
    (R := fun x y : κ × β => image x.1 = image y.1 → x = y) (fun _ _ _ => rfl)
    (hm.imp fun hlt heq => absurd heq (h.ne_of_less hlt))
    (hm.imp fun hlt heq => absurd heq.symm (h.ne_of_less hlt)) he he' hsame

section Order
variable {γ : Type*} [LT γ] [Trans (α := γ) (· < ·) (· < ·) (· < ·)] {less} {image : κ → γ}
  {m : OrderedMap κ β}

theorem Sorted.smaller (h : Compares less image) {k : κ} {e : κ × β} (hm : Sorted less (e :: m))
    (hk : less k e.1 = true) : ∀ e' ∈ e :: m, less k e'.1 = true := by
  intro e' he'
  rcases List.mem_cons.mp he' with rfl | he'
  · exact hk
  · have hrest := (List.pairwise_cons.mp hm).1 e' he'
    rw [h] at hk hrest ⊢
    exact Trans.trans hk hrest

theorem Sorted.insert (h : Compares less image) (hm : Sorted less m) (k : κ) (v : β) :
    Sorted less (insert less m k v) := by
  induction m with
  | nil => exact List.pairwise_singleton _ _
  | cons e m ih =>
    obtain ⟨hfirst, hrest⟩ := List.pairwise_cons.mp hm
    simp only [OrderedMap.insert]
    split
    · rename_i hless
      exact List.pairwise_cons.mpr ⟨hm.smaller h hless, hm⟩
    · split
      · rename_i hgreater
        refine List.pairwise_cons.mpr ⟨?_, ih hrest⟩
        intro e' he'
        rcases mem_insert less he' with rfl | he'
        · exact hgreater
        · exact hfirst e' he'
      · exact hm

theorem Sorted.assign (h : Compares less image) (hm : Sorted less m) (k : κ) (v : β) :
    Sorted less (assign less m k v) := by
  induction m with
  | nil => exact List.pairwise_singleton _ _
  | cons e m ih =>
    obtain ⟨hfirst, hrest⟩ := List.pairwise_cons.mp hm
    simp only [OrderedMap.assign]
    split
    · rename_i hless
      exact List.pairwise_cons.mpr ⟨hm.smaller h hless, hm⟩
    · split
      · rename_i hgreater
        refine List.pairwise_cons.mpr ⟨?_, ih hrest⟩
        intro e' he'
        rcases mem_assign less he' with hkey | ⟨e₁, he₁, hkey⟩
        · rw [hkey]
          exact hgreater
        · rw [← hkey]
          exact hfirst e₁ he₁
      · exact List.pairwise_cons.mpr ⟨hfirst, hrest⟩

end Order

section Laws
variable {γ : Type*} [LT γ] [Std.Irrefl (α := γ) (· < ·)] [Std.Trichotomous (α := γ) (· < ·)]
  {less} {image : κ → γ}

theorem Compares.same_iff (h : Compares less image) (k k' : κ) :
    same less k k' = true ↔ image k = image k' := by
  have hirrefl : ∀ x : γ, ¬x < x := Std.Irrefl.irrefl
  simp only [same, Bool.and_eq_true, Bool.not_eq_true', ← Bool.not_eq_true, h k k', h k' k]
  constructor
  · rintro ⟨hlt, hgt⟩
    exact Std.Trichotomous.trichotomous _ _ hlt hgt
  · intro heq
    rw [heq]
    exact ⟨hirrefl _, hirrefl _⟩

theorem find_cons (k k' : κ) (v : β) (m : OrderedMap κ β) :
    find less ((k, v) :: m) k' = if same less k k' then some v else find less m k' := by
  simp only [find, List.find?_cons]
  cases same less k k' with
  | true => rfl
  | false => rfl

/-- What was assigned last is found under every key that compares the same. -/
theorem Compares.find_assign (h : Compares less image) {k k' : κ} (v : β) (m : OrderedMap κ β)
    (hsame : image k = image k') : find less (assign less m k v) k' = some v := by
  have hfound : same less k k' = true := (h.same_iff _ _).mpr hsame
  induction m with
  | nil => rw [assign, find_cons, if_pos hfound]
  | cons e m ih =>
    obtain ⟨k₁, v₁⟩ := e
    simp only [assign]
    split
    · rw [find_cons, if_pos hfound]
    · rename_i hless
      split
      · rename_i hgreater
        have hother : ¬same less k₁ k' = true := by
          rw [h.same_iff, ← hsame]
          exact h.ne_of_less hgreater
        rw [find_cons, if_neg hother]
        exact ih
      · rename_i hgreater
        have heq : image k₁ = image k := h.eq_of_not_less hgreater hless
        rw [find_cons, if_pos ((h.same_iff _ _).mpr (heq.trans hsame))]

/-- An assignment leaves every other key. -/
theorem Compares.find_assign_ne (h : Compares less image) {k k' : κ} (v : β) (m : OrderedMap κ β)
    (hother : image k ≠ image k') : find less (assign less m k v) k' = find less m k' := by
  have hskip : ¬same less k k' = true := by rwa [h.same_iff]
  induction m with
  | nil =>
    rw [assign, find_cons, if_neg hskip]
  | cons e m ih =>
    obtain ⟨k₁, v₁⟩ := e
    simp only [assign]
    split
    · rw [find_cons, if_neg hskip]
    · rename_i hless
      split
      · rw [find_cons, find_cons, ih]
      · rename_i hgreater
        have heq : image k₁ = image k := h.eq_of_not_less hgreater hless
        have hne : ¬same less k₁ k' = true := by rwa [h.same_iff, heq]
        rw [find_cons, find_cons, if_neg hne, if_neg hne]

theorem Compares.find_congr (h : Compares less image) (m : OrderedMap κ β) {k k' : κ}
    (hsame : image k = image k') : find less m k = find less m k' := by
  have hpred : ∀ e : κ × β, same less e.1 k = same less e.1 k' := by
    intro e
    rw [Bool.eq_iff_iff, h.same_iff, h.same_iff, hsame]
  simp only [find, hpred]

theorem Compares.find_erase (h : Compares less image) (m : OrderedMap κ β) {k k' : κ}
    (hsame : image k = image k') : find less (erase less m k) k' = none := by
  rw [find, Option.map_eq_none_iff, List.find?_eq_none]
  intro e he
  have hkept := (List.mem_filter.mp he).2
  rw [Bool.not_eq_true', Bool.eq_false_iff, ne_eq, h.same_iff, hsame, ← h.same_iff] at hkept
  exact hkept

theorem Compares.find_erase_ne (h : Compares less image) (m : OrderedMap κ β) {k k' : κ}
    (hother : image k ≠ image k') : find less (erase less m k) k' = find less m k' := by
  rw [find, find, erase, List.find?_filter]
  congr 2
  funext e
  cases hfound : same less e.1 k' with
  | false => simp
  | true =>
    have hgone : same less e.1 k = false := by
      rw [Bool.eq_false_iff, ne_eq, h.same_iff, (h.same_iff _ _).mp hfound]
      exact fun he => hother he.symm
    simp [hgone]

/-- A key smaller than the first one is not there. -/
theorem Compares.find_smaller (h : Compares less image)
    [Trans (α := γ) (· < ·) (· < ·) (· < ·)] {k : κ} {e : κ × β} {m : OrderedMap κ β}
    (hm : Sorted less (e :: m)) (hk : less k e.1 = true) : find less (e :: m) k = none := by
  rw [find, Option.map_eq_none_iff, List.find?_eq_none]
  intro e' he' hsame
  exact h.ne_of_less (hm.smaller h hk e' he') ((h.same_iff _ _).mp hsame).symm

/-- What was inserted is found unless the key was there before. -/
theorem Compares.find_insert (h : Compares less image)
    [Trans (α := γ) (· < ·) (· < ·) (· < ·)] {k k' : κ} (v : β) {m : OrderedMap κ β}
    (hm : Sorted less m) (hsame : image k = image k') :
    find less (insert less m k v) k' = some ((find less m k').getD v) := by
  have hfound : same less k k' = true := (h.same_iff _ _).mpr hsame
  induction m with
  | nil => simp [insert, hfound, find]
  | cons e m ih =>
    obtain ⟨k₁, v₁⟩ := e
    simp only [insert]
    split
    · rename_i hless
      have hnone := h.find_smaller hm (by rw [h] at hless ⊢; rwa [← hsame])
      rw [find_cons, if_pos hfound, hnone]
      rfl
    · rename_i hless
      split
      · rename_i hgreater
        have hother : ¬same less k₁ k' = true := by
          rw [h.same_iff, ← hsame]
          exact h.ne_of_less hgreater
        rw [find_cons, find_cons, if_neg hother, if_neg hother]
        exact ih (List.pairwise_cons.mp hm).2
      · rename_i hgreater
        have heq : image k₁ = image k := h.eq_of_not_less hgreater hless
        rw [find_cons, if_pos ((h.same_iff _ _).mpr (heq.trans hsame))]
        rfl

/-- The entries after an insertion: one more, unless the key was there before. -/
theorem Compares.insert_perm (h : Compares less image)
    [Trans (α := γ) (· < ·) (· < ·) (· < ·)] (k : κ) (v : β) {m : OrderedMap κ β}
    (hm : Sorted less m) :
    (insert less m k v).Perm (if m.any (fun e => same less e.1 k) then m else (k, v) :: m) := by
  induction m with
  | nil => exact List.Perm.refl _
  | cons e m ih =>
    obtain ⟨k₁, v₁⟩ := e
    simp only [insert]
    split
    · rename_i hless
      have hnone : (List.any ((k₁, v₁) :: m) fun e => same less e.1 k) = false := by
        rw [List.any_eq_false]
        intro e he hsame
        exact h.ne_of_less (hm.smaller h hless e he) ((h.same_iff _ _).mp hsame).symm
      rw [hnone]
      exact List.Perm.refl _
    · rename_i hless
      split
      · rename_i hgreater
        have hother : same less k₁ k = false := by simp [same, hgreater]
        rw [List.any_cons, hother, Bool.false_or]
        refine ((ih (List.pairwise_cons.mp hm).2).cons (k₁, v₁)).trans ?_
        split
        · exact List.Perm.refl _
        · exact List.Perm.swap _ _ _
      · rename_i hgreater
        have hsame : same less k₁ k = true := by simp [same, hless, hgreater]
        rw [List.any_cons, hsame]
        exact List.Perm.refl _

/-- An insertion leaves every other key. -/
theorem Compares.find_insert_ne (h : Compares less image) {k k' : κ} (v : β) (m : OrderedMap κ β)
    (hother : image k ≠ image k') : find less (insert less m k v) k' = find less m k' := by
  have hskip : ¬same less k k' = true := by rwa [h.same_iff]
  induction m with
  | nil => rw [insert, find_cons, if_neg hskip]
  | cons e m ih =>
    obtain ⟨k₁, v₁⟩ := e
    simp only [insert]
    split
    · rw [find_cons, if_neg hskip]
    · split
      · rw [find_cons, find_cons, ih]
      · rfl

end Laws
end OrderedMap
end HxSylar.Lib
