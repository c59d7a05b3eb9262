import Mathlib.Data.Finmap
import Mathlib.Data.Finset.Dedup
import Mathlib.Data.List.Forall2

namespace HxSylar.Lib
variable {α β γ : Type*}

theorem mapM_eq_some_iff {f : α → Option β} {l : List α} {r : List β} :
    l.mapM f = some r ↔ List.Forall₂ (fun a b => f a = some b) l r := by
  induction l generalizing r with
  | nil =>
    rw [List.forall₂_nil_left_iff]
    constructor
    · intro h
      cases h
      rfl
    · rintro rfl
      rfl
  | cons a l ih =>
    rw [List.mapM_cons, List.forall₂_cons_left_iff]
    simp only [Option.bind_eq_bind, Option.bind_eq_some_iff, ih, Option.pure_def, Option.some.injEq]
    constructor
    · rintro ⟨b, hb, bs, hbs, rfl⟩
      exact ⟨b, bs, hb, hbs, rfl⟩
    · rintro ⟨b, bs, hb, hbs, rfl⟩
      exact ⟨b, hb, bs, hbs, rfl⟩

/-- Every result comes from an element. -/
theorem exists_of_mapM {f : α → Option β} {l : List α} {r : List β} (h : l.mapM f = some r)
    {b : β} (hb : b ∈ r) : ∃ a ∈ l, f a = some b := by
  rw [mapM_eq_some_iff] at h
  induction h with
  | nil => cases hb
  | @cons a b' l r ha _ ih =>
    rcases List.mem_cons.mp hb with rfl | hmem
    · exact ⟨a, List.mem_cons_self .., ha⟩
    · obtain ⟨a', ha', hfa'⟩ := ih hmem
      exact ⟨a', List.mem_cons_of_mem _ ha', hfa'⟩

theorem mapM_of_forall {f : α → Option β} {g : α → β} {l : List α}
    (h : ∀ a ∈ l, f a = some (g a)) : l.mapM f = some (l.map g) := by
  rw [mapM_eq_some_iff, List.forall₂_map_right_iff, List.forall₂_same]
  exact h

/-- Two passes over a list are one. -/
theorem mapM_bind_mapM (f : α → Option β) (g : β → Option γ) (l : List α) :
    (l.mapM f).bind (fun bs => bs.mapM g) = l.mapM (fun a => (f a).bind g) := by
  induction l with
  | nil => rfl
  | cons a l ih =>
    rw [List.mapM_cons, List.mapM_cons, ← ih]
    cases f a with
    | none => rfl
    | some b =>
      cases l.mapM f with
      | none =>
        simp only [Option.bind_eq_bind, Option.bind_some, Option.bind_none]
        cases g b with
        | none => rfl
        | some c => rfl
      | some bs =>
        simp only [Option.bind_eq_bind, Option.bind_some, Option.pure_def, List.mapM_cons]

section Settled
variable {f : α → Option β} {g : α → β} {P : α → Prop}

/-- What comes out as the value of an element settles that element: a pass then settles the list
whose values come out. -/
theorem mapM_settles (hf : ∀ a a', f a = some (g a') → P a') {l l' : List α}
    (h : l.mapM f = some (l'.map g)) : ∀ a' ∈ l', P a' := by
  intro a' ha'
  obtain ⟨a, -, ha⟩ := exists_of_mapM h (List.mem_map_of_mem ha')
  exact hf a a' ha

/-- The same for the set of the values. -/
theorem mapM_toFinset_settles [DecidableEq β] (hf : ∀ a a', f a = some (g a') → P a')
    {l l' : List α} (h : (l.mapM f).map List.toFinset = some (l'.map g).toFinset) :
    ∀ a' ∈ l', P a' := by
  intro a' ha'
  obtain ⟨r, hr, hset⟩ := Option.map_eq_some_iff.mp h
  have hmem : g a' ∈ r.toFinset := by
    rw [hset, List.mem_toFinset]
    exact List.mem_map_of_mem ha'
  obtain ⟨a, -, ha⟩ := exists_of_mapM hr (List.mem_toFinset.mp hmem)
  exact hf a a' ha

/-- And for a map of the values whose keys are distinct. -/
theorem mapM_toFinmap_settles {κ : Type*} [DecidableEq κ] (hf : ∀ a a', f a = some (g a') → P a')
    {l l' : List (κ × α)} (hkeys : (l'.map Prod.fst).Nodup)
    (h : (l.mapM (fun e => (f e.2).map (fun x => (⟨e.1, x⟩ : Sigma (fun _ : κ => β))))).map
      List.toFinmap = some (l'.map (fun e => (⟨e.1, g e.2⟩ : Sigma (fun _ : κ => β)))).toFinmap) :
    ∀ e ∈ l', P e.2 := by
  intro e he
  obtain ⟨r, hr, hmap⟩ := Option.map_eq_some_iff.mp h
  have hnodup : (l'.map (fun e => (⟨e.1, g e.2⟩ : Sigma (fun _ : κ => β)))).NodupKeys := by
    rw [List.NodupKeys, List.keys, List.map_map]
    exact hkeys
  have hlookup : r.dlookup e.1 = some (g e.2) := by
    rw [← Finmap.dlookup_list_toFinmap, hmap, Finmap.dlookup_list_toFinmap]
    exact List.mem_dlookup hnodup (List.mem_map.mpr ⟨e, he, rfl⟩)
  obtain ⟨a, -, ha⟩ := exists_of_mapM hr (List.of_mem_dlookup hlookup)
  obtain ⟨x, hx, heq⟩ := Option.map_eq_some_iff.mp ha
  have hvalue : x = g e.2 := eq_of_heq (Sigma.mk.inj heq).2
  exact hf a.2 e.2 (hvalue ▸ hx)

end Settled
end HxSylar.Lib
