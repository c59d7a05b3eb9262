import Mathlib.Logic.Basic

namespace HxSylar.Lib.Effect
variable {ε σ α β : Type}

theorem bind_ok {x : EStateM ε σ α} {f : α → EStateM ε σ β} {s t : σ} {a : α}
    (h : x s = .ok a t) : (x >>= f) s = f a t := by
  simp only [bind, EStateM.bind, h]

theorem bind_error {x : EStateM ε σ α} {f : α → EStateM ε σ β} {s t : σ} {e : ε}
    (h : x s = .error e t) : (x >>= f) s = .error e t := by
  simp only [bind, EStateM.bind, h]

theorem map_ok {x : EStateM ε σ α} {f : α → β} {s t : σ} {a : α}
    (h : x s = .ok a t) : (f <$> x) s = .ok (f a) t := by
  simp only [Functor.map, EStateM.map, h]

theorem map_error {x : EStateM ε σ α} {f : α → β} {s t : σ} {e : ε}
    (h : x s = .error e t) : (f <$> x) s = .error e t := by
  simp only [Functor.map, EStateM.map, h]

theorem discard_error_iff {x : EStateM ε σ α} {s t : σ} {e : ε} :
    discard x s = .error e t ↔ x s = .error e t := by
  cases h : x s with
  | ok a s' =>
    have hd : discard x s = .ok () s' := map_ok h
    rw [hd]
    exact iff_of_false (fun he => by cases he) (fun he => by cases he)
  | error e' s' =>
    have hd : discard x s = .error e' s' := map_error h
    rw [hd, EStateM.Result.error.injEq, EStateM.Result.error.injEq]

/-- The state left behind meets `I`, unless the failure is fatal. -/
def Leaves (I : σ → Prop) (fatal : ε → Prop) : EStateM.Result ε σ α → Prop
  | .ok _ t => I t
  | .error e t => fatal e ∨ I t

theorem Leaves.return {I : σ → Prop} {fatal : ε → Prop} {x : EStateM ε σ α} {s : σ}
    (h : Leaves I fatal (x s)) (f : α → β) : Leaves I fatal ((x >>= fun a => pure (f a)) s) := by
  cases hx : x s with
  | ok a t =>
    rw [hx] at h
    rw [bind_ok hx]
    exact h
  | error e t =>
    rw [hx] at h
    rw [bind_error hx]
    exact h

/-- `x` keeps `I`, also when it fails. -/
def Keeps (I : σ → Prop) (fatal : ε → Prop) (x : EStateM ε σ α) : Prop :=
  ∀ s, I s → Leaves I fatal (x s)

section Keeps
variable {I : σ → Prop} {fatal : ε → Prop}

theorem Keeps.ok {x : EStateM ε σ α} (hx : Keeps I fatal x) {s t : σ} {a : α} (hs : I s)
    (h : x s = .ok a t) : I t := by
  have hk := hx s hs
  rwa [h] at hk

theorem Keeps.error {x : EStateM ε σ α} (hx : Keeps I fatal x) {s t : σ} {e : ε} (hs : I s)
    (h : x s = .error e t) : fatal e ∨ I t := by
  have hk := hx s hs
  rwa [h] at hk

theorem keeps_pure (a : α) : Keeps I fatal (pure a : EStateM ε σ α) := fun _ hs => hs

theorem keeps_throw (e : ε) : Keeps I fatal (throw e : EStateM ε σ α) := fun _ hs => .inr hs

theorem keeps_get : Keeps I fatal (get : EStateM ε σ σ) := fun _ hs => hs

theorem Keeps.bind {x : EStateM ε σ α} {f : α → EStateM ε σ β} (hx : Keeps I fatal x)
    (hf : ∀ a, Keeps I fatal (f a)) : Keeps I fatal (x >>= f) := by
  intro s hs
  cases h : x s with
  | ok a t =>
    rw [bind_ok h]
    exact hf a t (hx.ok hs h)
  | error e t =>
    rw [bind_error h]
    exact hx.error hs h

theorem Keeps.return {x : EStateM ε σ α} (hx : Keeps I fatal x) (f : α → β) :
    Keeps I fatal (x >>= fun a => pure (f a)) :=
  hx.bind (fun a => keeps_pure (f a))

theorem Keeps.ite {c : Prop} [Decidable c] {x y : EStateM ε σ α} (hx : Keeps I fatal x)
    (hy : Keeps I fatal y) : Keeps I fatal (if c then x else y) := by
  split
  · exact hx
  · exact hy

theorem Keeps.map {x : EStateM ε σ α} (f : α → β) (hx : Keeps I fatal x) :
    Keeps I fatal (f <$> x) := by
  intro s hs
  cases h : x s with
  | ok a t =>
    rw [map_ok h]
    exact hx.ok hs h
  | error e t =>
    rw [map_error h]
    exact hx.error hs h

end Keeps
end HxSylar.Lib.Effect
