import HxSylar.Lib.Effect

namespace HxSylar.Lib.Effect
variable {ε σ τ α β : Type}

/-- The same answer or the same failure, in related states, unless one of the two is fatal. -/
def Alike (R : σ → τ → Prop) (fatal : ε → Prop) :
    EStateM.Result ε σ α → EStateM.Result ε τ α → Prop
  | .ok a s, .ok b t => a = b ∧ R s t
  | .error e s, .error f t => fatal e ∨ fatal f ∨ e = f ∧ R s t
  | .error e _, .ok _ _ => fatal e
  | .ok _ _, .error f _ => fatal f

/-- On related states `x` and `y` cannot be told apart. -/
def Agree (R : σ → τ → Prop) (fatal : ε → Prop) (x : EStateM ε σ α) (y : EStateM ε τ α) : Prop :=
  ∀ s t, R s t → Alike R fatal (x s) (y t)

variable {R : σ → τ → Prop} {fatal : ε → Prop}

theorem agree_pure (a : α) : Agree R fatal (pure a : EStateM ε σ α) (pure a) := fun _ _ h => ⟨rfl, h⟩

theorem agree_throw (e : ε) : Agree R fatal (throw e : EStateM ε σ α) (throw e) := fun _ _ h =>
  .inr (.inr ⟨rfl, h⟩)

/-- What goes on with the same answer goes on alike. -/
theorem Alike.bind {x : EStateM ε σ α} {y : EStateM ε τ α} {f : α → EStateM ε σ β}
    {g : α → EStateM ε τ β} {s : σ} {t : τ} (hxy : Alike R fatal (x s) (y t))
    (hfg : ∀ a s t, R s t → Alike R fatal (f a s) (g a t)) :
    Alike R fatal ((x >>= f) s) ((y >>= g) t) := by
  cases hx : x s with
  | ok a s' =>
    cases hy : y t with
    | ok b t' =>
      rw [hx, hy] at hxy
      obtain ⟨rfl, hR⟩ := hxy
      rw [bind_ok hx, bind_ok hy]
      exact hfg a s' t' hR
    | error e t' =>
      rw [hx, hy] at hxy
      rw [bind_ok hx, bind_error hy]
      cases f a s' with
      | ok _ _ => exact hxy
      | error _ _ => exact .inr (.inl hxy)
  | error e s' =>
    cases hy : y t with
    | ok b t' =>
      rw [hx, hy] at hxy
      rw [bind_error hx, bind_ok hy]
      cases g b t' with
      | ok _ _ => exact hxy
      | error _ _ => exact .inl hxy
    | error e' t' =>
      rw [hx, hy] at hxy
      rw [bind_error hx, bind_error hy]
      exact hxy

theorem Agree.bind {x : EStateM ε σ α} {y : EStateM ε τ α} {f : α → EStateM ε σ β}
    {g : α → EStateM ε τ β} (hxy : Agree R fatal x y) (hfg : ∀ a, Agree R fatal (f a) (g a)) :
    Agree R fatal (x >>= f) (y >>= g) := fun s t h => (hxy s t h).bind hfg

/-- The state is read, and what follows is alike for related ones. -/
theorem agree_get {f : σ → EStateM ε σ β} {g : τ → EStateM ε τ β}
    (hfg : ∀ s t, R s t → Agree R fatal (f s) (g t)) : Agree R fatal (get >>= f) (get >>= g) :=
  fun s t h => hfg s t h s t h

theorem Agree.return {x : EStateM ε σ α} {y : EStateM ε τ α} (hxy : Agree R fatal x y) (f : α → β) :
    Agree R fatal (x >>= fun a => pure (f a)) (y >>= fun a => pure (f a)) :=
  hxy.bind fun a => agree_pure (f a)

theorem Agree.ite {c : Prop} [Decidable c] {x x' : EStateM ε σ α} {y y' : EStateM ε τ α}
    (hxy : Agree R fatal x y) (hxy' : Agree R fatal x' y') :
    Agree R fatal (if c then x else x') (if c then y else y') := by
  split
  · exact hxy
  · exact hxy'

/-- What the caller of a computation has in hand when it goes on, be it after a failure. -/
def survive (fatal : ε → Prop) [DecidablePred fatal] :
    EStateM.Result ε σ α → Option (Except ε α × σ)
  | .ok a s => some (.ok a, s)
  | .error e s => if fatal e then none else some (.error e, s)

theorem Alike.survive [DecidablePred fatal] {x : EStateM.Result ε σ α} {y : EStateM.Result ε τ α}
    (hxy : Alike R fatal x y) {r : Except ε α × σ} {r' : Except ε α × τ}
    (hx : survive fatal x = some r) (hy : survive fatal y = some r') : r.1 = r'.1 ∧ R r.2 r'.2 := by
  have hlive : ∀ {e : ε} {υ : Type} {u : υ} {q : Except ε α × υ},
      (if fatal e then none else some (Except.error e, u)) = some q →
        ¬fatal e ∧ q = (.error e, u) := by
    intro e υ u q h
    split at h
    · cases h
    · exact ⟨by assumption, (Option.some.inj h).symm⟩
  cases x with
  | ok a s =>
    cases hx
    cases y with
    | ok b t =>
      cases hy
      obtain ⟨rfl, hR⟩ := hxy
      exact ⟨rfl, hR⟩
    | error f t => exact absurd hxy (hlive hy).1
  | error e s =>
    obtain ⟨he, rfl⟩ := hlive hx
    cases y with
    | ok b t => exact absurd hxy he
    | error f t =>
      obtain ⟨hf, rfl⟩ := hlive hy
      obtain ⟨rfl, hR⟩ := (hxy.resolve_left he).resolve_left hf
      exact ⟨rfl, hR⟩

end HxSylar.Lib.Effect
