import HxSylar.ConfigRegistry

namespace HxSylar.Config.Registry
open Lib

section Calls
variable {τ : Type*} {V : τ → Type*} {r r' : Registry V}

/-- What every registry keeps: a bound name is a valid one, and its pointer leads to an object. -/
structure WellFormed (r : Registry V) : Prop where
  valid : ∀ name ptr, r.datas.lookup name = some ptr → validName name = true
  bound : ∀ name ptr, r.datas.lookup name = some ptr → ∃ o, r.objects[ptr]? = some o

/-- What later calls leave of a registry: a bound name keeps its object, and an object its name,
description and type. -/
structure Kept (r r' : Registry V) : Prop where
  names : ∀ name ptr, r.datas.lookup name = some ptr → r'.datas.lookup name = some ptr
  objects : ∀ (ptr : Nat) (o : Object V), r.objects[ptr]? = some o →
    ∃ o' : Object V, r'.objects[ptr]? = some o' ∧ o'.name = o.name ∧
      o'.description = o.description ∧ o'.type = o.type

theorem Kept.refl (r : Registry V) : Kept r r :=
  ⟨fun _ _ h => h, fun _ o h => ⟨o, h, rfl, rfl, rfl⟩⟩

theorem Kept.trans {r'' : Registry V} (h : Kept r r') (h' : Kept r' r'') : Kept r r'' := by
  refine ⟨fun name ptr hn => h'.names name ptr (h.names name ptr hn), ?_⟩
  intro ptr o ho
  obtain ⟨o₁, ho₁, hname, hdesc, htype⟩ := h.objects ptr o ho
  obtain ⟨o₂, ho₂, hname', hdesc', htype'⟩ := h'.objects ptr o₁ ho₁
  exact ⟨o₂, ho₂, hname'.trans hname, hdesc'.trans hdesc, htype'.trans htype⟩

/-- The registry after a name has been bound for the first time. -/
def bind (r : Registry V) (type : τ) (name : Text) (v : V type) (description : Text) :
    Registry V :=
  { datas := (name, r.objects.length) :: r.datas
    objects := r.objects ++ [Object.create name type v description] }

theorem bind_other {type : τ} {name other : Text} {v : V type} {description : Text}
    (h : other ≠ name) :
    (r.bind type name v description).datas.lookup other = r.datas.lookup other := by
  have hbeq : (other == name) = false := beq_eq_false_iff_ne.mpr h
  simp [bind, List.lookup_cons, hbeq]

theorem kept_bind {type : τ} {name : Text} {v : V type} {description : Text}
    (h : r.datas.lookup name = none) : Kept r (r.bind type name v description) := by
  constructor
  · intro other ptr hother
    have hne : other ≠ name := by
      intro he
      rw [he, h] at hother
      contradiction
    rw [bind_other hne]
    exact hother
  · intro ptr o ho
    have hlt := (List.getElem?_eq_some_iff.mp ho).1
    exact ⟨o, by rw [bind, List.getElem?_append_left hlt, ho], rfl, rfl, rfl⟩

variable [DecidableEq τ]

/-- `Lookup` with a default on a bound name gives back its object or null, whatever the default. -/
theorem lookupDefault_bound {name : Text} {ptr : Nat} (h : r.datas.lookup name = some ptr)
    (type : τ) (v : V type) (description : Text) :
    r.lookupDefault type name v description = (.ok (r.dynamicPointerCast type ptr), r) := by
  unfold lookupDefault
  rw [h]
  cases hcast : r.dynamicPointerCast type ptr with
  | none => simp [hcast]
  | some tmp => simp [hcast]

theorem lookupDefault_free {name : Text} (h : r.datas.lookup name = none) (type : τ) (v : V type)
    (description : Text) :
    r.lookupDefault type name v description =
      if validName name then (.ok (some r.objects.length), r.bind type name v description)
      else (.error name, r) := by
  unfold lookupDefault
  rw [h]
  cases validName name with
  | false => simp
  | true => simp [bind]

theorem lookup_bound {name : Text} {ptr : Nat} (h : r.datas.lookup name = some ptr) (type : τ) :
    r.lookup type name = r.dynamicPointerCast type ptr := by
  unfold lookup
  rw [h]

theorem cast_eq {ptr : Nat} {o : Object V} (h : r.objects[ptr]? = some o) (type : τ) :
    r.dynamicPointerCast type ptr = if o.type = type then some ptr else none := by
  simp [dynamicPointerCast, h]

variable [∀ t, BEq (V t)]

theorem kept_setValue (r : Registry V) (ptr : Nat) (type : τ) (v : V type) :
    Kept r (r.setValue ptr type v) := by
  refine ⟨fun _ _ h => h, ?_⟩
  intro i o ho
  simp only [setValue, List.getElem?_modify, ho, Option.map_eq_map, Option.map_some,
    Option.some.injEq, exists_eq_left']
  split
  · split
    · exact ⟨rfl, rfl, rfl⟩
    · exact ⟨rfl, rfl, rfl⟩
  · exact ⟨rfl, rfl, rfl⟩

/-- What one call can do to the registry. -/
theorem call_cases (r : Registry V) (c : Call V) :
    (r.call c).2 = r ∨
    (∃ type name v description, c = .lookupDefault type name v description ∧
      r.datas.lookup name = none ∧ validName name = true ∧
      (r.call c).2 = r.bind type name v description) ∨
    (∃ ptr type v, c = .setValue ptr type v ∧ (r.call c).2 = r.setValue ptr type v) := by
  cases c with
  | lookupDefault type name v description =>
    cases hfind : r.datas.lookup name with
    | some ptr => exact .inl (by simp [call, lookupDefault_bound hfind])
    | none =>
      cases hvalid : validName name with
      | false => exact .inl (by simp [call, lookupDefault_free hfind, hvalid])
      | true =>
        refine .inr (.inl ⟨type, name, v, description, rfl, hfind, hvalid, ?_⟩)
        simp [call, lookupDefault_free hfind, hvalid]
  | lookup type name => exact .inl rfl
  | setValue ptr type v => exact .inr (.inr ⟨ptr, type, v, rfl, rfl⟩)

theorem kept_call (r : Registry V) (c : Call V) : Kept r (r.call c).2 := by
  obtain he | ⟨type, name, v, description, -, hfree, -, he⟩ | ⟨ptr, type, v, -, he⟩ :=
    call_cases r c
  · rw [he]
    exact .refl r
  · rw [he]
    exact kept_bind hfree
  · rw [he]
    exact kept_setValue r ptr type v

theorem kept_exec {cs : List (Call V)} (h : machine.exec r cs = some r') : Kept r r' := by
  induction cs generalizing r with
  | nil =>
    cases h
    exact .refl r'
  | cons c cs ih => exact (kept_call r c).trans (ih h)

theorem WellFormed.call (h : WellFormed r) (c : Call V) : WellFormed (r.call c).2 := by
  have hkept := kept_call r c
  obtain he | ⟨type, name, v, description, -, hfree, hvalid, he⟩ | ⟨ptr, type, v, -, he⟩ :=
    call_cases r c
  · rw [he]
    exact h
  · rw [he] at hkept ⊢
    constructor
    · intro other ptr hother
      by_cases hne : other = name
      · rw [hne]
        exact hvalid
      · rw [bind_other hne] at hother
        exact h.valid other ptr hother
    · intro other ptr hother
      by_cases hne : other = name
      · have hptr : r.objects.length = ptr := by simpa [bind, hne] using hother
        exact ⟨_, by rw [← hptr, bind, List.getElem?_concat_length]⟩
      · rw [bind_other hne] at hother
        obtain ⟨o, ho⟩ := h.bound other ptr hother
        obtain ⟨o', ho', -⟩ := hkept.objects ptr o ho
        exact ⟨o', ho'⟩
  · rw [he] at hkept ⊢
    refine ⟨fun name ptr hn => h.valid name ptr hn, ?_⟩
    intro name p hn
    obtain ⟨o, ho⟩ := h.bound name p hn
    obtain ⟨o', ho', -⟩ := hkept.objects p o ho
    exact ⟨o', ho'⟩

theorem wellFormed_reachable (hr : machine.Reachable r) : WellFormed r := by
  refine hr.invariant (fun s hs => ?_) (fun s c t hs ht => ?_)
  · rw [hs]
    constructor
    · intro name ptr h
      cases h
    · intro name ptr h
      cases h
  · cases ht
    exact hs.call c

/-- A name is bound once and for all, to an object of one type: whoever comes first decides. Later
calls get that object or null, a rejected name changes nothing, and `Lookup<T>(name)` binds none. -/
theorem lookup_write_once (hr : machine.Reachable r) :
    (∀ cs r', machine.exec r cs = some r' → Kept r r') ∧
    (∀ name ptr, r.datas.lookup name = some ptr → ∃ o, r.objects[ptr]? = some o ∧
      ∀ (type : τ) (v : V type) (description : Text),
        r.call (.lookupDefault type name v description) =
          (some (.ok (if o.type = type then some ptr else none)), r) ∧
        r.call (.lookup type name) = (some (.ok (if o.type = type then some ptr else none)), r)) ∧
    (∀ name, r.datas.lookup name = none → validName name = true →
      ∀ (type : τ) (v : V type) (description : Text),
        ∃ r', r.call (.lookupDefault type name v description) =
          (some (.ok (some r.objects.length)), r') ∧
        r'.datas.lookup name = some r.objects.length ∧
        r'.objects = r.objects ++ [Object.create name type v description]) ∧
    (∀ name, validName name = false → ∀ (type : τ) (v : V type) (description : Text),
      r.call (.lookupDefault type name v description) = (some (.error name), r)) ∧
    ∀ (type : τ) (name : Text), (r.call (.lookup type name)).2 = r := by
  have hwf := wellFormed_reachable hr
  refine ⟨fun cs r' h => kept_exec h, ?_, ?_, ?_, fun _ _ => rfl⟩
  · intro name ptr hfind
    obtain ⟨o, ho⟩ := hwf.bound name ptr hfind
    refine ⟨o, ho, fun type v description => ⟨?_, ?_⟩⟩
    · simp only [call, lookupDefault_bound hfind, cast_eq ho]
    · simp only [call, lookup_bound hfind, cast_eq ho]
  · intro name hfree hvalid type v description
    refine ⟨r.bind type name v description, ?_, ?_, rfl⟩
    · simp only [call, lookupDefault_free hfree, hvalid, if_true]
    · simp [bind]
  · intro name hvalid type v description
    have hfree : r.datas.lookup name = none := by
      cases hfind : r.datas.lookup name with
      | none => rfl
      | some ptr =>
        rw [hwf.valid name ptr hfind] at hvalid
        contradiction
    simp [call, lookupDefault_free hfree, hvalid]

end Calls

/-- `system.port` was bound with type 0; the name with an upper-case letter is refused. -/
theorem lookup_write_once_port :
    let r : Registry (fun _ : Fin 2 => Nat) := (({} : Registry (fun _ : Fin 2 => Nat)).call
      (.lookupDefault 0 (text "system.port") 8080 [])).2
    (r.call (.lookupDefault 1 (text "system.port") 8081 [])).1 = some (.ok none) ∧
      (r.call (.lookupDefault 0 (text "system.port") 9090 [])).1 = some (.ok (some 0)) ∧
      (r.call (.lookupDefault 0 (text "system.Port") 1 [])).1 =
        some (.error (text "system.Port")) := by
  intro r
  have hr : machine.Reachable r := .next (.start rfl) trivial rfl
  obtain ⟨-, hbound, -, hrejected, -⟩ := lookup_write_once hr
  obtain ⟨o, ho, hcalls⟩ := hbound (text "system.port") 0 (by decide)
  have htype : o.type = 0 := by
    cases ho
    rfl
  rw [(hcalls 1 8081 []).1, (hcalls 0 9090 []).1, hrejected (text "system.Port") (by decide) 0 1 [],
    htype]
  decide

end HxSylar.Config.Registry
