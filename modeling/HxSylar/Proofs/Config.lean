import HxSylar.Config

namespace HxSylar.ConfigVar
open Lib

section FromString
variable {α : Type*} {throws : Notice α → Bool}

/-- Listeners that do not throw are called as `setValue` calls them. -/
theorem callListeners_quiet {ns : List (Notice α)} (h : ∀ n ∈ ns, throws n = false) :
    callListeners throws ns = (ns, false) := by
  induction ns with
  | nil => rfl
  | cons n ns ih =>
    obtain ⟨hn, hns⟩ := List.forall_mem_cons.mp h
    simp [callListeners, hn, ih hns]

/-- Nobody was told of a value that was not assigned exactly when the first listener throws. -/
theorem callListeners_untold (throws : Notice α → Bool) (old v : α) (cbs : List Nat) :
    callListeners throws (cbs.map fun key => ⟨key, old, v⟩) = ([], true) ↔
      ∃ key, cbs.head? = some key ∧ throws ⟨key, old, v⟩ = true := by
  cases cbs with
  | nil => simp [callListeners]
  | cons key cbs =>
    cases hkey : throws ⟨key, old, v⟩ with
    | true => simp [callListeners, hkey]
    | false => simp [callListeners, hkey]

variable [BEq α] {c : ConfigVar α}

theorem trySetValue_quiet (h : ∀ n, throws n = false) (v : α) :
    c.trySetValue throws v = c.setValue v := by
  unfold trySetValue setValue
  cases c.notify v with
  | none => rfl
  | some notices => simp [callListeners_quiet (fun n _ => h n)]

/-- `fromString` reports success exactly when the variable has the converted value, and after a
failure the old value stands and no listener has taken note of another. -/
def Atomic (c : ConfigVar α) (fromStr : Text → Option α) (throws : Notice α → Bool)
    (val : Text) : Prop :=
  let (result, c', returned) := c.fromString fromStr throws val
  (result = true ↔ ∃ v, fromStr val = some v ∧ c'.getValue = v) ∧
    (result = false → c'.getValue = c.getValue ∧ returned = [])

theorem atomic_converted {fromStr : Text → Option α} {val : Text} {v : α}
    (h : fromStr val = some v) : Atomic c fromStr throws val ↔
      (c.trySetValue throws v).1.val ≠ v ∧ (c.trySetValue throws v).1.val = c.val ∧
        (c.trySetValue throws v).2 = [] := by
  simp only [Atomic, fromString, h, getValue, Bool.false_eq_true, Option.some.injEq,
    exists_eq_left', false_iff, forall_const, ne_eq]

/-- A value that is told to the listeners is assigned unless one of them throws. -/
theorem trySetValue_unequal {v : α} (h : (v == c.val) = false) :
    c.trySetValue throws v =
      let calls := callListeners throws (c.cbs.map fun key => ⟨key, c.val, v⟩)
      (if calls.2 then c else c.assign v, calls.1) := by
  simp [trySetValue, notify, h]

/-- `fromString` always returns false, so it is right only where nothing was to be reported: the
conversion fails, or the value is a different one and `setValue` gives up before anybody is told. -/
theorem fromString_atomic_iff (c : ConfigVar α) (fromStr : Text → Option α)
    (throws : Notice α → Bool) (val : Text) :
    Atomic c fromStr throws val ↔ fromStr val = none ∨
      ∃ v, fromStr val = some v ∧ v ≠ c.val ∧
        ((v == c.val) = true ∨ ∃ key, c.cbs.head? = some key ∧ throws ⟨key, c.val, v⟩ = true) := by
  cases hval : fromStr val with
  | none => simp [Atomic, fromString, hval]
  | some v =>
    simp only [atomic_converted hval, reduceCtorEq, false_or, Option.some.injEq, exists_eq_left']
    cases hbeq : v == c.val with
    | true =>
      have hrun : c.trySetValue throws v = (c, []) := by simp [trySetValue, notify, hbeq]
      rw [hrun]
      simp only [true_or, and_true, ne_eq]
      exact ne_comm
    | false =>
      simp only [Bool.false_eq_true, false_or, trySetValue_unequal hbeq,
        ← callListeners_untold throws c.val v c.cbs]
      generalize callListeners throws (c.cbs.map fun key => ⟨key, c.val, v⟩) = calls
      obtain ⟨returned, threw⟩ := calls
      cases threw with
      -- the value is assigned, and `false` says that it is not
      | false => simp [assign]
      | true =>
        simp only [if_true, Prod.mk.injEq, and_true, true_and]
        exact and_congr_left' ne_comm

/-- `fromString("9")` on a variable of value 8 without listeners. -/
theorem fromString_not_atomic :
    ¬ Atomic ({ val := 8 } : ConfigVar Nat) (fun t => t.head?.map digitValue) (fun _ => false)
      (text "9") := by
  intro h
  have hreported := h.1.mpr ⟨9, by decide, by decide⟩
  revert hreported
  decide

end FromString
end HxSylar.ConfigVar

namespace HxSylar.SharedVar
variable {α : Type*} [BEq α]

/-- The call of `setValue` that notified last: its thread and its value. -/
abbrev Latest (α : Type*) := Option (Nat × α)

def latest (h : Latest α) (s : SharedVar α) (l : Act α) (_ : SharedVar α) : Latest α :=
  match l with
  | .notify thread v => if (s.var.notify v).isSome then some (thread, v) else h
  | .assign _ | .addListener _ | .delListener _ | .clearListener => h

def latestMachine (α : Type*) [BEq α] : Lib.Machine (SharedVar α × Latest α) (Act α) :=
  (machine α).observe none latest

/-- An assignment comes no later than that of the call that notified last, or it assigns that
call's value. -/
def InOrder (p : SharedVar α × Latest α) : Act α → Prop
  | .assign thread => ∀ v ∈ p.1.setting thread, ∀ w ∈ p.2, p.1.setting w.1 ≠ none ∨ v = w.2
  | .notify .. | .addListener _ | .delListener _ | .clearListener => True

/-- The latest call's value is assigned or will be, and a listener was told it last. -/
structure Following (s : SharedVar α) (h : Latest α) : Prop where
  value : ∀ w ∈ h, s.setting w.1 = some w.2 ∨ (s.setting w.1 = none ∧ s.var.val = w.2)
  told : ∀ key ∈ s.var.cbs, ∀ v ∈ s.lastDelivered key, ∃ thread, h = some (thread, v)
  keys : ∀ key ∈ s.var.cbs, key ≤ s.funId
  past : ∀ n ∈ s.notices, n.key ≤ s.funId

section Steps
variable {s t : SharedVar α} {h : Latest α}

instance [DecidableEq α] (p : SharedVar α × Latest α) (l : Act α) : Decidable (InOrder p l) :=
  match l with
  | .assign thread => inferInstanceAs (Decidable
      (∀ v ∈ p.1.setting thread, ∀ w ∈ p.2, p.1.setting w.1 ≠ none ∨ v = w.2))
  | .notify .. | .addListener _ | .delListener _ | .clearListener => isTrue trivial

theorem Following.notified (hf : Following s h) {thread : Nat} {v : α} {notices : List (Notice α)}
    (hn : s.var.notify v = some notices)
    (ht : t = { s with setting := Function.update s.setting thread (some v)
                       notices := notices.reverse ++ s.notices }) :
    Following t (some (thread, v)) := by
  have hnotices : notices = s.var.cbs.map (fun key => ⟨key, s.var.val, v⟩) := by
    simp only [ConfigVar.notify] at hn
    split at hn
    · cases hn
    · exact (Option.some.inj hn).symm
  refine ⟨?_, ?_, ?_, ?_⟩
  · intro w hw
    cases hw
    rw [ht]
    exact .inl (Function.update_self _ _ _)
  · intro key hkey v' hv'
    -- every listener that is there now is among the notices, so no older one counts
    have hmem : (⟨key, s.var.val, v⟩ : Notice α) ∈ notices.reverse := by
      rw [ht] at hkey
      rw [List.mem_reverse, hnotices]
      exact List.mem_map.mpr ⟨key, hkey, rfl⟩
    rw [ht] at hv'
    obtain ⟨n, hfind, hnew⟩ := Option.map_eq_some_iff.mp hv'
    have hsome : (notices.reverse.find? (fun n => n.key == key)).isSome := by
      rw [List.find?_isSome]
      exact ⟨_, hmem, by simp⟩
    obtain ⟨n', hn'⟩ := Option.isSome_iff_exists.mp hsome
    rw [List.find?_append, hn', Option.some_or] at hfind
    cases hfind
    have hfrom := List.mem_of_find?_eq_some hn'
    rw [List.mem_reverse, hnotices] at hfrom
    obtain ⟨key', _, he⟩ := List.mem_map.mp hfrom
    rw [← hnew, ← he]
    exact ⟨thread, rfl⟩
  · rw [ht]
    exact hf.keys
  · intro n hmem
    rw [ht] at hmem ⊢
    rcases List.mem_append.mp hmem with hnew | hold
    · rw [List.mem_reverse, hnotices] at hnew
      obtain ⟨key, hkey, he⟩ := List.mem_map.mp hnew
      rw [← he]
      exact hf.keys key hkey
    · exact hf.past n hold

omit [BEq α] in
theorem Following.assigned (hf : Following s h) {thread : Nat} {v : α}
    (ho : InOrder (s, h) (.assign thread)) (hv : s.setting thread = some v)
    (ht : t = { s with var := s.var.assign v, setting := Function.update s.setting thread none }) :
    Following t h := by
  refine ⟨?_, ?_, ?_, ?_⟩
  · intro w hw
    rw [ht]
    by_cases hthread : w.1 = thread
    · -- the latest call itself assigns its value
      subst hthread
      rcases hf.value w hw with hpending | ⟨hnone, _⟩
      · rw [hv] at hpending
        exact .inr ⟨Function.update_self _ _ _, Option.some.inj hpending⟩
      · rw [hv] at hnone
        cases hnone
    · simp only [ne_eq, hthread, not_false_eq_true, Function.update_of_ne]
      rcases hf.value w hw with hpending | ⟨hnone, _⟩
      · exact .inl hpending
      · rcases ho v hv w hw with hpending | he
        · exact absurd hnone hpending
        · exact .inr ⟨hnone, he⟩
  · rw [ht]
    exact hf.told
  · rw [ht]
    exact hf.keys
  · rw [ht]
    exact hf.past

omit [BEq α] in
/-- Listeners come and go; a new one has not been called yet. -/
theorem Following.listeners (hf : Following s h) {cbs : List Nat} {funId : Nat}
    (ht : t = { s with var := { s.var with cbs := cbs }, funId := funId })
    (hcbs : ∀ key ∈ cbs, key ∈ s.var.cbs ∨ s.funId < key ∧ key ≤ funId)
    (hid : s.funId ≤ funId) : Following t h := by
  refine ⟨?_, ?_, ?_, ?_⟩
  · rw [ht]
    exact hf.value
  · intro key hkey v hv
    rw [ht] at hkey hv
    rcases hcbs key hkey with hold | ⟨hnew, _⟩
    · exact hf.told key hold v hv
    · obtain ⟨n, hfind, _⟩ := Option.map_eq_some_iff.mp hv
      have hkeys := hf.past n (List.mem_of_find?_eq_some hfind)
      have hn : n.key = key := by simpa using List.find?_some hfind
      omega
  · intro key hkey
    rw [ht] at hkey ⊢
    rcases hcbs key hkey with hold | ⟨_, hle⟩
    · exact Nat.le_trans (hf.keys key hold) hid
    · exact hle
  · intro n hmem
    rw [ht] at hmem ⊢
    exact Nat.le_trans (hf.past n hmem) hid

theorem Following.step {l : Act α} (hf : Following s h) (ho : InOrder (s, h) l)
    (hs : (machine α).step s l = some t) : Following t (latest h s l t) := by
  cases l with
  | notify thread v =>
    simp only [machine, SharedVar.step] at hs
    simp only [latest]
    split at hs
    · split at hs
      · rename_i hn
        cases hs
        rw [hn]
        exact hf
      · rename_i notices hn
        rw [hn]
        exact hf.notified hn (Option.some.inj hs).symm
    · cases hs
  | assign thread =>
    obtain ⟨v, hv, ht⟩ := Option.map_eq_some_iff.mp hs
    exact hf.assigned ho hv ht.symm
  | addListener key =>
    simp only [machine, SharedVar.step] at hs
    split at hs
    · rename_i hkey
      refine hf.listeners (Option.some.inj hs).symm ?_ (Nat.le_of_lt hkey)
      intro key' hmem
      rcases List.mem_append.mp hmem with hold | hnew
      · exact .inl hold
      · obtain rfl := List.mem_singleton.mp hnew
        exact .inr ⟨hkey, Nat.le_refl _⟩
    · cases hs
  | delListener key =>
    refine hf.listeners (Option.some.inj hs).symm ?_ (Nat.le_refl _)
    intro key' hmem
    exact .inl (List.mem_of_mem_erase hmem)
  | clearListener =>
    refine hf.listeners (Option.some.inj hs).symm ?_ (Nat.le_refl _)
    intro key' hmem
    cases hmem

theorem following_reachable {p : SharedVar α × Latest α}
    (hr : (latestMachine α).ReachableUnder InOrder p) : Following p.1 p.2 := by
  apply Lib.Machine.ReachableUnder.invariant ?_ ?_ hr
  · intro p hp
    obtain ⟨⟨v, hv⟩, hlatest⟩ := hp
    rw [hv, hlatest]
    refine ⟨?_, ?_, ?_, ?_⟩
    · intro w hw
      cases hw
    · intro key hkey
      cases hkey
    · intro key hkey
      cases hkey
    · intro n hn
      cases hn
  · intro p l q hp ho hs
    obtain ⟨hstep, hlatest⟩ := Lib.Machine.observe_step hs
    rw [hlatest]
    exact hp.step ho hstep

/-- When no call of `setValue` is under way, every listener was last called with the value
that the variable has. -/
theorem listeners_agree {p : SharedVar α × Latest α}
    (hr : (latestMachine α).ReachableUnder InOrder p) (hquiet : ∀ thread, p.1.setting thread = none) :
    ∀ key ∈ p.1.var.cbs, ∀ v ∈ p.1.lastDelivered key, v = p.1.var.getValue := by
  intro key hkey v hv
  have hf := following_reachable hr
  obtain ⟨thread, hlatest⟩ := hf.told key hkey v hv
  rcases hf.value (thread, v) hlatest with hpending | ⟨_, hval⟩
  · rw [hquiet] at hpending
    cases hpending
  · exact hval.symm

/-- A variable with one listener after the calls of two threads, `setValue(10)` in thread 0 and
`setValue(20)` in thread 1, that notified in this order. -/
def afterTwo (val : Nat) (last first : Nat) : SharedVar Nat × Latest Nat :=
  ({ var := { val := val, cbs := [1] }
     setting := Function.update (Function.update (Function.update (Function.update
       (fun _ => none) 0 (some 10)) 1 (some 20)) first none) last none
     notices := [⟨1, 0, 20⟩, ⟨1, 0, 10⟩]
     funId := 1 }, some (1, 20))

theorem afterTwo_quiet (val : Nat) {last first : Nat} (h : last = 0 ∧ first = 1 ∨ last = 1 ∧ first = 0)
    (thread : Nat) : (afterTwo val last first).1.setting thread = none := by
  simp only [afterTwo, Function.update_apply]
  grind

/-- The calls overlap but assign as they notified. -/
theorem listeners_agree_overlap :
    (latestMachine Nat).ReachableUnder InOrder (afterTwo 20 1 0) ∧
      (afterTwo 20 1 0).1.lastDelivered 1 = some 20 ∧
      ∀ key ∈ (afterTwo 20 1 0).1.var.cbs, ∀ v ∈ (afterTwo 20 1 0).1.lastDelivered key,
        v = (afterTwo 20 1 0).1.var.getValue := by
  have hexec : (latestMachine Nat).execUnder InOrder ({ var := { val := 0 } }, none)
      [.addListener 1, .notify 0 10, .notify 1 20, .assign 0, .assign 1] =
      some (afterTwo 20 1 0) := rfl
  have hr : (latestMachine Nat).ReachableUnder InOrder (afterTwo 20 1 0) :=
    Lib.Machine.ReachableUnder.execUnder (.start ⟨⟨0, rfl⟩, rfl⟩) hexec
  exact ⟨hr, rfl, listeners_agree hr (afterTwo_quiet 20 (.inr ⟨rfl, rfl⟩))⟩

/-- They assign the other way round. -/
theorem listeners_stale :
    ¬∀ p, (latestMachine Nat).Reachable p → (∀ thread, p.1.setting thread = none) →
      ∀ key ∈ p.1.var.cbs, ∀ v ∈ p.1.lastDelivered key, v = p.1.var.getValue := by
  intro hall
  have hr : (latestMachine Nat).Reachable (afterTwo 10 0 1) :=
    Lib.Machine.reachable_of_exec (s := ({ var := { val := 0 } }, none))
      [.addListener 1, .notify 0 10, .notify 1 20, .assign 1, .assign 0] ⟨⟨0, rfl⟩, rfl⟩ rfl
  have hquiet := afterTwo_quiet 10 (.inl ⟨rfl, rfl⟩)
  exact absurd (hall _ hr hquiet 1 (by decide) 20 rfl) (by decide)

end Steps
end HxSylar.SharedVar
