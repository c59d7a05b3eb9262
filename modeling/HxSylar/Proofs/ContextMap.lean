import HxSylar.Proofs.FdManager

namespace HxSylar
open FdManager (Access)

/-- What `FdManager` stands for: a map from descriptors to contexts, and how many contexts
were made so far. -/
structure ContextMap where
  ctx : Int → Option CtxId := fun _ => none
  made : Nat := 0

namespace ContextMap

/-- `get` returns the context that is there, and makes one for a descriptor only when it is
told to and there is none. -/
def access (m : ContextMap) : Access → ContextMap × Option CtxId
  | .get fd autoCreate =>
    match m.ctx fd with
    | some i => (m, some i)
    | none =>
      if autoCreate = true ∧ 0 ≤ fd then
        ({ ctx := Function.update m.ctx fd (some m.made), made := m.made + 1 }, some m.made)
      else (m, none)
  | .del fd => ({ m with ctx := Function.update m.ctx fd none }, none)

def accesses (m : ContextMap) : List Access → List (Option CtxId)
  | [] => []
  | a :: as => (m.access a).2 :: (m.access a).1.accesses as

end ContextMap

/-- The descriptors of a call that `m_datas` has room for. A lookup above it is answered
without it. -/
def FdManager.Access.Fits : Access → Prop
  | .get fd autoCreate => 0 ≤ fd ∧ (autoCreate = true → fd < 64)
  | .del fd => 0 ≤ fd

namespace FdManager

/-- The vector holds the map, which has nothing outside it. -/
structure Represents (m : FdManager) (a : ContextMap) : Prop where
  size : m.datas.length = 64
  made : a.made = m.ctxs.length
  inside : ∀ fd, 0 ≤ fd → fd < 64 → m.entry fd = some (a.ctx fd)
  outside : ∀ fd, ¬(0 ≤ fd ∧ fd < 64) → a.ctx fd = none

section Steps
variable {m : FdManager} {a : ContextMap} {fd : Int}

theorem represents_start : Represents {} {} := by
  refine ⟨rfl, rfl, ?_, fun _ _ => rfl⟩
  intro fd h0 h64
  rw [entry, if_pos h0, List.getElem?_replicate, if_pos (by omega)]

/-- One entry changes on both sides. -/
theorem Represents.set (h : Represents m a) (h0 : 0 ≤ fd) (h64 : fd < 64) (e : Option CtxId)
    {cs : List FdCtx} {n : Nat} (hn : n = cs.length) :
    Represents ⟨m.datas.set fd.toNat e, cs⟩ ⟨Function.update a.ctx fd e, n⟩ := by
  have hb : 0 ≤ fd ∧ fd.toNat < m.datas.length := ⟨h0, by rw [h.size]; omega⟩
  refine ⟨by rw [List.length_set, h.size], hn, ?_, ?_⟩
  · intro fd' h0' h64'
    rw [entry_set hb]
    by_cases he : fd' = fd
    · subst he
      simp only [↓reduceIte, Function.update_self]
    · simp only [he, ↓reduceIte, ne_eq, not_false_eq_true, Function.update_of_ne]
      exact h.inside fd' h0' h64'
  · intro fd' hout
    have he : fd' ≠ fd := by
      intro he
      subst he
      exact hout ⟨h0, h64⟩
    simp only [ne_eq, he, not_false_eq_true, Function.update_of_ne]
    exact h.outside fd' hout

/-- An insertion goes through exactly within the vector. -/
theorem Represents.insert (h : Represents m a) (k : Kernel) (h0 : 0 ≤ fd) (h64 : fd < 64) :
    ∃ m' k', m.insert k fd = some (m', k', some a.made) ∧
      Represents m' ⟨Function.update a.ctx fd (some a.made), a.made + 1⟩ := by
  refine ⟨⟨m.datas.set fd.toNat (some m.ctxs.length), m.ctxs ++ [(FdCtx.create fd k).1]⟩,
    (FdCtx.create fd k).2, ?_, ?_⟩
  · simp only [FdManager.insert, h.inside fd h0 h64, Option.map_some, h.made]
  · rw [h.made]
    exact h.set h0 h64 _ (by simp)

theorem Represents.entry_outside (h : Represents m a) (hout : ¬(0 ≤ fd ∧ fd < 64)) :
    m.entry fd = none := by
  rw [entry]
  split
  · rw [List.getElem?_eq_none]
    rw [h.size]
    omega
  · rfl

theorem Represents.get (h : Represents m a) (k : Kernel) {auto : Bool} (h0 : 0 ≤ fd)
    (hauto : auto = true → fd < 64) :
    ∃ m', m.access k (.get fd auto) = some (m', (a.access (.get fd auto)).2) ∧
      Represents m' (a.access (.get fd auto)).1 := by
  simp only [FdManager.access, FdManager.get, h.size, ContextMap.access]
  by_cases h64 : fd < 64
  · rw [if_neg (by omega), h.inside fd h0 h64]
    cases hc : a.ctx fd with
    | some i => exact ⟨m, rfl, h⟩
    | none =>
      cases auto with
      | false => exact ⟨m, rfl, by simpa using h⟩
      | true =>
        obtain ⟨m', k', hins, hrep⟩ := h.insert k h0 h64
        refine ⟨m', ?_, ?_⟩
        · simp [hins, h0]
        · simpa [h0] using hrep
  · cases auto with
    | true => exact absurd (hauto rfl) h64
    | false =>
      have hc := h.outside fd (fun hin => h64 hin.2)
      rw [if_pos (by omega), hc]
      exact ⟨m, rfl, by simpa using h⟩

theorem Represents.del (h : Represents m a) (k : Kernel) (h0 : 0 ≤ fd) :
    ∃ m', m.access k (.del fd) = some (m', (a.access (.del fd)).2) ∧
      Represents m' (a.access (.del fd)).1 := by
  simp only [FdManager.access, FdManager.del, h.size, ContextMap.access]
  by_cases h64 : fd < 64
  · rw [if_neg (by omega), h.inside fd h0 h64]
    exact ⟨_, rfl, h.set h0 h64 none h.made⟩
  · -- there is nothing to delete on either side
    have hsame : Function.update a.ctx fd none = a.ctx := by
      rw [← h.outside fd (fun hin => h64 hin.2), Function.update_eq_self]
    rw [if_pos (by omega)]
    exact ⟨m, rfl, by rw [hsame]; exact h⟩

theorem Represents.access (h : Represents m a) (k : Kernel) {c : Access} (hc : c.Fits) :
    ∃ m', m.access k c = some (m', (a.access c).2) ∧ Represents m' (a.access c).1 := by
  cases c with
  | get fd auto => exact h.get k hc.1 hc.2
  | del fd => exact h.del k hc

/-- A call that does not fit accesses `m_datas` outside its bounds. -/
theorem Represents.access_outside (h : Represents m a) (k : Kernel) {c : Access} (hc : ¬c.Fits) :
    m.access k c = none := by
  cases c with
  | get fd auto =>
    simp only [Access.Fits, not_and, Classical.not_imp] at hc
    simp only [FdManager.access, FdManager.get, h.size]
    by_cases h0 : 0 ≤ fd
    · obtain ⟨hauto, h64⟩ := hc h0
      subst hauto
      have hnone := h.entry_outside (fun hin => h64 hin.2)
      rw [if_pos (by omega)]
      simp [FdManager.insert, hnone]
    · rw [if_neg (by omega), h.entry_outside (fun hin => h0 hin.1)]
      rfl
  | del fd =>
    simp only [Access.Fits] at hc
    simp only [FdManager.access, FdManager.del, h.size]
    rw [if_neg (by omega), h.entry_outside (fun hin => hc hin.1)]
    rfl

theorem Represents.accesses_fits (h : Represents m a) (cs : List (Kernel × Access)) :
    m.accesses cs = some (a.accesses (cs.map Prod.snd)) ↔ ∀ c ∈ cs, c.2.Fits := by
  induction cs generalizing m a with
  | nil => simp [FdManager.accesses, ContextMap.accesses]
  | cons c cs ih =>
    obtain ⟨k, c⟩ := c
    simp only [FdManager.accesses, List.map_cons, ContextMap.accesses, List.forall_mem_cons]
    by_cases hc : c.Fits
    · obtain ⟨m', hstep, hrep⟩ := h.access k hc
      rw [hstep, Option.bind_some]
      have hrest := ih hrep
      simp only [hc, true_and]
      rw [← hrest]
      constructor
      · intro he
        obtain ⟨rs, hrs, he⟩ := Option.map_eq_some_iff.mp he
        rw [hrs, (List.cons.inj he).2]
      · intro he
        rw [he, Option.map_some]
    · rw [h.access_outside k hc]
      simp [hc]

/-- A sequence of calls stays within `m_datas` and returns what the map returns exactly if no
call has a negative descriptor and none makes a context for a descriptor from 64 on. -/
theorem accesses_iff (cs : List (Kernel × Access)) :
    accesses {} cs = some (ContextMap.accesses {} (cs.map Prod.snd)) ↔ ∀ c ∈ cs, c.2.Fits :=
  represents_start.accesses_fits cs

/-- `accept` returns the sixty-fifth descriptor. -/
theorem get_past_end : ¬∀ cs, accesses {} cs = some (ContextMap.accesses {} (cs.map Prod.snd)) := by
  intro h
  have hcall := h [(fun _ => none, .get 64 true)]
  exact absurd hcall (by decide)

end Steps
end FdManager
end HxSylar
