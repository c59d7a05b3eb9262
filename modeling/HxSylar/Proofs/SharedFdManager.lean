import HxSylar.SharedFdManager
import HxSylar.Proofs.FdManager

namespace HxSylar

/-- `get(fd, true)` is the lookup and, after a miss, the insertion. -/
theorem FdManager.get_eq_lookup (m : FdManager) (k : Kernel) (fd : Int) :
    m.get k fd true = (m.lookup fd).bind (fun e =>
      match e with
      | some i => some (m, k, some i)
      | none => m.insert k fd) := by
  simp only [FdManager.get, FdManager.lookup]
  split
  · rfl
  · cases he : m.entry fd with
    | none => rfl
    | some e =>
      cases e with
      | none => rfl
      | some i => rfl

/-- Two contexts that answer alike. -/
def FdCtx.Shows (c d : FdCtx) : Prop :=
  (∀ type, c.getTimeout type = d.getTimeout type) ∧ c.userNonblock = d.userNonblock

theorem FdCtx.Shows.apply {c d : FdCtx} (h : c.Shows d) (setting : Setting) :
    (c.apply setting).Shows (d.apply setting) := by
  obtain ⟨htime, huser⟩ := h
  cases setting with
  | userNonblock v => exact ⟨htime, rfl⟩
  | timeout type v =>
    have hrecv := htime soRcvtimeo
    have hsend := htime (soRcvtimeo + 1)
    simp only [getTimeout, ↓reduceIte] at hrecv
    rw [getTimeout, getTimeout, if_neg (by decide), if_neg (by decide)] at hsend
    simp only [FdCtx.apply, setTimeout]
    split
    · exact ⟨fun type' => by simp only [getTimeout, hsend], huser⟩
    · exact ⟨fun type' => by simp only [getTimeout, hrecv], huser⟩

/-- A context no one has set anything through. -/
def FdCtx.fresh (fd : Int) : FdCtx := { fd := fd, sendTimeout := 0xffffffffffffffff }

theorem FdCtx.create_shows (fd : Int) (k : Kernel) : (create fd k).1.Shows (fresh fd) := by
  simp only [create, init]
  cases k fd with
  | none => exact ⟨fun _ => rfl, rfl⟩
  | some flags => exact ⟨fun _ => rfl, rfl⟩

namespace SharedManager

/-- What was set for each descriptor, through whichever context. -/
abbrev View := Int → FdCtx

def viewed (v : View) (_ : SharedManager) (l : Act) (_ : SharedManager) : View :=
  match l with
  | .set fd _ setting => Function.update v fd ((v fd).apply setting)
  | .lookup .. | .insert .. => v

def viewMachine : Lib.Machine (SharedManager × View) Act := machine.observe FdCtx.fresh viewed

/-- The calls for one descriptor returned one context, and every setting is seen through it. -/
def Agreement (p : SharedManager × View) : Prop :=
  (∀ fd i j, (fd, i) ∈ p.1.returned → (fd, j) ∈ p.1.returned → i = j) ∧
    ∀ fd i, (fd, i) ∈ p.1.returned → ∃ c, p.1.manager.ctxs[i]? = some c ∧ c.Shows (p.2 fd)

/-- An insertion finds the entry as empty as its lookup did. -/
def StillEmpty (p : SharedManager × View) : Act → Prop
  | .insert thread _ => ∀ fd ∈ p.1.missed thread, p.1.manager.entry fd = some none
  | .lookup .. | .set .. => True

instance (p : SharedManager × View) (l : Act) : Decidable (StillEmpty p l) :=
  match l with
  | .insert thread _ =>
    inferInstanceAs (Decidable (∀ fd ∈ p.1.missed thread, p.1.manager.entry fd = some none))
  | .lookup .. | .set .. => isTrue trivial

/-- The table and the calls' results tell the same. -/
structure Shared (s : SharedManager) (v : View) : Prop where
  returned : ∀ fd i, (fd, i) ∈ s.returned ↔ s.manager.entry fd = some (some i)
  apart : ∀ fd fd' i, s.manager.entry fd = some (some i) → s.manager.entry fd' = some (some i) →
    fd' = fd
  seen : ∀ fd i, s.manager.entry fd = some (some i) →
    ∃ c, s.manager.ctxs[i]? = some c ∧ c.Shows (v fd)
  untouched : ∀ fd, (∀ i, s.manager.entry fd ≠ some (some i)) → v fd = FdCtx.fresh fd

section Steps
variable {s t : SharedManager} {v : View}

theorem Shared.agreement (h : Shared s v) : Agreement (s, v) := by
  refine ⟨?_, ?_⟩
  · intro fd i j hi hj
    have hentry := (h.returned fd i).mp hi
    rw [(h.returned fd j).mp hj] at hentry
    cases hentry
    rfl
  · intro fd i hi
    exact h.seen fd i ((h.returned fd i).mp hi)

theorem lookup_some {m : FdManager} {fd : Int} {i : CtxId} (h : m.lookup fd = some (some i)) :
    m.entry fd = some (some i) := by
  simp only [FdManager.lookup] at h
  split at h
  · cases h
  · exact h

/-- What each act has done. -/
inductive Move (s t : SharedManager) : Act → Prop
  | found {thread : Nat} {fd : Int} {i : CtxId} : s.manager.entry fd = some (some i) →
      t = { s with returned := (fd, i) :: s.returned } → Move s t (.lookup thread fd)
  | missed {thread : Nat} {fd : Int} :
      t = { s with missed := Function.update s.missed thread (some fd) } →
      Move s t (.lookup thread fd)
  | inserted {thread : Nat} {k : Kernel} {fd : Int} {e : Option CtxId} :
      s.missed thread = some fd → s.manager.entry fd = some e →
      t = { manager := ⟨s.manager.datas.set fd.toNat (some s.manager.ctxs.length),
              s.manager.ctxs ++ [(FdCtx.create fd k).1]⟩
            missed := Function.update s.missed thread none
            returned := (fd, s.manager.ctxs.length) :: s.returned } →
      Move s t (.insert thread k)
  | set {fd : Int} {i : CtxId} {setting : Setting} : (fd, i) ∈ s.returned →
      t = { s with manager := { s.manager with
        ctxs := s.manager.ctxs.modify i (fun c => c.apply setting) } } →
      Move s t (.set fd i setting)

theorem move_of_step {l : Act} (hs : machine.step s l = some t) : Move s t l := by
  cases l with
  | lookup thread fd =>
    simp only [machine, step] at hs
    split at hs
    · obtain ⟨e, he, ht⟩ := Option.map_eq_some_iff.mp hs
      cases e with
      | some i => exact .found (lookup_some he) ht.symm
      | none => exact .missed ht.symm
    · cases hs
  | insert thread k =>
    obtain ⟨fd, hfd, hs⟩ := Option.bind_eq_some_iff.mp hs
    obtain ⟨r, hr, hs⟩ := Option.bind_eq_some_iff.mp hs
    obtain ⟨e, he, hins⟩ := Option.map_eq_some_iff.mp hr
    subst hins
    simp only [Option.map_some, Option.some.injEq] at hs
    exact .inserted hfd he hs.symm
  | set fd i setting =>
    simp only [machine, step] at hs
    split at hs
    · rename_i hmem
      exact .set hmem (Option.some.inj hs).symm
    · cases hs

theorem Shared.inserted (h : Shared s v) {fd : Int} {k : Kernel} {missed : Nat → Option Int}
    (he : s.manager.entry fd = some none)
    (ht : t = { manager := ⟨s.manager.datas.set fd.toNat (some s.manager.ctxs.length),
                  s.manager.ctxs ++ [(FdCtx.create fd k).1]⟩
                missed := missed
                returned := (fd, s.manager.ctxs.length) :: s.returned }) : Shared t v := by
  have hb := FdManager.entry_bounds he
  have hlt : ∀ fd' i, s.manager.entry fd' = some (some i) → i < s.manager.ctxs.length := by
    intro fd' i hi
    obtain ⟨c, hc, _⟩ := h.seen fd' i hi
    exact (List.getElem?_eq_some_iff.mp hc).1
  have hentry : ∀ fd' i, t.manager.entry fd' = some (some i) ↔
      (fd' = fd ∧ i = s.manager.ctxs.length) ∨ s.manager.entry fd' = some (some i) := by
    intro fd' i
    rw [ht, FdManager.entry_set hb]
    by_cases hfd : fd' = fd
    · subst hfd
      rw [if_pos rfl, he]
      simp [eq_comm]
    · simp [hfd]
  refine ⟨?_, ?_, ?_, ?_⟩
  · intro fd' i
    rw [hentry, ht]
    simp only [List.mem_cons, Prod.mk.injEq, h.returned]
  · intro fd₁ fd₂ i h₁ h₂
    rcases (hentry fd₁ i).mp h₁ with ⟨rfl, hi₁⟩ | h₁
    · rcases (hentry fd₂ i).mp h₂ with ⟨rfl, _⟩ | h₂
      · rfl
      · exact absurd hi₁ (Nat.ne_of_lt (hlt fd₂ i h₂))
    · rcases (hentry fd₂ i).mp h₂ with ⟨rfl, hi₂⟩ | h₂
      · exact absurd hi₂ (Nat.ne_of_lt (hlt fd₁ i h₁))
      · exact h.apart fd₁ fd₂ i h₁ h₂
  · intro fd' i hi
    rcases (hentry fd' i).mp hi with ⟨rfl, rfl⟩ | hi
    · refine ⟨(FdCtx.create fd' k).1, ?_, ?_⟩
      · rw [ht]
        exact List.getElem?_concat_length
      · rw [h.untouched fd' (fun i hi => by rw [he] at hi; cases hi)]
        exact FdCtx.create_shows fd' k
    · obtain ⟨c, hc, hshows⟩ := h.seen fd' i hi
      refine ⟨c, ?_, hshows⟩
      rw [ht]
      simp only [List.getElem?_append_left (hlt fd' i hi), hc]
  · intro fd' hnone
    apply h.untouched fd'
    intro i hi
    exact hnone i ((hentry fd' i).mpr (.inr hi))

theorem Shared.set (h : Shared s v) {fd : Int} {i : CtxId} {setting : Setting}
    (hmem : (fd, i) ∈ s.returned)
    (ht : t = { s with manager := { s.manager with
      ctxs := s.manager.ctxs.modify i (fun c => c.apply setting) } }) :
    Shared t (Function.update v fd ((v fd).apply setting)) := by
  have hi := (h.returned fd i).mp hmem
  have hentry : ∀ fd', t.manager.entry fd' = s.manager.entry fd' := by
    intro fd'
    rw [ht]
    rfl
  refine ⟨?_, ?_, ?_, ?_⟩
  · intro fd' j
    rw [hentry, ← h.returned, ht]
  · intro fd₁ fd₂ j h₁ h₂
    rw [hentry] at h₁ h₂
    exact h.apart fd₁ fd₂ j h₁ h₂
  · intro fd' j hj
    rw [hentry] at hj
    obtain ⟨c, hc, hshows⟩ := h.seen fd' j hj
    have hget : t.manager.ctxs[j]? = some (if i = j then c.apply setting else c) := by
      rw [ht]
      simp only [List.getElem?_modify, hc]
      split <;> rfl
    refine ⟨_, hget, ?_⟩
    by_cases hfd : fd' = fd
    · subst hfd
      rw [hi] at hj
      cases hj
      rw [if_pos rfl, Function.update_self]
      exact hshows.apply setting
    · have hij : i ≠ j := by
        intro hij
        subst hij
        exact hfd (h.apart fd fd' i hi hj)
      rw [if_neg hij, Function.update_of_ne hfd]
      exact hshows
  · intro fd' hnone
    simp only [hentry] at hnone
    have hfd : fd' ≠ fd := by
      intro hfd
      subst hfd
      exact hnone i hi
    rw [Function.update_of_ne hfd]
    exact h.untouched fd' hnone

theorem Shared.step {l : Act} (h : Shared s v) (ho : StillEmpty (s, v) l)
    (hs : machine.step s l = some t) : Shared t (viewed v s l t) := by
  cases move_of_step hs with
  | @found _ fd i hi ht =>
    refine ⟨?_, ?_, ?_, ?_⟩
    · intro fd' j
      rw [ht, ← h.returned]
      simp only [List.mem_cons, Prod.mk.injEq, or_iff_right_iff_imp]
      rintro ⟨rfl, rfl⟩
      exact (h.returned fd' j).mpr hi
    · rw [ht]
      exact h.apart
    · rw [ht]
      exact h.seen
    · rw [ht]
      exact h.untouched
  | missed ht =>
    rw [ht]
    exact ⟨h.returned, h.apart, h.seen, h.untouched⟩
  | inserted hfd he ht =>
    exact h.inserted (ho _ hfd) ht
  | set hmem ht => exact h.set hmem ht

/-- A second insertion hands out a second context. -/
theorem Shared.overwritten {l : Act} (h : Shared s v) (ho : ¬StillEmpty (s, v) l)
    (hs : machine.step s l = some t) (v' : View) : ¬Agreement (t, v') := by
  cases move_of_step hs with
  | found => exact absurd trivial ho
  | missed => exact absurd trivial ho
  | set => exact absurd trivial ho
  | @inserted thread k fd e hfd he ht =>
    cases e with
    | none =>
      refine absurd ?_ ho
      intro fd' hfd'
      rw [hfd] at hfd'
      cases hfd'
      exact he
    | some i =>
      intro hagree
      have hold : (fd, i) ∈ t.returned := by
        rw [ht]
        exact List.mem_cons_of_mem _ ((h.returned fd i).mpr he)
      have hnew : (fd, s.manager.ctxs.length) ∈ t.returned := by
        rw [ht]
        exact List.mem_cons_self
      obtain ⟨c, hc, _⟩ := h.seen fd i he
      exact Nat.ne_of_lt (List.getElem?_eq_some_iff.mp hc).1 (hagree.1 fd i _ hold hnew)

theorem shared_start : Shared {} FdCtx.fresh := by
  refine ⟨?_, ?_, ?_, ?_⟩
  · intro fd i
    constructor
    · intro hmem
      cases hmem
    · intro hi
      exact absurd hi (Hooked.entry_new fd i)
  · intro fd fd' i hi
    exact absurd hi (Hooked.entry_new fd i)
  · intro fd i hi
    exact absurd hi (Hooked.entry_new fd i)
  · intro fd _
    rfl

/-- In every run, the calls for a descriptor share one context and its settings throughout
exactly if every insertion finds the entry still empty. -/
theorem one_context_iff {ls : List Act} {q : SharedManager × View}
    (he : viewMachine.exec ({}, FdCtx.fresh) ls = some q) :
    viewMachine.Always Agreement ({}, FdCtx.fresh) ls ↔
      viewMachine.Meets StillEmpty ({}, FdCtx.fresh) ls := by
  refine Lib.Machine.always_iff_meets (I := fun p => Shared p.1 p.2) ?_ ?_ ?_ shared_start he
  · intro p hp
    exact hp.agreement
  · intro p l q hp ho hs
    obtain ⟨hstep, hv⟩ := Lib.Machine.observe_step hs
    rw [hv]
    exact hp.step ho hstep
  · intro p l q hp ho hs
    obtain ⟨hstep, _⟩ := Lib.Machine.observe_step hs
    exact hp.overwritten ho hstep q.2

/-- Two threads one after the other; the second sees what the first has set. -/
theorem one_context_in_turn :
    viewMachine.Always Agreement ({}, FdCtx.fresh)
      [.lookup 0 5, .insert 0 (fun _ => some 2), .set 5 0 (.timeout 20 1000), .lookup 1 5] := by
  have hrun : (viewMachine.execUnder StillEmpty ({}, FdCtx.fresh) [.lookup 0 5,
      .insert 0 (fun _ => some 2), .set 5 0 (.timeout 20 1000), .lookup 1 5]).isSome := by
    decide
  obtain ⟨q, hq⟩ := Option.isSome_iff_exists.mp hrun
  obtain ⟨he, hm⟩ := Lib.Machine.execUnder_some hq
  exact (one_context_iff he).mpr hm

/-- Both threads miss before either inserts. -/
theorem two_contexts : ∃ p, viewMachine.Reachable p ∧ ¬Agreement p := by
  obtain ⟨p, hr, h₀, h₁⟩ := Lib.Machine.exists_of_exec viewMachine (s := ({}, FdCtx.fresh))
    (fun p => (5, 0) ∈ p.1.returned ∧ (5, 1) ∈ p.1.returned)
    [.lookup 0 5, .lookup 1 5, .insert 0 (fun _ => some 2), .insert 1 (fun _ => some 2)]
    ⟨rfl, rfl⟩ (by decide)
  exact ⟨p, hr, fun h => absurd (h.1 5 0 1 h₀ h₁) (by decide)⟩

end Steps
end SharedManager
end HxSylar
