import HxSylar.FdTable

namespace HxSylar

theorem castInt_le (n : Nat) : castInt n ≤ n := by
  simp only [castInt]
  split <;> omega

theorem castInt_of_le {n : Nat} (h : n ≤ intMax) : castInt n = n := by
  have hlow : n % 4294967296 = n := Nat.mod_eq_of_lt (Nat.lt_of_le_of_lt h (by decide))
  simp only [castInt, hlow, h, ↓reduceIte]

/-- Past `INT_MAX` the size of a table of any reachable length reads as negative. -/
theorem castInt_neg {n : Nat} (h : intMax < n) (h' : n < 4294967296) : castInt n < 0 := by
  simp only [castInt, Nat.mod_eq_of_lt h', Nat.not_le.mpr h, ↓reduceIte]
  omega

namespace FdTable

@[simp] theorem contextResize_length (t : FdTable) (size : Nat) :
    (t.contextResize size).contexts.length = size := by
  simp only [contextResize, List.length_append, List.length_take, List.length_range']
  omega

/-- A table that does not shrink keeps every context it had. -/
theorem contextResize_keeps {t : FdTable} {size i : Nat} {c : ContextId}
    (hsize : t.contexts.length ≤ size) (hc : t.contexts[i]? = some c) :
    (t.contextResize size).contexts[i]? = some c := by
  have hi : i < t.contexts.length := (List.getElem?_eq_some_iff.mp hc).1
  rw [contextResize, List.take_of_length_le hsize, List.getElem?_append_left hi]
  exact hc

theorem index_of_lt {t : FdTable} (fd : Fd) (h : fd.val < t.contexts.length) :
    ∃ c, t.index fd = .context c ∧ t.contexts[fd.val]? = some c := by
  refine ⟨t.contexts[fd.val], ?_, List.getElem?_eq_getElem h⟩
  simp [index, List.getElem?_eq_getElem h]

theorem index_context {t : FdTable} {fd : Fd} {c : ContextId} :
    t.index fd = .context c ↔ t.contexts[fd.val]? = some c := by
  unfold index
  split <;> simp_all

theorem lookup_delEvent (t : FdTable) (fd : Fd) : t.lookup .delEvent fd =
    if t.contexts.length ≤ fd.val then .noContext else t.index fd := rfl

theorem lookup_cast {op : Op} (t : FdTable) (fd : Fd) (h : op ≠ .delEvent) : t.lookup op fd =
    if castInt t.contexts.length ≤ fd.val then .noContext else t.index fd := by
  cases op with
  | delEvent => exact absurd rfl h
  | addEvent | cancelEvent | cancelAll => rfl

/-- While sizes fit an `int`, the two comparisons agree. -/
theorem lookup_eq {t : FdTable} (op : Op) (fd : Fd) (hsize : t.contexts.length ≤ intMax) :
    t.lookup op fd = if t.contexts.length ≤ fd.val then .noContext else t.index fd := by
  by_cases hop : op = .delEvent
  · rw [hop, lookup_delEvent]
  · rw [lookup_cast t fd hop, castInt_of_le hsize]
    simp only [Int.ofNat_le]

/-- While sizes fit an `int`, every kind of lookup finds what the table holds. -/
theorem lookup_context {t : FdTable} {op : Op} {fd : Fd} {c : ContextId}
    (hsize : t.contexts.length ≤ intMax) (hc : t.contexts[fd.val]? = some c) :
    t.lookup op fd = .context c := by
  have hlt : fd.val < t.contexts.length := (List.getElem?_eq_some_iff.mp hc).1
  rw [lookup_eq op fd hsize, if_neg (Nat.not_le.mpr hlt)]
  exact index_context.mpr hc

/-- Nothing but addEvent's own resize can index past the end. -/
theorem lookup_in_bounds (t : FdTable) (op : Op) (fd : Fd) : t.lookup op fd ≠ .outOfBounds := by
  have hle := castInt_le t.contexts.length
  have hin : fd.val < t.contexts.length → t.index fd ≠ .outOfBounds := by
    intro h
    obtain ⟨c, hc, _⟩ := index_of_lt fd h
    simp [hc]
  by_cases hop : op = .delEvent
  · rw [hop, lookup_delEvent]
    split
    · simp
    · exact hin (by omega)
  · rw [lookup_cast t fd hop]
    split
    · simp
    · exact hin (by omega)

theorem newSize_gt {fd : Fd} (h : 32 ≤ newSize fd) : fd.val < newSize fd := by
  unfold newSize at h ⊢
  omega

theorem newSize_lt (fd : Fd) : newSize fd < 4294967296 := by
  have := fd.isInt
  unfold intMax at this
  unfold newSize
  omega

end FdTable

namespace FdTableState
open Lib FdTable
variable {T : Type} [DecidableEq T]

/-- The table never shrank, no call indexed past its end, and every call on a
descriptor found the context that the earlier ones had found. -/
structure Stable (h : History) : Prop where
  grows : h.sizes.Pairwise (fun later earlier => earlier ≤ later)
  inBounds : ∀ u ∈ h.uses, u.found ≠ .outOfBounds
  same : h.uses.Pairwise (fun later earlier => later.fd = earlier.fd →
    ∀ c, earlier.found = .context c → later.found = .context c)

/-- A resize finds a table no longer than the size it asks for, and asks for a
size that an `int` can hold. -/
def RoomLeft (s : FdTableState T) : Label T → Prop
  | .grow t => ∀ fd, s.growing t = some fd →
      s.table.contexts.length ≤ newSize fd ∧ newSize fd ≤ intMax
  | _ => True

/-- The table against its history. -/
structure Tracks (t : FdTable) (h : History) : Prop where
  least : 32 ≤ t.contexts.length
  fits : t.contexts.length ≤ intMax
  sizes : ∀ n ∈ h.sizes, n ≤ t.contexts.length
  uses : ∀ u ∈ h.uses, ∀ c, u.found = .context c → t.contexts[u.fd.val]? = some c
  stable : Stable h

/-- A lookup that agrees with the table may be written down. -/
theorem Tracks.use {t : FdTable} {h : History} {u : Use} (ht : Tracks t h)
    (hin : u.found ≠ .outOfBounds)
    (hfound : ∀ c, t.contexts[u.fd.val]? = some c → u.found = .context c)
    (hback : ∀ c, u.found = .context c → t.contexts[u.fd.val]? = some c) :
    Tracks t { h with uses := u :: h.uses } where
  least := ht.least
  fits := ht.fits
  sizes := ht.sizes
  uses := by
    intro v hv
    rcases List.mem_cons.mp hv with rfl | hv
    · exact hback
    · exact ht.uses v hv
  stable := by
    refine ⟨ht.stable.grows, ?_, ?_⟩
    · intro v hv
      rcases List.mem_cons.mp hv with rfl | hv
      · exact hin
      · exact ht.stable.inBounds v hv
    · refine List.pairwise_cons.mpr ⟨?_, ht.stable.same⟩
      intro v hv hfd c hc
      apply hfound c
      rw [hfd]
      exact ht.uses v hv c hc

theorem Tracks.size {t : FdTable} {h : History} (ht : Tracks t h) :
    Tracks t { h with sizes := t.contexts.length :: h.sizes } where
  least := ht.least
  fits := ht.fits
  sizes := by
    intro n hn
    rcases List.mem_cons.mp hn with rfl | hn
    · exact Nat.le_refl _
    · exact ht.sizes n hn
  uses := ht.uses
  stable := ⟨List.pairwise_cons.mpr ⟨ht.sizes, ht.stable.grows⟩, ht.stable.inBounds, ht.stable.same⟩

theorem Tracks.resize {t : FdTable} {h : History} {size : Nat} (ht : Tracks t h)
    (hroom : t.contexts.length ≤ size) (hfits : size ≤ intMax) :
    Tracks (t.contextResize size) h where
  least := by
    rw [contextResize_length]
    exact Nat.le_trans ht.least hroom
  fits := by
    rw [contextResize_length]
    exact hfits
  sizes := by
    intro n hn
    rw [contextResize_length]
    exact Nat.le_trans (ht.sizes n hn) hroom
  uses := fun u hu c hc => contextResize_keeps hroom (ht.uses u hu c hc)
  stable := ht.stable

theorem Tracks.step {s t : FdTableState T} {h : History} {l : Label T} {u : Option Use}
    (ht : Tracks s.table h) (hok : RoomLeft s l) (hs : s.region l = some (t, u)) :
    Tracks t.table (h.after s l t) := by
  have hafter : h.after s l t =
      ⟨u.toList ++ h.uses, t.table.contexts.length :: h.sizes⟩ := by
    simp [History.after, hs]
  rw [hafter]
  cases l with
  | check x fd =>
    simp only [region] at hs
    split at hs
    · cases hs
    · split at hs
      · rename_i hgt
        cases hs
        have hle := castInt_le s.table.contexts.length
        obtain ⟨c, hidx, hc⟩ := index_of_lt (t := s.table) fd (by omega)
        refine (ht.use (u := ⟨fd, .addEvent, s.table.index fd⟩) ?_ ?_ ?_).size
        · simp [hidx]
        · exact fun c hc => index_context.mpr hc
        · exact fun c hc => index_context.mp hc
      · cases hs
        exact ht.size
  | grow x =>
    simp only [region] at hs
    split at hs
    · cases hs
    · rename_i fd hfd
      cases hs
      obtain ⟨hroom, hfits⟩ := hok fd hfd
      have hlt := newSize_gt (Nat.le_trans ht.least hroom)
      obtain ⟨c, hidx, hc⟩ := index_of_lt
        (t := s.table.contextResize (newSize fd)) fd (by simpa using hlt)
      refine ((ht.resize hroom hfits).use
        (u := ⟨fd, .addEvent, (s.table.contextResize (newSize fd)).index fd⟩) ?_ ?_ ?_).size
      · simp [hidx]
      · exact fun c hc => index_context.mpr hc
      · exact fun c hc => index_context.mp hc
  | other op fd =>
    simp only [region] at hs
    split at hs
    · cases hs
    · cases hs
      refine (ht.use (u := ⟨fd, op, s.table.lookup op fd⟩) (lookup_in_bounds _ _ _) ?_ ?_).size
      · exact fun c hc => lookup_context ht.fits hc
      · intro c hc
        simp only [lookup_eq op fd ht.fits] at hc
        split at hc
        · cases hc
        · exact index_context.mp hc

/-- A state of a run together with the history kept beside it. -/
def Cautious (p : FdTableState T × History) (l : Label T) : Prop := RoomLeft p.1 l

theorem reachable_tracks {p : FdTableState T × History}
    (h : (recorded T).ReachableUnder Cautious p) : Tracks p.1.table p.2 := by
  refine Machine.ReachableUnder.invariant (P := fun p => Tracks p.1.table p.2) ?_ ?_ h
  · intro ⟨s, h⟩ hinit
    obtain ⟨rfl, rfl⟩ := hinit
    exact ⟨by simp, by simp [intMax], by simp, by simp, ⟨by simp, by simp, .nil⟩⟩
  · intro ⟨s, h⟩ l ⟨t, h'⟩ ht hok hstep
    obtain ⟨hs, hh⟩ := Machine.observe_step hstep
    obtain ⟨⟨t', u⟩, hr, ht'⟩ := Option.map_eq_some_iff.mp hs
    simp only at hh ht'
    subst hh ht'
    exact ht.step hok hr

/-- The history ends with the size the table has now. -/
theorem reachable_size {p : FdTableState T × History} (h : (recorded T).Reachable p) :
    p.1.table.contexts.length ∈ p.2.sizes := by
  refine Machine.Reachable.invariant
    (P := fun p => p.1.table.contexts.length ∈ p.2.sizes) ?_ ?_ h
  · intro ⟨s, h⟩ hinit
    obtain ⟨rfl, rfl⟩ := hinit
    simp
  · intro ⟨s, h⟩ l ⟨t, h'⟩ _ hstep
    obtain ⟨_, hh⟩ := Machine.observe_step hstep
    simp only at hh
    simp [hh, History.after]

theorem recorded_grow {s : FdTableState T} {h : History} {x : T} {fd : Fd}
    (hx : s.growing x = some fd) :
    (recorded T).step (s, h) (.grow x) =
      some (⟨s.table.contextResize (newSize fd), Function.update s.growing x none⟩,
        ⟨⟨fd, .addEvent, (s.table.contextResize (newSize fd)).index fd⟩ :: h.uses,
          newSize fd :: h.sizes⟩) := by
  simp [recorded, Machine.observe, machine, region, hx, History.after]

theorem recorded_cancelEvent (s : FdTableState T) (h : History) (fd : Fd) :
    (recorded T).step (s, h) (.other .cancelEvent fd) =
      some (s, ⟨⟨fd, .cancelEvent, s.table.lookup .cancelEvent fd⟩ :: h.uses,
        s.table.contexts.length :: h.sizes⟩) := by
  simp [recorded, Machine.observe, machine, region, History.after]

/-- A resize that leaves no room shows in the history after the next lookup. -/
theorem grow_breaks {t : FdTable} {h : History} {fd : Fd}
    (hsize : t.contexts.length ∈ h.sizes)
    (hbad : ¬ (t.contexts.length ≤ newSize fd ∧ newSize fd ≤ intMax)) :
    ¬ Stable ⟨⟨fd, .cancelEvent, (t.contextResize (newSize fd)).lookup .cancelEvent fd⟩ ::
        ⟨fd, .addEvent, (t.contextResize (newSize fd)).index fd⟩ :: h.uses,
      newSize fd :: newSize fd :: h.sizes⟩ := by
  intro hst
  by_cases hroom : t.contexts.length ≤ newSize fd
  · have hbig : intMax < newSize fd := Nat.not_le.mp (fun hle => hbad ⟨hroom, hle⟩)
    have hlt : fd.val < newSize fd := newSize_gt (Nat.le_of_lt (Nat.lt_trans (by decide) hbig))
    obtain ⟨c, hidx, _⟩ := index_of_lt
      (t := t.contextResize (newSize fd)) fd (by simpa using hlt)
    -- The size reads as a negative `int`, so cancelEvent gives up before indexing.
    have hneg := castInt_neg hbig (newSize_lt fd)
    have hmiss : (t.contextResize (newSize fd)).lookup .cancelEvent fd = .noContext := by
      rw [lookup_cast _ fd (by decide), contextResize_length, if_pos (by omega)]
    have hsame := (List.pairwise_cons.mp hst.same).1 _ List.mem_cons_self rfl c hidx
    simp only [hmiss] at hsame
    cases hsame
  · have hle := (List.pairwise_cons.mp hst.grows).1 _ (List.mem_cons_of_mem _ hsize)
    exact hroom hle

/-- The descriptor table is stable in every run whose resizes all leave room. The
condition is exact: after the first resize that does not, the table has shrunk, or
its size no longer fits an `int` and the next cancelEvent on the same descriptor
misses the context addEvent has just used. -/
theorem fd_table_stable :
    (∀ p : FdTableState T × History, (recorded T).ReachableUnder Cautious p → Stable p.2) ∧
    ∀ p : FdTableState T × History, (recorded T).ReachableUnder Cautious p →
      ∀ l q, (recorded T).step p l = some q → ¬ Cautious p l →
      ∃ l' q', (recorded T).step q l' = some q' ∧ ¬ Stable q'.2 := by
  constructor
  · intro p hr
    exact (reachable_tracks hr).stable
  · rintro ⟨s, h⟩ hr l q hstep hbad
    cases l with
    | check | other => exact absurd trivial hbad
    | grow x =>
      simp only [Cautious, RoomLeft, not_forall] at hbad
      obtain ⟨fd, hx, hbad⟩ := hbad
      rw [recorded_grow hx] at hstep
      cases hstep
      refine ⟨.other .cancelEvent fd, _, recorded_cancelEvent _ _ fd, ?_⟩
      simp only [contextResize_length]
      exact grow_breaks (reachable_size hr.reachable) hbad

/-- Two threads find 32 contexts too few, one for descriptor 60 and one for 40. The
second resize cuts the table back to 60, and the context of descriptor 60 is lost. -/
theorem fd_table_unstable :
    ∃ p : FdTableState (Fin 2) × History, (recorded (Fin 2)).Reachable p ∧
      p.2.sizes.take 3 = [60, 60, 90] ∧
      p.2.uses.map Use.found = [.noContext, .context 40, .context 60] ∧ ¬ Stable p.2 := by
  have hr : (recorded (Fin 2)).Reachable _ := Machine.reachable_of_exec
    (s := (({ table := FdTable.contextResize {} 32 } : FdTableState (Fin 2)), { sizes := [32] }))
    [.check 0 ⟨60, by decide⟩, .check 1 ⟨40, by decide⟩, .grow 0, .grow 1,
      .other .delEvent ⟨60, by decide⟩] ⟨rfl, rfl⟩ rfl
  refine ⟨_, hr, rfl, rfl, ?_⟩
  intro h
  have hle : 90 ≤ 60 := (List.pairwise_cons.mp h.grows).1 90 (by decide)
  omega

end FdTableState
end HxSylar
