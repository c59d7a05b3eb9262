import HxSylar.Servlet
import Mathlib.Data.List.Nodup
import Mathlib.Data.List.TakeWhile

namespace HxSylar.ServletDispatch
open Lib
variable {σ κ : Type*}

/-- A call and the servlet it registers. -/
inductive Entry (σ κ : Type*)
  /-- `addServlet` with a servlet. -/
  | exact (uri : String) (slt : ServletPtr σ κ)
  /-- `addServlet` with a callback, for which the servlet of that number is made. -/
  | callback (uri : String) (n : Nat) (cb : κ)
  /-- `addGlobServlet`, either overload. -/
  | glob (uri : String) (slt : ServletPtr σ κ)
  | del (uri : String)
  deriving DecidableEq, Repr

namespace Entry

def uri : Entry σ κ → String
  | .exact uri _ | .callback uri _ _ | .glob uri _ | .del uri => uri

def isCallback : Entry σ κ → Bool
  | .callback .. => true
  | _ => false

def ptr : Entry σ κ → ServletPtr σ κ
  | .exact _ slt | .glob _ slt => slt
  | .callback _ n cb => some (.function n cb)
  | .del _ => none

/-- What a call says of the servlet added for its uri: this one, or none any more. -/
def added : Entry σ κ → Option (Option (ServletPtr σ κ))
  | .exact _ slt => some (some slt)
  | .callback _ n cb => some (some (some (.function n cb)))
  | .del _ => some none
  | .glob .. => none

def addedGlob : Entry σ κ → Option (ServletPtr σ κ)
  | .glob _ slt => some slt
  | _ => none

/-- What a call does to `m_datas`. -/
def stored : Entry σ κ → Option (Option (ServletPtr σ κ))
  | .callback .. => none
  | e => e.added

/-- What a call does to `m_globs`. -/
def listed : Entry σ κ → Option (ServletPtr σ κ)
  | .callback _ n cb => some (some (.function n cb))
  | e => e.addedGlob

end Entry

def entry (d : ServletDispatch σ κ) : Act σ κ → Entry σ κ
  | .addServlet uri slt => .exact uri slt
  | .addServletCallback uri cb => .callback uri d.made cb
  | .addGlobServlet uri slt => .glob uri slt
  | .addGlobServletCallback uri cb => .glob uri (some (.function d.made cb))
  | .delServlet uri => .del uri

/-- The dispatch with the calls made on it, the latest first. -/
def history : Machine (ServletDispatch σ κ × List (Entry σ κ)) (Act σ κ) :=
  machine.observe [] (fun es d a _ => entry d a :: es)

/-- The calls for one uri. -/
def calls (uri : String) (es : List (Entry σ κ)) : List (Entry σ κ) :=
  es.filter (fun e => e.uri == uri)

/-- The servlet of the latest `addServlet` that no `delServlet` follows. -/
def latest (uri : String) (es : List (Entry σ κ)) : Option (ServletPtr σ κ) :=
  ((calls uri es).findSome? Entry.added).join

/-- The servlet of the latest `addGlobServlet`. -/
def latestGlob (uri : String) (es : List (Entry σ κ)) : Option (ServletPtr σ κ) :=
  (calls uri es).findSome? Entry.addedGlob

/-- The table finds what was registered. -/
def Finds (d : ServletDispatch σ κ) (es : List (Entry σ κ)) (uri : String) : Prop :=
  d.getServlet uri = (latest uri es).join ∧
    d.getMatchServlet uri = (latest uri es).getD ((latestGlob uri es).getD d.default) ∧
    (d.globs.map Prod.fst).Nodup

/-- The calls after the latest `addServlet` with a callback. -/
def since (es : List (Entry σ κ)) : List (Entry σ κ) := es.takeWhile (fun e => !e.isCallback)

/-- The calls for a uri after which the table is right: none registers a callback, or a servlet has
been added since and stands, or it was deleted since and a glob added since. -/
def Sound (es : List (Entry σ κ)) : Prop :=
  (∀ e ∈ es, e.isCallback = false) ∨ (∃ slt, (since es).findSome? Entry.added = some (some slt)) ∨
    ((since es).findSome? Entry.added = some none ∧
      ∃ slt, (since es).findSome? Entry.addedGlob = some slt)

section Keys
variable {α : Type*} {uri u : String} {l : List (String × α)}

theorem find?_eraseP_of_ne (h : uri ≠ u) :
    (l.eraseP (fun e => e.1 == uri)).find? (fun e => e.1 == u) = l.find? (fun e => e.1 == u) := by
  induction l with
  | nil => rfl
  | cons e l ih =>
    rw [List.eraseP_cons, List.find?_cons]
    cases he : e.1 == uri with
    | true =>
      have hne : (e.1 == u) = false := beq_false_of_ne (fun heq => h ((eq_of_beq he).symm.trans heq))
      rw [hne]
      rfl
    | false =>
      rw [cond_false, List.find?_cons, ih]

theorem not_mem_keys_eraseP (h : (l.map Prod.fst).Nodup) :
    uri ∉ (l.eraseP (fun e => e.1 == uri)).map Prod.fst := by
  induction l with
  | nil => exact List.not_mem_nil
  | cons e l ih =>
    obtain ⟨hnot, hl⟩ := List.nodup_cons.mp h
    rw [List.eraseP_cons]
    cases he : e.1 == uri with
    | true =>
      rw [cond_true, ← eq_of_beq he]
      exact hnot
    | false =>
      rw [cond_false, List.map_cons, List.mem_cons, not_or]
      exact ⟨fun heq => ne_of_beq_false he heq.symm, ih hl⟩

end Keys

theorem findGlob_addGlobServlet (d : ServletDispatch σ κ) (h : (d.globs.map Prod.fst).Nodup)
    (uri u : String) (slt : ServletPtr σ κ) :
    (d.addGlobServlet uri slt).findGlob u = if uri = u then some slt else d.findGlob u := by
  rw [findGlob, addGlobServlet, List.find?_append]
  split
  · rename_i heq
    subst heq
    have hnone : (d.globs.eraseP (fun e => e.1 == uri)).find? (fun e => e.1 == uri) = none := by
      rw [List.find?_eq_none]
      intro e he hkey
      exact not_mem_keys_eraseP h (List.mem_map.mpr ⟨e, he, eq_of_beq hkey⟩)
    rw [hnone, List.find?_cons]
    simp
  · rename_i hne
    have hlast : [(uri, slt)].find? (fun e => e.1 == u) = none := by simp [hne]
    rw [find?_eraseP_of_ne hne, hlast, Option.or_none, findGlob]

theorem nodup_addGlobServlet (d : ServletDispatch σ κ) (h : (d.globs.map Prod.fst).Nodup)
    (uri : String) (slt : ServletPtr σ κ) :
    ((d.addGlobServlet uri slt).globs.map Prod.fst).Nodup := by
  rw [addGlobServlet, List.map_append, List.nodup_append]
  refine ⟨h.sublist (List.eraseP_sublist.map _), List.nodup_singleton _, ?_⟩
  intro k hk k' hk' heq
  rw [List.map_singleton, List.mem_singleton] at hk'
  exact not_mem_keys_eraseP h (heq.trans hk' ▸ hk)

/-- The containers hold what the calls put in them, and servlets have the numbers of their
making. -/
structure Traced (d : ServletDispatch σ κ) (es : List (Entry σ κ)) : Prop where
  datas : ∀ uri, d.datas uri = ((calls uri es).findSome? Entry.stored).join
  globs : ∀ uri, d.findGlob uri = (calls uri es).findSome? Entry.listed
  nodup : (d.globs.map Prod.fst).Nodup
  default : d.default = some .notFound
  made : ∀ e ∈ es, Exists d.made e.ptr
  ordered : es.Pairwise (fun new old => ∀ uri n cb, new = .callback uri n cb → Exists n old.ptr)

theorem Exists.mono {made made' : Nat} {slt : ServletPtr σ κ} (h : Exists made slt)
    (hle : made ≤ made') : Exists made' slt := by
  match slt with
  | some (.function n cb) => exact Nat.lt_of_lt_of_le h hle
  | some (.given slt) => trivial
  | some .notFound => trivial
  | none => trivial

theorem calls_cons (uri : String) (e : Entry σ κ) (es : List (Entry σ κ)) :
    calls uri (e :: es) = if e.uri = uri then e :: calls uri es else calls uri es := by
  simp [calls, List.filter_cons]

/-- A call whose entry goes into the containers as the entry says. -/
theorem Traced.cons {d d' : ServletDispatch σ κ} {es : List (Entry σ κ)} (h : Traced d es)
    (e : Entry σ κ)
    (hdatas : ∀ u, d'.datas u = if e.uri = u then e.stored.elim (d.datas u) id else d.datas u)
    (hglobs : ∀ u, d'.findGlob u = if e.uri = u then e.listed.or (d.findGlob u) else d.findGlob u)
    (hnodup : (d'.globs.map Prod.fst).Nodup) (hdefault : d'.default = d.default)
    (hmade : d.made ≤ d'.made) (hptr : Exists d'.made e.ptr)
    (hnew : ∀ uri n cb, e = .callback uri n cb → n = d.made) : Traced d' (e :: es) where
  datas u := by
    rw [hdatas, calls_cons, h.datas]
    split
    · rw [List.findSome?_cons]
      cases e.stored with
      | none => rfl
      | some slt => rfl
    · rfl
  globs u := by
    rw [hglobs, calls_cons, h.globs]
    split
    · rw [List.findSome?_cons]
      cases e.listed with
      | none => rfl
      | some slt => rfl
    · rfl
  nodup := hnodup
  default := hdefault.trans h.default
  made := by
    rw [List.forall_mem_cons]
    exact ⟨hptr, fun e' he' => (h.made e' he').mono hmade⟩
  ordered := by
    rw [List.pairwise_cons]
    refine ⟨?_, h.ordered⟩
    intro old hold uri n cb heq
    rw [hnew uri n cb heq]
    exact h.made old hold

/-- The calls that write `m_datas`. -/
theorem Traced.update {d : ServletDispatch σ κ} {es : List (Entry σ κ)} (h : Traced d es)
    (e : Entry σ κ) {slt : Option (ServletPtr σ κ)} (hstored : e.stored = some slt)
    (hlisted : e.listed = none) (hptr : Exists d.made e.ptr) (hnew : e.isCallback = false) :
    Traced { d with datas := Function.update d.datas e.uri slt } (e :: es) := by
  refine h.cons e ?_ ?_ h.nodup rfl (Nat.le_refl _) hptr ?_
  · intro u
    rw [hstored]
    exact (Function.update_apply _ _ _ _).trans (if_congr eq_comm rfl rfl)
  · intro u
    rw [hlisted, Option.none_or, ite_self]
    rfl
  · rintro uri n cb rfl
    cases hnew

/-- The calls that add to `m_globs`. -/
theorem Traced.addGlob {d : ServletDispatch σ κ} {es : List (Entry σ κ)} (h : Traced d es)
    (e : Entry σ κ) {slt : ServletPtr σ κ} (hstored : e.stored = none)
    (hlisted : e.listed = some slt) {made : Nat} (hmade : d.made ≤ made) (hptr : Exists made e.ptr)
    (hnew : ∀ uri n cb, e = .callback uri n cb → n = d.made) :
    Traced (({ d with made := made } : ServletDispatch σ κ).addGlobServlet e.uri slt) (e :: es) := by
  refine h.cons e ?_ ?_ (nodup_addGlobServlet _ h.nodup _ _) rfl hmade hptr hnew
  · intro u
    rw [hstored, Option.elim_none, ite_self]
    rfl
  · intro u
    rw [hlisted, Option.some_or]
    exact findGlob_addGlobServlet { d with made := made } h.nodup e.uri u slt

theorem Traced.step {s t : ServletDispatch σ κ × List (Entry σ κ)} {a : Act σ κ}
    (h : Traced s.1 s.2) (hs : history.step s a = some t) : Traced t.1 t.2 := by
  obtain ⟨hstep, hentries⟩ := Machine.observe_step hs
  obtain ⟨d, es⟩ := s
  obtain ⟨d', es'⟩ := t
  rw [hentries]
  cases a with
  | addServlet uri slt =>
    simp only [machine, ServletDispatch.step] at hstep
    split at hstep
    · rename_i hexists
      cases hstep
      exact h.update (.exact uri slt) rfl rfl hexists rfl
    · cases hstep
  | addServletCallback uri cb =>
    cases hstep
    exact h.addGlob (.callback uri d.made cb) rfl rfl (Nat.le_succ _) (Nat.lt_succ_self d.made)
      (fun _ _ _ heq => by cases heq; rfl)
  | addGlobServlet uri slt =>
    simp only [machine, ServletDispatch.step] at hstep
    split at hstep
    · rename_i hexists
      cases hstep
      exact h.addGlob (.glob uri slt) rfl rfl (Nat.le_refl _) hexists nofun
    · cases hstep
  | addGlobServletCallback uri cb =>
    cases hstep
    exact h.addGlob (.glob uri (some (.function d.made cb))) rfl rfl (Nat.le_succ _)
      (Nat.lt_succ_self d.made) nofun
  | delServlet uri =>
    cases hstep
    exact h.update (.del uri) rfl rfl trivial rfl

theorem reachable_traced {s : ServletDispatch σ κ × List (Entry σ κ)} (hr : history.Reachable s) :
    Traced s.1 s.2 := by
  refine hr.invariant (P := fun s => Traced s.1 s.2) ?_ (fun _ _ _ h hs => h.step hs)
  rintro ⟨d, es⟩ ⟨hd, hes⟩
  cases hd
  cases hes
  exact ⟨fun _ => rfl, fun _ => rfl, .nil, rfl, fun _ he => (List.not_mem_nil he).elim, .nil⟩

section Since
variable {es : List (Entry σ κ)} {α : Type*}

theorem stored_eq_added {e : Entry σ κ} (h : e.isCallback = false) : e.stored = e.added := by
  cases e with
  | callback uri n cb => cases h
  | exact uri slt => rfl
  | glob uri slt => rfl
  | del uri => rfl

theorem listed_eq_addedGlob {e : Entry σ κ} (h : e.isCallback = false) :
    e.listed = e.addedGlob := by
  cases e with
  | callback uri n cb => cases h
  | exact uri slt => rfl
  | glob uri slt => rfl
  | del uri => rfl

theorem findSome?_eq_of_mem {f g : Entry σ κ → Option α} (h : ∀ e ∈ es, f e = g e) :
    es.findSome? f = es.findSome? g := by
  induction es with
  | nil => rfl
  | cons e es ih =>
    rw [List.forall_mem_cons] at h
    rw [List.findSome?_cons, List.findSome?_cons, h.1, ih h.2]

/-- The calls up to the latest that registered a callback. -/
theorem since_split (es : List (Entry σ κ)) :
    (∀ e ∈ es, e.isCallback = false) ∨
      ∃ uri n cb old, es = since es ++ .callback uri n cb :: old := by
  cases hdrop : es.dropWhile (fun e => !e.isCallback) with
  | nil =>
    refine .inl (fun e he => ?_)
    simpa using List.dropWhile_eq_nil_iff.mp hdrop e he
  | cons e old =>
    right
    have hcallback := List.head_dropWhile_not (fun e : Entry σ κ => !e.isCallback) (l := es)
      (by rw [hdrop]; exact List.cons_ne_nil _ _)
    have hsplit := List.takeWhile_append_dropWhile (p := fun e : Entry σ κ => !e.isCallback) (l := es)
    simp only [hdrop, List.head_cons] at hcallback hsplit
    cases e with
    | callback uri n cb => exact ⟨uri, n, cb, old, hsplit.symm⟩
    | exact uri slt => cases hcallback
    | glob uri slt => cases hcallback
    | del uri => cases hcallback

theorem since_not_callback (es : List (Entry σ κ)) : ∀ e ∈ since es, e.isCallback = false := by
  intro e he
  have hcallback := List.mem_takeWhile_imp he
  simpa using hcallback

end Since

/-- A servlet that was there before one was made is another. -/
theorem Exists.ne {n : Nat} {cb : κ} {slt : ServletPtr σ κ} (h : Exists n slt) :
    slt ≠ some (.function n cb) := by
  rintro rfl
  exact Nat.lt_irrefl n h

theorem exists_stored {n : Nat} {es : List (Entry σ κ)} (h : ∀ e ∈ es, Exists n e.ptr) :
    Exists n (es.findSome? Entry.stored).join.join := by
  cases hfound : es.findSome? Entry.stored with
  | none => trivial
  | some found =>
    obtain ⟨e, he, hstored⟩ := List.exists_of_findSome?_eq_some hfound
    have hptr := h e he
    cases e with
    | exact uri slt =>
      cases hstored
      exact hptr
    | del uri =>
      cases hstored
      trivial
    | callback uri n cb => cases hstored
    | glob uri slt => cases hstored

theorem exists_addedGlob {n : Nat} {es : List (Entry σ κ)} (h : ∀ e ∈ es, Exists n e.ptr) :
    Exists n ((es.findSome? Entry.addedGlob).getD (some .notFound)) := by
  cases hfound : es.findSome? Entry.addedGlob with
  | none => trivial
  | some found =>
    obtain ⟨e, he, hadded⟩ := List.exists_of_findSome?_eq_some hfound
    have hptr := h e he
    cases e with
    | glob uri slt =>
      cases hadded
      exact hptr
    | exact uri slt => cases hadded
    | callback uri n cb => cases hadded
    | del uri => cases hadded

/-- The lookups in terms of the calls. -/
theorem Traced.lookups {d : ServletDispatch σ κ} {es : List (Entry σ κ)} (h : Traced d es)
    (uri : String) :
    d.getServlet uri = ((calls uri es).findSome? Entry.stored).join.join ∧
      d.getMatchServlet uri = ((calls uri es).findSome? Entry.stored).join.getD
        (((calls uri es).findSome? Entry.listed).getD (some .notFound)) := by
  rw [getServlet, getMatchServlet, h.datas, h.globs, h.default]
  refine ⟨?_, ?_⟩
  · cases ((calls uri es).findSome? Entry.stored).join with
    | none => rfl
    | some slt => rfl
  · cases ((calls uri es).findSome? Entry.stored).join with
    | none =>
      cases (calls uri es).findSome? Entry.listed with
      | none => rfl
      | some slt => rfl
    | some slt => rfl

/-- Reading the containers against reading the calls. -/
theorem reads_iff_sound {es : List (Entry σ κ)} (hordered : es.Pairwise
      (fun new old => ∀ uri n cb, new = .callback uri n cb → Exists n old.ptr)) :
    ((es.findSome? Entry.stored).join.join = (es.findSome? Entry.added).join.join ∧
      (es.findSome? Entry.stored).join.getD ((es.findSome? Entry.listed).getD (some .notFound)) =
        (es.findSome? Entry.added).join.getD
          ((es.findSome? Entry.addedGlob).getD (some .notFound))) ↔ Sound es := by
  rcases since_split es with hnone | ⟨uri, n, cb, old, hsplit⟩
  · rw [findSome?_eq_of_mem (fun e he => stored_eq_added (hnone e he)),
      findSome?_eq_of_mem (fun e he => listed_eq_addedGlob (hnone e he))]
    exact iff_of_true ⟨rfl, rfl⟩ (.inl hnone)
  · have hold : ∀ e ∈ old, Exists n e.ptr := by
      rw [hsplit] at hordered
      have hcallback := (List.pairwise_cons.mp (List.pairwise_append.mp hordered).2.1).1
      exact fun e he => hcallback e he uri n cb rfl
    have hsome : ¬∀ e ∈ es, e.isCallback = false := by
      intro hnone
      rw [hsplit] at hnone
      cases hnone _ (List.mem_append_right _ (List.mem_cons_self ..))
    have hread : ∀ {α : Type _} (f : Entry σ κ → Option α), es.findSome? f =
        ((since es).findSome? f).or ((Entry.callback uri n cb :: old).findSome? f) :=
      fun f => (congrArg (List.findSome? f) hsplit).trans List.findSome?_append
    have hstored := findSome?_eq_of_mem (fun e he => stored_eq_added (since_not_callback es e he))
    have hlisted :=
      findSome?_eq_of_mem (fun e he => listed_eq_addedGlob (since_not_callback es e he))
    rw [hread, hread, hread, hread, Sound, or_iff_right hsome, hstored, hlisted]
    cases (since es).findSome? Entry.added with
    | none =>
      -- The callback is the latest registration, and `m_datas` has at most an older servlet.
      refine iff_of_false (fun hfinds => (exists_stored hold).ne hfinds.1) ?_
      rintro (⟨slt, hslt⟩ | ⟨hdel, -⟩)
      · cases hslt
      · cases hdel
    | some added =>
      cases added with
      | some slt => exact iff_of_true ⟨rfl, rfl⟩ (.inl ⟨slt, rfl⟩)
      | none =>
        cases (since es).findSome? Entry.addedGlob with
        | some slt => exact iff_of_true ⟨rfl, rfl⟩ (.inr ⟨rfl, slt, rfl⟩)
        | none =>
          -- The callback was deleted but is still among the globs.
          refine iff_of_false (fun hfinds => (exists_addedGlob hold).ne hfinds.2.symm) ?_
          rintro (⟨slt, hslt⟩ | ⟨-, slt, hslt⟩)
          · cases hslt
          · cases hslt

/-- In every run and for every uri the table finds what was registered exactly when the calls for
the uri are sound. -/
theorem finds_iff_sound (s : ServletDispatch σ κ × List (Entry σ κ)) (hr : history.Reachable s)
    (uri : String) : Finds s.1 s.2 uri ↔ Sound (calls uri s.2) := by
  have htraced := reachable_traced hr
  obtain ⟨hget, hmatch⟩ := htraced.lookups uri
  rw [Finds, latest, latestGlob, hget, hmatch, htraced.default, and_iff_left htraced.nodup]
  exact reads_iff_sound (htraced.ordered.sublist List.filter_sublist)

/-- A servlet added over a callback is found. -/
theorem finds_added_over_callback :
    ∃ s : ServletDispatch String Nat × List (Entry String Nat), history.Reachable s ∧
      s.2 = [.exact "/x" (some (.given "page")), .callback "/x" 0 7] ∧ Finds s.1 s.2 "/x" := by
  obtain ⟨s, hr, hentries⟩ := (history (σ := String) (κ := Nat)).exists_of_exec
    (s := ({}, [])) (fun s => s.2 = [.exact "/x" (some (.given "page")), .callback "/x" 0 7])
    [.addServletCallback "/x" 7, .addServlet "/x" (some (.given "page"))] ⟨rfl, rfl⟩ (by decide)
  refine ⟨s, hr, hentries, (finds_iff_sound s hr "/x").mpr ?_⟩
  rw [hentries]
  exact .inr (.inl ⟨some (.given "page"), rfl⟩)

/-- A callback that was added is not found. -/
theorem not_finds_callback :
    ∃ s : ServletDispatch String Nat × List (Entry String Nat), history.Reachable s ∧
      s.2 = [.callback "/x" 0 7] ∧ ¬Finds s.1 s.2 "/x" := by
  obtain ⟨s, hr, hentries, hget⟩ := (history (σ := String) (κ := Nat)).exists_of_exec
    (s := ({}, [])) (fun s => s.2 = [.callback "/x" 0 7] ∧ s.1.getServlet "/x" = none)
    [.addServletCallback "/x" 7] ⟨rfl, rfl⟩ (by decide)
  refine ⟨s, hr, hentries, ?_⟩
  rintro ⟨hfinds, -⟩
  rw [hget, hentries] at hfinds
  cases hfinds

end HxSylar.ServletDispatch
