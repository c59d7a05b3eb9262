import HxSylar.Proofs.Registration

namespace HxSylar

/-- Which function's critical section a step was. -/
inductive CallKind
  | addEvent | delEvent | cancelEvent | cancelAll | idle
  deriving DecidableEq, Repr

def SectionCall.kind : SectionCall → CallKind
  | .addEvent _ _ _ _ => .addEvent
  | .delEvent _ _ => .delEvent
  | .cancelEvent _ _ => .cancelEvent
  | .cancelAll _ => .cancelAll
  | .dispatch _ _ => .idle

/-- One addEvent call that returned 0, with everything that happened to it since:
the sections that cleared its bit and the waiters triggerEvent queued for it. -/
structure Registration (F : Type) where
  fd : F
  event : Event
  waiter : Task
  ends : List CallKind := []
  pushes : List Task := []

namespace Registration
variable {F : Type} [DecidableEq F]

def isAt (i : F) (e : Event) (g : Registration F) : Bool := decide (g.fd = i ∧ g.event = e)

def extend (k : List CallKind) (ps : List Task) (g : Registration F) : Registration F :=
  { g with ends := g.ends ++ k, pushes := g.pushes ++ ps }

/-- Charge the latest registration of an event; the ledger is newest first. -/
def charge (i : F) (e : Event) (k : List CallKind) (ps : List Task) :
    List (Registration F) → List (Registration F)
  | [] => []
  | g :: gs => if g.isAt i e then g.extend k ps :: gs else g :: charge i e k ps gs

/-- What a section did to one event: the end, if its bit went from set to clear,
and the pushes made for it. -/
def chargeEvent (i : F) (c : SectionCall) (before : Slot) (out : Section) (e : Event)
    (gs : List (Registration F)) : List (Registration F) :=
  charge i e
    (if before.ctx.events.has e && !out.slot.ctx.events.has e then [c.kind] else [])
    ((out.pushes.filter (fun p => p.event = e)).map Push.task) gs

/-- The ledger after a section. It follows the bits, the pushes and the value
returned, not what the section was meant to do. -/
def ledger (gs : List (Registration F)) (r : Registry F) (l : F × SectionCall)
    (_ : Registry F) : List (Registration F) :=
  match r.call l.1 l.2 with
  | .error _ => gs
  | .ok (_, out) =>
    let gs := chargeEvent l.1 l.2 (r.slot l.1) out .read gs
    let gs := chargeEvent l.1 l.2 (r.slot l.1) out .write gs
    match l.2 with
    | .addEvent e cb who _ => if out.ret then ⟨l.1, e, who.waiter cb, [], []⟩ :: gs else gs
    | _ => gs

def machine (F : Type) [DecidableEq F] :
    Lib.Machine (Registry F × List (Registration F)) (F × SectionCall) :=
  (Registry.machine F).observe [] ledger

/-- A registration that has not ended has queued nothing. One that ended did so
once: its waiter was queued once by a waking section, and never by delEvent. -/
def Settled (g : Registration F) : Prop :=
  g.ends = [] ∧ g.pushes = [] ∨
  (∃ k, (k = .idle ∨ k = .cancelEvent ∨ k = .cancelAll) ∧ g.ends = [k] ∧ g.pushes = [g.waiter]) ∨
  g.ends = [.delEvent] ∧ g.pushes = []

/-- The waiter of the latest registration of an event, unless it has ended. -/
def openAt (gs : List (Registration F)) (i : F) (e : Event) : Option Task :=
  (gs.find? (isAt i e)).bind (fun g => if g.ends = [] then some g.waiter else none)

/-- The ledger against a table of waiters: only the latest registration of an
event may be open, and it is open exactly while the table holds its waiter. -/
structure Accounts (gs : List (Registration F)) (table : F → Event → Option Task) : Prop where
  settled : ∀ g ∈ gs, g.Settled
  current : ∀ i e, openAt gs i e = table i e
  older : gs.Pairwise (fun g g' => g'.fd = g.fd → g'.event = g.event → g'.ends ≠ [])

theorem charge_nil (i : F) (e : Event) (gs : List (Registration F)) : charge i e [] [] gs = gs := by
  induction gs with
  | nil => rfl
  | cons g gs ih =>
    simp only [charge, ih]
    split
    · simp [extend]
    · rfl

theorem isAt_extend (i : F) (e : Event) (k : List CallKind) (ps : List Task) (g : Registration F) :
    (g.extend k ps).isAt i e = g.isAt i e := rfl

theorem charge_find (i : F) (e : Event) (k : List CallKind) (ps : List Task)
    (gs : List (Registration F)) :
    (charge i e k ps gs).find? (isAt i e) = (gs.find? (isAt i e)).map (extend k ps) := by
  induction gs with
  | nil => rfl
  | cons g gs ih =>
    by_cases h : g.isAt i e = true
    · simp [charge, h, isAt_extend]
    · simp only [charge, h, Bool.false_eq_true, ↓reduceIte, List.find?_cons, ih]

theorem charge_find_other {i j : F} {e e' : Event} (hne : ¬ (j = i ∧ e' = e))
    (k : List CallKind) (ps : List Task) (gs : List (Registration F)) :
    (charge i e k ps gs).find? (isAt j e') = gs.find? (isAt j e') := by
  induction gs with
  | nil => rfl
  | cons g gs ih =>
    by_cases h : g.isAt i e = true
    · have hj : g.isAt j e' = false := by
        simp only [isAt, decide_eq_true_eq] at h
        simp only [isAt, decide_eq_false_iff_not]
        intro he
        obtain ⟨rfl, rfl⟩ := he
        exact hne h
      simp [charge, h, isAt_extend, hj]
    · simp only [charge, h, Bool.false_eq_true, ↓reduceIte, List.find?_cons, ih]

theorem mem_charge {i : F} {e : Event} {k : List CallKind} {ps : List Task}
    {gs : List (Registration F)} {g : Registration F} (h : g ∈ charge i e k ps gs) :
    g ∈ gs ∨ ∃ g0, gs.find? (isAt i e) = some g0 ∧ g = g0.extend k ps := by
  induction gs with
  | nil => cases h
  | cons g1 gs ih =>
    by_cases hat : g1.isAt i e = true
    · simp only [charge, hat, ↓reduceIte, List.mem_cons] at h
      rcases h with rfl | h
      · exact .inr ⟨g1, by simp [hat], rfl⟩
      · exact .inl (List.mem_cons_of_mem _ h)
    · simp only [charge, hat, Bool.false_eq_true, ↓reduceIte, List.mem_cons] at h
      rcases h with rfl | h
      · exact .inl List.mem_cons_self
      · rcases ih h with h | ⟨g0, hf, he⟩
        · exact .inl (List.mem_cons_of_mem _ h)
        · exact .inr ⟨g0, by simp [hat, hf], he⟩

/-- An open registration is the latest of its event. -/
theorem open_is_latest {gs : List (Registration F)} {g : Registration F}
    (h : gs.Pairwise (fun g g' => g'.fd = g.fd → g'.event = g.event → g'.ends ≠ []))
    (hg : g ∈ gs) (hopen : g.ends = []) : gs.find? (isAt g.fd g.event) = some g := by
  induction gs with
  | nil => cases hg
  | cons a gs ih =>
    obtain ⟨ha, hrest⟩ := List.pairwise_cons.mp h
    rcases List.mem_cons.mp hg with rfl | hg
    · simp [isAt]
    · have hne : a.isAt g.fd g.event = false := by
        simp only [isAt, decide_eq_false_iff_not]
        rintro ⟨hfd, hev⟩
        exact ha g hg hfd.symm hev.symm hopen
      rw [List.find?_cons, hne]
      exact ih hrest hg

/-- Charging never reopens a registration. -/
theorem charge_older {i : F} {e : Event} {k : List CallKind} {ps : List Task}
    {gs : List (Registration F)}
    (h : gs.Pairwise (fun g g' => g'.fd = g.fd → g'.event = g.event → g'.ends ≠ [])) :
    (charge i e k ps gs).Pairwise
      (fun g g' => g'.fd = g.fd → g'.event = g.event → g'.ends ≠ []) := by
  induction gs with
  | nil => exact .nil
  | cons a gs ih =>
    obtain ⟨ha, hrest⟩ := List.pairwise_cons.mp h
    simp only [charge]
    split
    · exact List.pairwise_cons.mpr ⟨ha, hrest⟩
    · refine List.pairwise_cons.mpr ⟨?_, ih hrest⟩
      intro g hg hfd hev
      rcases mem_charge hg with hm | ⟨g0, hf, rfl⟩
      · exact ha g hm hfd hev
      · have := ha g0 (List.mem_of_find?_eq_some hf) hfd hev
        simp [extend, this]

/-- The table with one entry changed. -/
def put (table : F → Event → Option Task) (i : F) (e : Event) (w : Option Task) :
    F → Event → Option Task :=
  fun j e' => if j = i ∧ e' = e then w else table j e'

theorem Accounts.open_latest {gs : List (Registration F)} {table : F → Event → Option Task}
    (h : Accounts gs table) {i : F} {e : Event} {w : Task} (hw : table i e = some w) :
    ∃ g, gs.find? (isAt i e) = some g ∧ g.ends = [] ∧ g.pushes = [] ∧ g.waiter = w := by
  have hc := h.current i e
  rw [hw, openAt] at hc
  obtain ⟨g, hg, hgw⟩ := Option.bind_eq_some_iff.mp hc
  split at hgw
  · rename_i hends
    cases hgw
    rcases h.settled g (List.mem_of_find?_eq_some hg) with hs | ⟨k, _, hs, _⟩ | hs
    · exact ⟨g, hg, hs.1, hs.2, rfl⟩
    · simp [hends] at hs
    · simp [hends] at hs
  · cases hgw

/-- Ending the open registration of an event settles it. -/
theorem Accounts.finish {gs : List (Registration F)} {table : F → Event → Option Task}
    (h : Accounts gs table) {i : F} {e : Event} {w : Task} (hw : table i e = some w)
    {k : CallKind} {ps : List Task}
    (hk : (k = .idle ∨ k = .cancelEvent ∨ k = .cancelAll) ∧ ps = [w] ∨ k = .delEvent ∧ ps = []) :
    Accounts (charge i e [k] ps gs) (put table i e none) := by
  obtain ⟨g, hg, hends, hpushes, rfl⟩ := h.open_latest hw
  have hset : (g.extend [k] ps).Settled := by
    rcases hk with ⟨hk, rfl⟩ | ⟨rfl, rfl⟩
    · exact .inr (.inl ⟨k, hk, by simp [extend, hends], by simp [extend, hpushes]⟩)
    · exact .inr (.inr ⟨by simp [extend, hends], by simp [extend, hpushes]⟩)
  refine ⟨?_, ?_, ?_⟩
  · intro g' hg'
    rcases mem_charge hg' with hm | ⟨g0, hf, rfl⟩
    · exact h.settled g' hm
    · rw [hg] at hf
      cases hf
      exact hset
  · intro j e'
    by_cases hat : j = i ∧ e' = e
    · obtain ⟨rfl, rfl⟩ := hat
      simp [openAt, charge_find, hg, put, extend]
    · rw [openAt, charge_find_other hat, put, if_neg hat]
      exact h.current j e'
  · exact charge_older h.older

/-- addEvent opens a registration where none was open. -/
theorem Accounts.start {gs : List (Registration F)} {table : F → Event → Option Task}
    (h : Accounts gs table) {i : F} {e : Event} (hw : table i e = none) (w : Task) :
    Accounts (⟨i, e, w, [], []⟩ :: gs) (put table i e (some w)) := by
  refine ⟨?_, ?_, ?_⟩
  · intro g hg
    rcases List.mem_cons.mp hg with rfl | hg
    · exact .inl ⟨rfl, rfl⟩
    · exact h.settled g hg
  · intro j e'
    by_cases hat : j = i ∧ e' = e
    · simp [openAt, isAt, put, hat.1, hat.2]
    · have hne : isAt j e' (⟨i, e, w, [], []⟩ : Registration F) = false := by
        simp only [isAt, decide_eq_false_iff_not]
        intro he
        obtain ⟨rfl, rfl⟩ := he
        exact hat ⟨rfl, rfl⟩
      rw [openAt, List.find?_cons, hne, put, if_neg hat]
      exact h.current j e'
  · refine List.pairwise_cons.mpr ⟨?_, h.older⟩
    intro g hg hfd hev hopen
    have hf := open_is_latest h.older hg hopen
    simp only at hfd hev
    have hc := h.current i e
    rw [hw, openAt, ← hfd, ← hev, hf] at hc
    simp [hopen] at hc

/-- Charging one event with what a section did to it keeps the accounts. A start
charges nothing; its entry is opened separately. -/
theorem Accounts.turn {gs : List (Registration F)} {table : F → Event → Option Task}
    (h : Accounts gs table) {i : F} {e : Event} {c : SectionCall} {w w' : Option Task}
    {ps : List Push} (ht : Turn c e w w' ps) (hw : table i e = w)
    (hc : c.kind ≠ .addEvent) :
    Accounts (charge i e (if w.isSome && !w'.isSome then [c.kind] else [])
      (ps.map Push.task) gs) (put table i e w') := by
  cases ht with
  | keep =>
    have hput : put table i e w = table := by
      funext j e'
      by_cases hat : j = i ∧ e' = e
      · simp [put, hat.1, hat.2, hw]
      · simp [put, hat]
    cases w <;> simpa [charge_nil, hput] using h
  | start cb who rt hc' => exact absurd (by rw [hc']; rfl) hc
  | wake v sch hwake =>
    refine h.finish hw (.inl ⟨?_, rfl⟩)
    cases c with
    | addEvent | delEvent => exact hwake.elim
    | cancelEvent => exact .inr (.inl rfl)
    | cancelAll => exact .inr (.inr rfl)
    | dispatch => exact .inl rfl
  | drop v rt hc' => exact h.finish hw (.inr ⟨by rw [hc']; rfl, rfl⟩)

/-- The waiters of all descriptors, as a table. -/
def tableOf (r : Registry F) : F → Event → Option Task := fun i e => (r.slot i).ctx.waiter e

theorem tableOf_update (r : Registry F) (i : F) (s : Slot) (n : Int) (j : F) (e : Event) :
    tableOf ⟨Function.update r.slot i s, n⟩ j e = if j = i then s.ctx.waiter e else tableOf r j e := by
  by_cases h : j = i
  · subst h; simp [tableOf]
  · simp [tableOf, h]

/-- addEvent ends nothing and pushes nothing, for any event. -/
theorem turn_addEvent {c : SectionCall} (hc : c.kind = .addEvent) {e : Event} {w w' : Option Task}
    {ps : List Push} (h : Turn c e w w' ps) : (w.isSome && !w'.isSome) = false ∧ ps = [] := by
  cases h with
  | keep => cases w <;> simp
  | start => simp
  | wake v s hw => cases c <;> first | exact hw.elim | cases hc
  | drop v rt hd => simp [hd, SectionCall.kind] at hc

theorem turn_other {e e' : Event} {cb : Option Callback} {who : CallingThread} {rt : Bool}
    {w w' : Option Task} {ps : List Push} (h : Turn (.addEvent e cb who rt) e' w w' ps)
    (he : e' ≠ e) : w' = w := by
  cases h with
  | keep => rfl
  | start _ _ _ hc =>
    cases hc
    exact absurd rfl he
  | wake _ _ hw => exact hw.elim
  | drop _ _ hc => cases hc

theorem chargeEvent_eq {r : Registry F} {i : F} {c : SectionCall} {out : Section}
    (hr : (r.slot i).Coherent) (hs : Section.Spec (r.slot i) r.pending c out) (e : Event)
    (gs : List (Registration F)) :
    chargeEvent i c (r.slot i) out e gs =
      charge i e (if ((r.slot i).ctx.waiter e).isSome && !(out.slot.ctx.waiter e).isSome
        then [c.kind] else []) ((out.pushes.filter (fun p => p.event = e)).map Push.task) gs := by
  simp only [chargeEvent, hr.ctx.has e, hs.coherent.ctx.has e]

theorem Accounts.addEvent {gs : List (Registration F)} {r r' : Registry F} {i : F} {e : Event}
    {cb : Option Callback} {who : CallingThread} {rt : Bool} {out : Section}
    (hr : ∀ j, (r.slot j).Coherent) (h : Accounts gs (tableOf r))
    (hc : r.call i (.addEvent e cb who rt) = .ok (r', out)) :
    Accounts (Registration.ledger gs r (i, .addEvent e cb who rt) r') (tableOf r') := by
  obtain ⟨ho, rfl⟩ := Registry.call_ok hc
  have hs := call_spec (hr i) ho
  have hid : ∀ e' gs, chargeEvent i (.addEvent e cb who rt) (r.slot i) out e' gs = gs := by
    intro e' gs
    obtain ⟨hb, hp⟩ := turn_addEvent rfl (hs.turn e')
    rw [chargeEvent_eq (hr i) hs, hb, hp]
    exact charge_nil i e' gs
  simp only [Registration.ledger, hc, hid]
  cases hret : out.ret with
  | false =>
    have hsame : tableOf ⟨Function.update r.slot i out.slot, out.pending⟩ = tableOf r := by
      funext j e'
      rw [tableOf_update, (hs.failed hret).1]
      split
      · rename_i hj
        rw [hj, tableOf]
      · rfl
    simpa [hsame] using h
  | true =>
    obtain ⟨hold, hnew⟩ := hs.started e cb who rt rfl hret
    have hput : tableOf ⟨Function.update r.slot i out.slot, out.pending⟩ =
        put (tableOf r) i e (some (who.waiter cb)) := by
      funext j e'
      rw [tableOf_update]
      by_cases hj : j = i
      · subst hj
        by_cases he : e' = e
        · simp [put, he, hnew]
        · simp [put, he, turn_other (hs.turn e') he, tableOf]
      · simp [put, hj]
    rw [hput]
    exact h.start hold _

theorem Accounts.ended {gs : List (Registration F)} {r r' : Registry F} {i : F} {c : SectionCall}
    {out : Section} (hr : ∀ j, (r.slot j).Coherent) (h : Accounts gs (tableOf r))
    (hk : c.kind ≠ .addEvent) (hc : r.call i c = .ok (r', out)) :
    Accounts (Registration.ledger gs r (i, c) r') (tableOf r') := by
  obtain ⟨ho, rfl⟩ := Registry.call_ok hc
  have hs := call_spec (hr i) ho
  have h1 := h.turn (i := i) (hs.turn .read) rfl hk
  have hwrite : put (tableOf r) i .read (out.slot.ctx.waiter .read) i .write =
      (r.slot i).ctx.waiter .write := by simp [put, tableOf]
  have h2 := h1.turn (i := i) (hs.turn .write) hwrite hk
  have hput : put (put (tableOf r) i .read (out.slot.ctx.waiter .read)) i .write
      (out.slot.ctx.waiter .write) = tableOf ⟨Function.update r.slot i out.slot, out.pending⟩ := by
    funext j e
    rw [tableOf_update]
    by_cases hj : j = i
    · subst hj
      cases e <;> simp [put, tableOf, FdContext.waiter]
    · simp [put, hj]
  rw [hput] at h2
  simp only [Registration.ledger, hc, chargeEvent_eq (hr i) hs]
  cases c with
  | addEvent => exact absurd rfl hk
  | delEvent | cancelEvent | cancelAll | dispatch => exact h2

theorem reachable_accounts {r : Registry F} {gs : List (Registration F)} [Fintype F]
    (h : (machine F).Reachable (r, gs)) : r.Sound ∧ Accounts gs (tableOf r) := by
  refine Lib.Machine.Reachable.invariant
    (P := fun p => p.1.Sound ∧ Accounts p.2 (tableOf p.1)) ?_ ?_ h
  · intro ⟨s, gs⟩ hinit
    obtain ⟨rfl, rfl⟩ := hinit
    refine ⟨Registry.sound_init, by simp, ?_, .nil⟩
    intro i e
    cases e <;> rfl
  · rintro ⟨s, gs⟩ ⟨i, c⟩ ⟨t, gs'⟩ ⟨hs, ha⟩ ht
    obtain ⟨hstep, hgs⟩ := Lib.Machine.observe_step ht
    obtain ⟨out, ho⟩ := Registry.machine_step hstep
    refine ⟨hs.call ho, ?_⟩
    simp only at hgs
    subst hgs
    by_cases hk : c.kind = .addEvent
    · cases c with
      | addEvent => exact ha.addEvent hs.slots ho
      | delEvent | cancelEvent | cancelAll | dispatch => cases hk
    · exact ha.ended hs.slots hk ho

/-- Whatever a section pushes is the waiter of a registration that was open. -/
theorem Accounts.pushed {gs : List (Registration F)} {r r' : Registry F} {i : F}
    {c : SectionCall} {out : Section} (hr : ∀ j, (r.slot j).Coherent)
    (h : Accounts gs (tableOf r)) (hc : r.call i c = .ok (r', out)) {p : Push}
    (hp : p ∈ out.pushes) :
    ∃ g ∈ gs, g.fd = i ∧ g.event = p.event ∧ g.waiter = p.task ∧ g.ends = [] := by
  have hs := call_spec (hr i) (Registry.call_ok hc).1
  have hmem : p ∈ out.pushes.filter (fun q => q.event = p.event) :=
    List.mem_filter.mpr ⟨hp, by simp⟩
  have ht := hs.turn p.event
  generalize hps : out.pushes.filter (fun q => q.event = p.event) = ps at ht hmem
  generalize hw : (r.slot i).ctx.waiter p.event = w at ht
  generalize out.slot.ctx.waiter p.event = w' at ht
  cases ht with
  | keep | start | drop => cases hmem
  | wake v sch _ =>
    have htask : p.task = v := congrArg Push.task (List.mem_singleton.mp hmem)
    obtain ⟨g, hg, hends, _, hgw⟩ := h.open_latest (i := i) (e := p.event) hw
    have hat := List.find?_some hg
    simp only [isAt, decide_eq_true_eq] at hat
    exact ⟨g, List.mem_of_find?_eq_some hg, hat.1, hat.2, hgw.trans htask.symm, hends⟩

theorem Accounts.failed {gs : List (Registration F)} {r r' : Registry F} {i : F}
    {c : SectionCall} {out : Section} (hr : ∀ j, (r.slot j).Coherent)
    (hc : r.call i c = .ok (r', out)) (hret : out.ret = false) :
    out.pushes = [] ∧ Registration.ledger gs r (i, c) r' = gs := by
  have hs := call_spec (hr i) (Registry.call_ok hc).1
  obtain ⟨hsame, hp⟩ := hs.failed hret
  have hid : ∀ e gs, chargeEvent i c (r.slot i) out e gs = gs := by
    intro e gs
    simp [chargeEvent, hsame, hp, charge_nil]
  refine ⟨hp, ?_⟩
  simp only [Registration.ledger, hc, hid, hret]
  cases c <;> rfl

/-- Exactly-once delivery, over every run of critical sections without a failed
assertion. A registration ends at most once; until then it is in place and nothing
was queued for it; if it ended in idle(), cancelEvent or cancelAll its waiter was
queued exactly once, if in delEvent never. A call that reports failure queues
nothing and ends nothing, and nothing is queued but the waiters of registrations
that were open. -/
theorem delivered_exactly_once [Fintype F] {r : Registry F} {gs : List (Registration F)}
    (h : (machine F).Reachable (r, gs)) :
    (∀ g ∈ gs, g.ends.length ≤ 1 ∧
      (g.ends = [] → g.pushes = [] ∧ (r.slot g.fd).ctx.waiter g.event = some g.waiter) ∧
      ∀ k, g.ends = [k] →
        (k = .idle ∨ k = .cancelEvent ∨ k = .cancelAll) ∧ g.pushes = [g.waiter] ∨
        k = .delEvent ∧ g.pushes = []) ∧
    ∀ i c r' out, r.call i c = .ok (r', out) →
      (out.ret = false → out.pushes = [] ∧ ledger gs r (i, c) r' = gs) ∧
      ∀ p ∈ out.pushes,
        ∃ g ∈ gs, g.fd = i ∧ g.event = p.event ∧ g.waiter = p.task ∧ g.ends = [] := by
  obtain ⟨hr, ha⟩ := reachable_accounts h
  constructor
  · intro g hg
    have hs := ha.settled g hg
    refine ⟨?_, ?_, ?_⟩
    · rcases hs with ⟨he, _⟩ | ⟨k, _, he, _⟩ | ⟨he, _⟩ <;> simp [he]
    · intro hopen
      have hc := ha.current g.fd g.event
      rw [openAt, open_is_latest ha.older hg hopen] at hc
      refine ⟨?_, by simpa [hopen, tableOf] using hc.symm⟩
      rcases hs with ⟨_, hp⟩ | ⟨k, _, he, _⟩ | ⟨he, _⟩
      · exact hp
      · simp [hopen] at he
      · simp [hopen] at he
    · intro k hk
      rcases hs with ⟨he, _⟩ | ⟨k', hk', he, hp⟩ | ⟨he, hp⟩
      · simp [hk] at he
      · rw [hk] at he
        cases he
        exact .inl ⟨hk', hp⟩
      · rw [hk] at he
        cases he
        exact .inr ⟨rfl, hp⟩
  · intro i c r' out hc
    exact ⟨fun hret => Accounts.failed hr.slots hc hret, fun p hp => ha.pushed hr.slots hc hp⟩

/-- A callback cancelled, then a fiber registered for the same event and dropped. -/
theorem delivered_exactly_once_run :
    ∃ p, (machine (Fin 1)).Reachable p ∧
      p.2.map Registration.ends = [[.delEvent], [.cancelEvent]] ∧
      p.2.map Registration.pushes = [[], [.cb 3]] ∧ ∀ g ∈ p.2, g.ends.length ≤ 1 := by
  have hr : (machine (Fin 1)).Reachable _ := Lib.Machine.reachable_of_exec
    (s := (({} : Registry (Fin 1)), [])) [(0, .addEvent .read (some 3) ⟨some 0, 7, true⟩ true),
      (0, .cancelEvent .read true),
      (0, .addEvent .read none ⟨some 0, 7, true⟩ true),
      (0, .delEvent .read true)] ⟨rfl, rfl⟩ rfl
  exact ⟨_, hr, rfl, rfl, fun g hg => ((delivered_exactly_once hr).1 g hg).1⟩

end Registration
end HxSylar
