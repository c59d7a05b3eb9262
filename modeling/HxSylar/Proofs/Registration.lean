import HxSylar.FdContext
import HxSylar.Lib.FamilySum
import Mathlib.Data.Fintype.BigOperators

namespace HxSylar

/-- An event bit and its `EventContext` tell the same story: clear and empty, or
set with exactly one waiter. A null scheduler beside a waiter is allowed, since
addEvent stores whatever `Scheduler::GetThis()` returned. -/
def Fits (bit : Bool) (x : EventContext) : Prop :=
  (bit = false ↔ x.scheduler = none ∧ x.fiber = none ∧ x.cb = none) ∧
  (bit = true → x.fiber.isSome = !x.cb.isSome)

/-- The waiter stored in an `EventContext`, read in triggerEvent's order. -/
def EventContext.waiter (x : EventContext) : Option Task :=
  match x.cb with
  | some c => some (.cb c)
  | none => x.fiber.map .fiber

theorem fits_empty : Fits false {} := by simp [Fits]

theorem Fits.waiter_isSome {bit : Bool} {x : EventContext} (h : Fits bit x) :
    x.waiter.isSome = bit := by
  obtain ⟨s, f, c⟩ := x
  cases bit with
  | false =>
    obtain ⟨_, rfl, rfl⟩ := h.1.mp rfl
    rfl
  | true =>
    have hx := h.2 rfl
    cases c <;> cases f <;> simp_all [EventContext.waiter]

/-- A fresh registration fits whatever scheduler the calling thread has. -/
theorem fits_cb (s : Option SchedulerId) (c : Callback) :
    Fits true { scheduler := s, fiber := none, cb := some c } := by simp [Fits]

theorem fits_fiber (s : Option SchedulerId) (f : FiberId) :
    Fits true { scheduler := s, fiber := some f, cb := none } := by simp [Fits]

/-- The one waiter goes out and the context is empty afterwards. -/
theorem Fits.handOver {x y : EventContext} {e : Event} {ps : List Push} (h : Fits true x)
    (hy : x.handOver e = .ok (y, ps)) :
    y = {} ∧ ∃ s w, x.waiter = some w ∧ ps = [⟨e, s, w⟩] := by
  obtain ⟨sch, f, c⟩ := x
  have hx := h.2 rfl
  cases sch with
  | none => cases hy
  | some s =>
    cases c <;> cases f <;> simp only [Option.isSome, Bool.not_true, Bool.not_false,
      Bool.true_eq_false, Bool.false_eq_true] at hx
    all_goals cases hy
    all_goals exact ⟨rfl, s, _, rfl, rfl⟩

theorem bind_ok {ε α β : Type} {x : Except ε α} {f : α → Except ε β} {b : β}
    (h : (x >>= f) = .ok b) : ∃ a, x = .ok a ∧ f a = .ok b := by
  cases x with
  | error e => cases h
  | ok a => exact ⟨a, rfl, h⟩

theorem bind_error {ε α β : Type} {x : Except ε α} {f : α → Except ε β} {e : ε}
    (h : (x >>= f) = .error e) : x = .error e ∨ ∃ a, x = .ok a ∧ f a = .error e := by
  cases x with
  | error e' =>
    cases h
    exact .inl rfl
  | ok a => exact .inr ⟨a, rfl, h⟩

@[simp] theorem Mask.has_del (m : Mask) (e : Event) : (m.del e).has e = false := by
  cases e <;> rfl

theorem Mask.has_del_other (m : Mask) {e e' : Event} (h : e' ≠ e) :
    (m.del e).has e' = m.has e' := by
  cases e <;> cases e' <;> first | rfl | exact absurd rfl h

theorem Mask.has_add (m : Mask) {e : Event} (he : e ≠ .none) : (m.add e).has e = true := by
  cases e <;> first | rfl | exact absurd rfl he

theorem Mask.has_add_other (m : Mask) {e e' : Event} (h : e' ≠ e) :
    (m.add e).has e' = m.has e' := by
  cases e <;> cases e' <;> first | rfl | exact absurd rfl h

namespace FdContext

structure Coherent (c : FdContext) : Prop where
  read : Fits c.events.read c.read
  write : Fits c.events.write c.write

/-- Who waits for an event of this descriptor. This is the abstract content of an
`FdContext`: at most one waiter for each of the two events. -/
def waiter (c : FdContext) : Event → Option Task
  | .none => none
  | .read => c.read.waiter
  | .write => c.write.waiter

theorem Coherent.has {c : FdContext} (h : c.Coherent) (e : Event) :
    c.events.has e = (c.waiter e).isSome := by
  cases e with
  | none => rfl
  | read => exact h.read.waiter_isSome.symm
  | write => exact h.write.waiter_isSome.symm

@[simp] theorem setContext_events (c : FdContext) (x : EventContext) (e : Event) :
    (c.setContext x e).events = c.events := by
  cases e <;> rfl

theorem setContext_waiter (c : FdContext) (x : EventContext) {e : Event} (he : e ≠ .none) :
    (c.setContext x e).waiter e = x.waiter := by
  cases e <;> first | rfl | exact absurd rfl he

theorem setContext_waiter_other (c : FdContext) (x : EventContext) {e e' : Event} (h : e' ≠ e) :
    (c.setContext x e).waiter e' = c.waiter e' := by
  cases e <;> cases e' <;> first | rfl | exact absurd rfl h

@[simp] theorem waiter_events (c : FdContext) (m : Mask) :
    ({ c with events := m } : FdContext).waiter = c.waiter := by
  funext e
  cases e <;> rfl

/-- A bit and its context may change together, the other event's stay. -/
theorem Coherent.setContext {c : FdContext} (h : c.Coherent) {m : Mask} {x : EventContext}
    {e : Event} (hx : Fits (m.has e) x)
    (ho : ∀ e', e' ≠ e → m.has e' = c.events.has e') :
    (({ c with events := m } : FdContext).setContext x e).Coherent := by
  have hr : .read ≠ e → Fits m.read c.read := by
    intro he
    have := ho .read he
    simp only [Mask.has] at this
    rw [this]
    exact h.read
  have hw : .write ≠ e → Fits m.write c.write := by
    intro he
    have := ho .write he
    simp only [Mask.has] at this
    rw [this]
    exact h.write
  cases e with
  | none => exact ⟨hr (by simp), hw (by simp)⟩
  | read => exact ⟨hx, hw (by simp)⟩
  | write => exact ⟨hr (by simp), hx⟩

/-- triggerEvent takes the waiter of exactly that event, hands it over once, and
leaves an empty context behind. It cannot hand over a null fiber. -/
theorem triggerEvent_spec {c c' : FdContext} {e : Event} {ps : List Push}
    (hc : c.Coherent) (h : c.triggerEvent e = .ok (c', ps)) :
    c'.Coherent ∧ c'.events = c.events.del e ∧ c'.waiter e = none ∧
    (∀ e', e' ≠ e → c'.waiter e' = c.waiter e') ∧
    ∃ s w, c.waiter e = some w ∧ ps = [⟨e, s, w⟩] := by
  unfold triggerEvent at h
  split at h
  · rename_i hb
    have he : e ≠ .none := by
      intro he
      subst he
      cases hb
    obtain ⟨x, hx, h⟩ := bind_ok h
    obtain ⟨⟨y, qs⟩, hy, h⟩ := bind_ok h
    simp only [Except.ok.injEq, Prod.mk.injEq] at h
    obtain ⟨rfl, rfl⟩ := h
    have hxf : Fits true x ∧ c.waiter e = x.waiter := by
      cases e with
      | none => exact absurd rfl he
      | read => cases hx; exact ⟨hb ▸ hc.read, rfl⟩
      | write => cases hx; exact ⟨hb ▸ hc.write, rfl⟩
    obtain ⟨rfl, s, w, hw, rfl⟩ := hxf.1.handOver hy
    refine ⟨hc.setContext ?_ (fun e' => Mask.has_del_other _), by simp, ?_, ?_, s, w, ?_, rfl⟩
    · rw [Mask.has_del]
      exact fits_empty
    · rw [setContext_waiter _ _ he]
      rfl
    · intro e' hne
      rw [setContext_waiter_other _ _ hne, waiter_events]
    · rw [hxf.2, hw]
  · contradiction

end FdContext

/-- What the kernel must hold for a descriptor with these events: nothing for NONE. -/
def Mask.interest (m : Mask) : Option Mask := if m = Mask.none then .none else some m

theorem Mask.bits_del {m : Mask} {e : Event} (h : m.has e = true) :
    ((m.del e).bits : Int) = m.bits - 1 := by
  obtain ⟨r, w⟩ := m
  cases e <;> cases r <;> cases w <;> simp_all [Mask.has, Mask.del, Mask.bits]

theorem Mask.bits_add {m : Mask} {e : Event} (h : m.has e = false) (he : e ≠ .none) :
    ((m.add e).bits : Int) = m.bits + 1 := by
  obtain ⟨r, w⟩ := m
  cases e <;> cases r <;> cases w <;> simp_all [Mask.has, Mask.add, Mask.bits]

/-- The MOD-or-DEL choice of delEvent, cancelEvent and idle() stores the mask. -/
theorem epollCtl_left (m : Mask) :
    epollCtl (if m ≠ Mask.none then CtlOp.mod else .del) m = m.interest := by
  by_cases h : m = Mask.none <;> simp [h, epollCtl, Mask.interest]

/-- The ADD-or-MOD choice of addEvent stores the mask, which is not empty. -/
theorem epollCtl_add (m : Mask) {e : Event} (he : e ≠ .none) :
    epollCtl (if m ≠ Mask.none then CtlOp.mod else .add) (m.add e) = (m.add e).interest := by
  have hne : m.add e ≠ Mask.none := by
    obtain ⟨r, w⟩ := m
    cases e <;> simp_all [Mask.add, Mask.none]
  rw [Mask.interest, if_neg hne]
  split <;> rfl

/-- One guarded trigger of cancelAll or idle(): either it is skipped, or it takes
the waiter of its event and one unit of the pending count. -/
theorem triggerIf_spec {on : Bool} {c c' : FdContext} {n n' : Int} {e : Event} {ps : List Push}
    (hc : c.Coherent) (h : Slot.triggerIf on c n e = .ok (c', n', ps)) :
    c'.Coherent ∧ n' = n + c'.events.bits - c.events.bits ∧
    (∀ e', e' ≠ e → c'.waiter e' = c.waiter e') ∧
    (on = false ∧ c' = c ∧ ps = [] ∨
      on = true ∧ c'.events = c.events.del e ∧ c'.waiter e = none ∧
        ∃ s w, c.waiter e = some w ∧ ps = [⟨e, s, w⟩]) := by
  cases on with
  | false =>
    cases h
    exact ⟨hc, by omega, fun _ _ => rfl, .inl ⟨rfl, rfl, rfl⟩⟩
  | true =>
    obtain ⟨⟨d, qs⟩, hd, h⟩ := bind_ok h
    cases h
    obtain ⟨hd', he, hn, ho, s, w, hw, rfl⟩ := FdContext.triggerEvent_spec hc hd
    have hb : c.events.has e = true := by simp [hc.has, hw]
    refine ⟨hd', ?_, ho, .inr ⟨rfl, he, hn, s, w, hw, rfl⟩⟩
    rw [he, Mask.bits_del hb]
    omega

/-- A slot between critical sections: the contexts fit their bits, and the kernel holds the mask. -/
structure Slot.Coherent (s : Slot) : Prop where
  ctx : s.ctx.Coherent
  kernel : s.kernel = s.ctx.events.interest

/-- Which calls may end a registration of an event by waking its waiter. -/
def SectionCall.Wakes (e : Event) : SectionCall → Prop
  | .cancelEvent e' _ => e' = e
  | .cancelAll _ | .dispatch _ _ => True
  | _ => False

/-- The waiter an addEvent call stores: its callback, or the calling fiber. -/
def CallingThread.waiter (who : CallingThread) : Option Callback → Task
  | some cb => .cb cb
  | none => .fiber who.fiber

/-- All that one section can do to the waiter of one event, with what it pushed
for that event. -/
inductive Turn (c : SectionCall) (e : Event) : Option Task → Option Task → List Push → Prop
  | keep (w : Option Task) : Turn c e w w []
  | start (cb : Option Callback) (who : CallingThread) (rt : Bool)
      (hc : c = .addEvent e cb who rt) : Turn c e none (some (who.waiter cb)) []
  | wake (w : Task) (s : SchedulerId) (hc : c.Wakes e) : Turn c e (some w) none [⟨e, s, w⟩]
  | drop (w : Task) (rt : Bool) (hc : c = .delEvent e rt) : Turn c e (some w) none []

/-- The contract of a critical section on a coherent slot. -/
structure Section.Spec (s : Slot) (n : Int) (c : SectionCall) (out : Section) : Prop where
  coherent : out.slot.Coherent
  pending : out.pending = n + out.slot.ctx.events.bits - s.ctx.events.bits
  turn : ∀ e, Turn c e (s.ctx.waiter e) (out.slot.ctx.waiter e)
    (out.pushes.filter (fun p => p.event = e))
  failed : out.ret = false → out.slot = s ∧ out.pushes = []
  started : ∀ e cb who rt, c = .addEvent e cb who rt → out.ret = true →
    s.ctx.waiter e = none ∧ out.slot.ctx.waiter e = some (who.waiter cb)

/-- A section that returns early leaves everything alone. -/
theorem Section.Spec.idle {s : Slot} {n : Int} {c : SectionCall} (hs : s.Coherent) :
    Section.Spec s n c ⟨s, n, false, []⟩ :=
  ⟨hs, by simp, fun e => .keep _, fun _ => ⟨rfl, rfl⟩, by simp⟩

/-- Storing a waiter in an empty context, as both branches of addEvent do. -/
theorem start_spec {s : Slot} {n : Int} {e : Event} {cb : Option Callback} {who : CallingThread}
    {rt : Bool} {x : EventContext} (hs : s.Coherent) (hb : s.ctx.events.has e = false)
    (he : e ≠ .none) (hx : Fits true x) (hw : x.waiter = some (who.waiter cb)) :
    Section.Spec s n (.addEvent e cb who rt)
      ⟨⟨({ s.ctx with events := s.ctx.events.add e } : FdContext).setContext x e,
        epollCtl (if s.ctx.events ≠ Mask.none then CtlOp.mod else .add) (s.ctx.events.add e)⟩,
        n + 1, true, []⟩ := by
  have hold : s.ctx.waiter e = none := by
    have := hs.ctx.has e
    rw [hb] at this
    simpa using this.symm
  refine ⟨⟨?_, ?_⟩, ?_, ?_, ?_, ?_⟩
  · exact hs.ctx.setContext (by rwa [Mask.has_add _ he]) (fun e' => Mask.has_add_other _)
  · simp only [FdContext.setContext_events]
    exact epollCtl_add _ he
  · simp only [FdContext.setContext_events, Mask.bits_add hb he]
    omega
  · intro e'
    by_cases hne : e' = e
    · subst hne
      simp only [FdContext.setContext_waiter _ _ he, hw, hold]
      exact .start cb who rt rfl
    · simp only [FdContext.setContext_waiter_other _ _ hne, FdContext.waiter_events]
      exact .keep _
  · intro h
    cases h
  · intro e' cb' who' rt' hc _
    cases hc
    exact ⟨hold, by rw [FdContext.setContext_waiter _ _ he, hw]⟩

theorem addEvent_spec {s : Slot} {n : Int} {e : Event} {cb : Option Callback}
    {who : CallingThread} {rt : Bool} {out : Section} (hs : s.Coherent)
    (h : s.addEvent n e cb who rt = .ok out) : Section.Spec s n (.addEvent e cb who rt) out := by
  unfold Slot.addEvent at h
  split at h
  · contradiction
  rename_i hb
  cases rt with
  | false =>
    cases h
    exact .idle hs
  | true =>
    obtain ⟨x, hx, h⟩ := bind_ok h
    have he : e ≠ .none := by
      intro he
      subst he
      cases hx
    have hb : s.ctx.events.has e = false := by simpa using hb
    split at h
    · rename_i hempty
      subst hempty
      cases cb with
      | some c =>
        cases h
        exact start_spec hs hb he (fits_cb _ _) rfl
      | none =>
        simp only at h
        split at h
        · cases h
          exact start_spec hs hb he (fits_fiber _ _) rfl
        · contradiction
    · contradiction

theorem delEvent_spec {s : Slot} {n : Int} {e : Event} {rt : Bool} {out : Section}
    (hs : s.Coherent) (h : s.delEvent n e rt = .ok out) :
    Section.Spec s n (.delEvent e rt) out := by
  unfold Slot.delEvent at h
  split at h
  · rename_i hb
    cases rt with
    | false =>
      cases h
      exact .idle hs
    | true =>
      obtain ⟨x, hx, h⟩ := bind_ok h
      cases h
      have he : e ≠ .none := by
        intro he
        subst he
        cases hb
      obtain ⟨w, hw⟩ := Option.isSome_iff_exists.mp ((hs.ctx.has e).symm.trans hb)
      refine ⟨⟨?_, ?_⟩, ?_, ?_, by simp, by simp⟩
      · exact hs.ctx.setContext (by rw [Mask.has_del]; exact fits_empty)
          (fun e' => Mask.has_del_other _)
      · simp only [FdContext.setContext_events]
        exact epollCtl_left _
      · simp only [FdContext.setContext_events, Mask.bits_del hb]
        omega
      · intro e'
        by_cases hne : e' = e
        · subst hne
          simp only [FdContext.setContext_waiter _ _ he, hw]
          exact .drop w true rfl
        · simp only [FdContext.setContext_waiter_other _ _ hne, FdContext.waiter_events]
          exact .keep _
  · cases h
    exact .idle hs

theorem cancelEvent_spec {s : Slot} {n : Int} {e : Event} {rt : Bool} {out : Section}
    (hs : s.Coherent) (h : s.cancelEvent n e rt = .ok out) :
    Section.Spec s n (.cancelEvent e rt) out := by
  unfold Slot.cancelEvent at h
  split at h
  · rename_i hb
    cases rt with
    | false =>
      cases h
      exact .idle hs
    | true =>
      obtain ⟨⟨c, ps⟩, hc, h⟩ := bind_ok h
      cases h
      obtain ⟨hc', hev, hn, ho, sch, w, hw, rfl⟩ := FdContext.triggerEvent_spec hs.ctx hc
      refine ⟨⟨hc', ?_⟩, ?_, ?_, by simp, by simp⟩
      · simp only [hev]
        exact epollCtl_left _
      · simp only [hev, Mask.bits_del hb]
        omega
      · intro e'
        by_cases hne : e' = e
        · subst hne
          simp only [hn, hw, List.filter_cons, decide_true, ↓reduceIte, List.filter_nil]
          exact .wake w sch rfl
        · simp only [ho e' hne, Ne.symm hne, List.filter_cons, decide_false, Bool.false_eq_true,
            ↓reduceIte, List.filter_nil]
          exact .keep _
  · cases h
    exact .idle hs

theorem pushes_at {ps : List Push} {e : Event} (h : ∀ x ∈ ps, x.event = e) :
    ps.filter (fun x => x.event = e) = ps :=
  List.filter_eq_self.mpr (fun x hx => by simpa using h x hx)

theorem pushes_at_other {ps : List Push} {e e' : Event} (h : ∀ x ∈ ps, x.event = e)
    (hne : e ≠ e') : ps.filter (fun x => x.event = e') = [] :=
  List.filter_eq_nil_iff.mpr (fun x hx => by simpa [h x hx] using hne)

/-- The two guarded triggers that end cancelAll and a dispatch. Both bits asked
for were set, or the assertion in triggerEvent would have fired. -/
theorem triggers_spec {a b : Bool} {c c1 c2 : FdContext} {n n1 n2 : Int} {p q : List Push}
    (call : SectionCall) (hk : ∀ e, call.Wakes e) (hc : c.Coherent)
    (h1 : Slot.triggerIf a c n .read = .ok (c1, n1, p))
    (h2 : Slot.triggerIf b c1 n1 .write = .ok (c2, n2, q)) :
    c2.Coherent ∧ n2 = n + c2.events.bits - c.events.bits ∧ c2.events = c.events.diff ⟨a, b⟩ ∧
    ∀ e, Turn call e (c.waiter e) (c2.waiter e) ((p ++ q).filter (fun x => x.event = e)) := by
  obtain ⟨hc1, hn1, ho1, hr⟩ := triggerIf_spec hc h1
  obtain ⟨hc2, hn2, ho2, hw⟩ := triggerIf_spec hc1 h2
  have hread : c2.waiter .read = c1.waiter .read := ho2 .read (by simp)
  have hwrite : c1.waiter .write = c.waiter .write := ho1 .write (by simp)
  refine ⟨hc2, by omega, ?_, ?_⟩
  · rcases hr with ⟨rfl, rfl, rfl⟩ | ⟨rfl, he1, _, _⟩ <;>
      rcases hw with ⟨rfl, rfl, rfl⟩ | ⟨rfl, he2, _, _⟩ <;>
      simp_all [Mask.del, Mask.diff]
  · have hp : ∀ x ∈ p, x.event = .read := by
      rcases hr with ⟨_, _, rfl⟩ | ⟨_, _, _, s, w, _, rfl⟩ <;> simp
    have hq : ∀ x ∈ q, x.event = .write := by
      rcases hw with ⟨_, _, rfl⟩ | ⟨_, _, _, s, w, _, rfl⟩ <;> simp
    intro e
    rw [List.filter_append]
    cases e with
    | none =>
      rw [pushes_at_other hp (by simp), pushes_at_other hq (by simp)]
      exact .keep _
    | read =>
      rw [pushes_at_other hq (by simp), pushes_at hp, List.append_nil, hread]
      rcases hr with ⟨_, rfl, rfl⟩ | ⟨_, _, hgone, s, w, hold, rfl⟩
      · exact .keep _
      · rw [hold, hgone]
        exact .wake w s (hk _)
    | write =>
      rw [pushes_at_other hp (by simp), pushes_at hq, List.nil_append, ← hwrite]
      rcases hw with ⟨_, rfl, rfl⟩ | ⟨_, _, hgone, s, w, hold, rfl⟩
      · exact .keep _
      · rw [hold, hgone]
        exact .wake w s (hk _)

theorem cancelAll_spec {s : Slot} {n : Int} {rt : Bool} {out : Section} (hs : s.Coherent)
    (h : s.cancelAll n rt = .ok out) : Section.Spec s n (.cancelAll rt) out := by
  unfold Slot.cancelAll at h
  split at h
  · cases h
    exact .idle hs
  · cases rt with
    | false =>
      cases h
      exact .idle hs
    | true =>
      obtain ⟨⟨c1, n1, p⟩, h1, h⟩ := bind_ok h
      obtain ⟨⟨c2, n2, q⟩, h2, h⟩ := bind_ok h
      obtain ⟨hc, hn, _, ht⟩ := triggers_spec (.cancelAll true) (fun _ => trivial) hs.ctx h1 h2
      simp only at h
      split at h
      · rename_i hempty
        cases h
        refine ⟨⟨hc, ?_⟩, hn, ht, by simp, by simp⟩
        simp [epollCtl, Mask.interest, hempty]
      · contradiction

theorem dispatch_spec {s : Slot} {n : Int} {m : EpollMask} {rt : Bool} {out : Section}
    (hs : s.Coherent) (h : s.dispatch n m rt = .ok out) :
    Section.Spec s n (.dispatch m rt) out := by
  unfold Slot.dispatch at h
  simp only at h
  split at h
  · cases h
    exact .idle hs
  · cases rt with
    | false =>
      cases h
      exact .idle hs
    | true =>
      obtain ⟨⟨c1, n1, p⟩, h1, h⟩ := bind_ok h
      obtain ⟨⟨c2, n2, q⟩, h2, h⟩ := bind_ok h
      cases h
      obtain ⟨hc, hn, he, ht⟩ :=
        triggers_spec (.dispatch m true) (fun _ => trivial) hs.ctx h1 h2
      refine ⟨⟨hc, ?_⟩, hn, ht, by simp, by simp⟩
      simp only [he]
      exact epollCtl_left _

theorem call_spec {s : Slot} {n : Int} {c : SectionCall} {out : Section} (hs : s.Coherent)
    (h : s.call n c = .ok out) : Section.Spec s n c out := by
  cases c with
  | addEvent e cb who rt => exact addEvent_spec hs h
  | delEvent e rt => exact delEvent_spec hs h
  | cancelEvent e rt => exact cancelEvent_spec hs h
  | cancelAll rt => exact cancelAll_spec hs h
  | dispatch m rt => exact dispatch_spec hs h

namespace Registry
open Lib
variable {F : Type}

/-- The registry between critical sections. -/
structure Sound [Fintype F] (r : Registry F) : Prop where
  slots : ∀ i, (r.slot i).Coherent
  pending : r.pending = ∑ i, ((r.slot i).ctx.events.bits : Int)

theorem sound_init [Fintype F] : ({} : Registry F).Sound :=
  ⟨fun _ => ⟨⟨fits_empty, fits_empty⟩, rfl⟩, by simp [Mask.none, Mask.bits]⟩

section
variable [DecidableEq F]

theorem call_ok {r r' : Registry F} {i : F} {c : SectionCall} {out : Section}
    (h : r.call i c = .ok (r', out)) :
    (r.slot i).call r.pending c = .ok out ∧
      r' = ⟨Function.update r.slot i out.slot, out.pending⟩ := by
  unfold Registry.call at h
  split at h
  · rename_i o ho
    cases h
    exact ⟨ho, rfl⟩
  · contradiction

theorem machine_step {r r' : Registry F} {i : F} {c : SectionCall}
    (h : (machine F).step r (i, c) = some r') : ∃ out, r.call i c = .ok (r', out) := by
  simp only [machine] at h
  cases hc : r.call i c with
  | error e => simp [hc, Except.toOption] at h
  | ok o =>
    obtain ⟨q, out⟩ := o
    simp only [hc, Except.toOption, Option.map_some, Option.some.injEq] at h
    subst h
    exact ⟨out, rfl⟩

/-- A slot may be replaced if the count moves by its bits. -/
theorem Sound.put [Fintype F] {r : Registry F} {i : F} {v : Slot} {n : Int} (hr : r.Sound)
    (hv : v.Coherent) (hn : n = r.pending + v.ctx.events.bits - (r.slot i).ctx.events.bits) :
    Sound ⟨Function.update r.slot i v, n⟩ := by
  refine ⟨?_, ?_⟩
  · intro j
    by_cases hj : j = i
    · subst hj
      simpa using hv
    · simpa [hj] using hr.slots j
  · have hsum := sum_update r.slot i v (fun s => (s.ctx.events.bits : Int))
    simp only at hsum ⊢
    rw [hn, hr.pending]
    omega

/-- One critical section on one descriptor keeps the registry sound: the count moves
by the bits of that slot alone. -/
theorem Sound.call [Fintype F] {r r' : Registry F} {i : F} {c : SectionCall} {out : Section}
    (hr : r.Sound) (h : r.call i c = .ok (r', out)) : r'.Sound := by
  obtain ⟨ho, rfl⟩ := call_ok h
  have hspec := call_spec (hr.slots i) ho
  exact hr.put hspec.coherent hspec.pending

theorem reachable_sound [Fintype F] {r : Registry F} (hr : (machine F).Reachable r) : r.Sound := by
  refine Machine.Reachable.invariant (P := Sound) ?_ ?_ hr
  · intro s hinit
    subst hinit
    exact sound_init
  · rintro s ⟨i, c⟩ t hs ht
    obtain ⟨out, ho⟩ := machine_step ht
    exact hs.call ho

/-- In every state reached by critical sections in any order, with any results of
epoll_ctl and no failed assertion: the kernel's interest mask of a descriptor is
its `events`, absent for NONE; `m_pendingEventCount` is the number of event bits
set; and a bit is clear exactly when its context is empty, a set one having a
fiber or a callback and not both. -/
theorem registration_invariant [Fintype F] {r : Registry F} (hr : (machine F).Reachable r) :
    (∀ i, (r.slot i).kernel =
      if (r.slot i).ctx.events = Mask.none then none else some (r.slot i).ctx.events) ∧
    r.pending = ∑ i, ((r.slot i).ctx.events.bits : Int) ∧
    ∀ i e x, (r.slot i).ctx.getContext e = .ok x →
      ((r.slot i).ctx.events.has e = false ↔
        x.scheduler = none ∧ x.fiber = none ∧ x.cb = none) ∧
      ((r.slot i).ctx.events.has e = true → x.fiber.isSome = !x.cb.isSome) := by
  have hs := reachable_sound hr
  refine ⟨fun i => (hs.slots i).kernel, hs.pending, ?_⟩
  intro i e x hx
  cases e with
  | none => cases hx
  | read => cases hx; exact (hs.slots i).ctx.read
  | write => cases hx; exact (hs.slots i).ctx.write

/-- Two descriptors, a failed registration, a fiber and a callback, one cancelled. -/
theorem registration_invariant_run :
    ∃ r, (machine (Fin 2)).Reachable r ∧ r.pending = 1 ∧
      (r.slot 0).kernel = some ⟨false, true⟩ ∧
      (r.pending = ∑ i, ((r.slot i).ctx.events.bits : Int)) := by
  have hr : (machine (Fin 2)).Reachable _ := Machine.reachable_of_exec
    [(1, .addEvent .read none ⟨some 0, 7, true⟩ false),
      (0, .addEvent .read (some 3) ⟨some 0, 7, true⟩ true),
      (0, .addEvent .write none ⟨some 0, 7, true⟩ true),
      (0, .cancelEvent .read true)] rfl rfl
  exact ⟨_, hr, rfl, rfl, (registration_invariant hr).2.1⟩

end
end Registry

end HxSylar
