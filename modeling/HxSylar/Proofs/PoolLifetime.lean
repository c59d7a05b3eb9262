import HxSylar.Proofs.HttpConnectionPool
import Mathlib.Data.List.TakeWhile

namespace HxSylar.HttpConnectionPool
open Lib

/-- What the pool does with a connection: it is handed out from the pool, or its deletion is
decided. With it stand whether it was connected, the time of the call, when it was made and how
many requests it has served. -/
inductive Event
  | handedOut (connected : Bool) (now born request : Nat)
  | deleted (connected : Bool) (now born request : Nat)
  deriving DecidableEq, Repr

/-- A connection handed out is connected, young and has requests left; one that is deleted is
disconnected, old or has none left. -/
def Event.Follows (maxAlive maxRequest : Nat) : Event → Prop
  | .handedOut connected now born request =>
    connected = true ∧ now < born + maxAlive ∧ request < maxRequest
  | .deleted connected now born request =>
    connected = false ∨ born + maxAlive ≤ now ∨ maxRequest ≤ request

instance (maxAlive maxRequest : Nat) : DecidablePred (Event.Follows maxAlive maxRequest)
  | .handedOut _ _ _ _ => inferInstanceAs (Decidable (_ ∧ _))
  | .deleted _ _ _ _ => inferInstanceAs (Decidable (_ ∨ _))

/-- What the next step of a call does. -/
def Call.events (p : HttpConnectionPool) (connected : Nat → Bool) : Call → List Event
  | .lock now =>
    let (invalid, ptr, _) := scan (p.invalid now connected) p.conns
    invalid.map (fun c => .deleted (connected c) now (p.born c) (p.objects c).request) ++
      ptr.toList.map (fun c => .handedOut (connected c) now (p.born c) (p.objects c).request)
  | _ => []

/-- The events of a step. -/
def events (p : HttpConnectionPool) : Act → List Event
  | .resume call connected _ => (p.calls[call]?).toList.flatMap (Call.events p connected)
  | .releasePtr ptr connected =>
    let conn := { p.objects ptr with request := (p.objects ptr).request + 1 }
    let p := { p with objects := Function.update p.objects ptr conn }
    if p.expended ptr connected then [.deleted connected p.clock (p.born ptr) conn.request] else []
  | _ => []

/-- The pool with everything that it did. -/
def history : Machine (HttpConnectionPool × List Event) Act :=
  machine.observe [] (fun es p a _ => events p a ++ es)

/-- Every event so far follows the policy. -/
def Lawful (s : HttpConnectionPool × List Event) : Prop :=
  ∀ e ∈ s.2, e.Follows s.1.maxAliveTime.toNat s.1.maxRequest.toNat

/-- The loops over the pool at which the code does not go wrong. Its creation times are all zero, so
it compares the limit with the clock itself: once the clock has passed the limit no connection is
ever too old, and before that every one is. -/
def Call.Timely (p : HttpConnectionPool) (connected : Nat → Bool) : Call → Prop
  | .lock now =>
    if p.maxAliveTime.toNat ≤ now then
      ∀ c ∈ p.conns.find? connected, now < p.born c + p.maxAliveTime.toNat
    else ∀ c ∈ p.conns, connected c = false
  | _ => True

/-- The steps at which it does not. -/
def Timely (p : HttpConnectionPool) : Act → Prop
  | .resume call connected _ => ∀ c ∈ p.calls[call]?, c.Timely p connected
  | .releasePtr ptr connected =>
    connected = true → (p.objects ptr).request + 1 < p.maxRequest.toNat →
      p.maxAliveTime.toNat < p.clock ∨ p.born ptr + p.maxAliveTime.toNat ≤ p.clock
  | _ => True

instance (p : HttpConnectionPool) (connected : Nat → Bool) : DecidablePred (Call.Timely p connected)
  | .lock now => inferInstanceAs (Decidable (if p.maxAliveTime.toNat ≤ now then
      ∀ c ∈ p.conns.find? connected, now < p.born c + p.maxAliveTime.toNat
    else ∀ c ∈ p.conns, connected c = false))
  | .delete .. | .connect | .count _ | .ret _ | .drop _ | .uncount | .pushBack _ => isTrue trivial

instance (p : HttpConnectionPool) : DecidablePred (Timely p)
  | .resume .. => inferInstanceAs (Decidable (∀ c ∈ _, Call.Timely p _ c))
  | .releasePtr .. => inferInstanceAs (Decidable (_ = true → _ < _ → _ ∨ _))
  | .tick _ | .getConnection => isTrue trivial

/-- No creation time is ever set, and what is or goes back in the pool has requests left. -/
structure Pooled (p : HttpConnectionPool) : Prop where
  accounted : Accounted p
  untouched : ∀ c, (p.objects c).createTime = 0
  conns : ∀ c ∈ p.conns, (p.objects c).request < p.maxRequest.toNat
  returning : ∀ c, .pushBack c ∈ p.calls → (p.objects c).request < p.maxRequest.toNat

theorem scan_invalid (f : Nat → Bool) (conns : List Nat) :
    (scan f conns).1 = conns.takeWhile f := by
  induction conns with
  | nil => rfl
  | cons conn conns ih =>
    simp only [scan, List.takeWhile_cons]
    split
    · exact congrArg (List.cons conn) ih
    · rfl

theorem scan_ptr (f : Nat → Bool) (conns : List Nat) :
    (scan f conns).2.1 = conns.find? (fun c => !f c) := by
  induction conns with
  | nil => rfl
  | cons conn conns ih =>
    simp only [scan, List.find?_cons]
    split
    · rename_i hinvalid
      simp only [hinvalid, Bool.not_true]
      exact ih
    · rename_i hvalid
      simp only [Bool.eq_false_iff.mpr hvalid, Bool.not_false]

theorem addU64_zero (maxAlive : UInt32) : addU64 0 maxAlive.toNat = maxAlive.toNat := by
  have hlt := maxAlive.toNat_lt
  rw [addU64, Nat.zero_add, Nat.mod_eq_of_lt (by omega)]

theorem scan_rest (f : Nat → Bool) (conns : List Nat) :
    ∀ c ∈ (scan f conns).2.2, c ∈ conns := by
  intro c hc
  rw [scan_split f conns]
  exact List.mem_append_right _ hc

/-- What an advance can do to the objects, the pool and the limits. -/
theorem advance_objects (p : HttpConnectionPool) (connected : Nat → Bool) (connects : Bool)
    (c : Call) :
    ((p.advance connected connects c).1.objects = p.objects ∨
      (p.advance connected connects c).1.objects = Function.update p.objects p.next {}) ∧
    (∀ a ∈ (p.advance connected connects c).1.conns, a ∈ p.conns ∨ c = .pushBack a) ∧
    (∀ a, (p.advance connected connects c).2 ≠ some (.pushBack a)) ∧
    (p.advance connected connects c).1.maxAliveTime = p.maxAliveTime ∧
    (p.advance connected connects c).1.maxRequest = p.maxRequest := by
  cases c with
  | lock now =>
    refine ⟨.inl rfl, fun a ha => .inl (scan_rest _ _ a ha), fun a hnext => ?_, rfl, rfl⟩
    cases hnext
  | delete invalid size ptr =>
    cases invalid with
    | nil =>
      refine ⟨.inl rfl, fun a ha => .inl ha, fun a hnext => ?_, rfl, rfl⟩
      cases ptr with
      | none => cases hnext
      | some ptr => cases hnext
    | cons conn invalid =>
      refine ⟨.inl rfl, fun a ha => .inl ha, fun a hnext => ?_, rfl, rfl⟩
      cases hnext
  | connect =>
    rw [advance]
    split
    · refine ⟨.inr rfl, fun a ha => .inl ha, fun a hnext => ?_, rfl, rfl⟩
      cases hnext
    · refine ⟨.inl rfl, fun a ha => .inl ha, fun a hnext => ?_, rfl, rfl⟩
      cases hnext
  | count ptr =>
    refine ⟨.inl rfl, fun a ha => .inl ha, fun a hnext => ?_, rfl, rfl⟩
    cases hnext
  | ret ptr =>
    refine ⟨.inl rfl, fun a ha => .inl ha, fun a hnext => ?_, rfl, rfl⟩
    cases hnext
  | drop ptr =>
    refine ⟨.inl rfl, fun a ha => .inl ha, fun a hnext => ?_, rfl, rfl⟩
    cases hnext
  | uncount =>
    refine ⟨.inl rfl, fun a ha => .inl ha, fun a hnext => ?_, rfl, rfl⟩
    cases hnext
  | pushBack ptr =>
    refine ⟨.inl rfl, ?_, fun a hnext => ?_, rfl, rfl⟩
    · intro a ha
      rcases List.mem_append.mp ha with hold | hnew
      · exact .inl hold
      · rw [List.mem_singleton.mp hnew]
        exact .inr rfl
    · cases hnext

namespace Pooled

/-- A connection in the pool or on its way to it. -/
theorem request_lt {p : HttpConnectionPool} (h : Pooled p) {c : Nat}
    (hc : c ∈ p.conns ∨ .pushBack c ∈ p.calls) : (p.objects c).request < p.maxRequest.toNat := by
  rcases hc with hc | hc
  · exact h.conns c hc
  · exact h.returning c hc

theorem lt_next {p : HttpConnectionPool} (h : Pooled p) {c : Nat}
    (hc : c ∈ p.conns ∨ .pushBack c ∈ p.calls) : c < p.next := by
  refine (h.accounted.live c ?_).1
  rcases hc with hc | hc
  · exact List.mem_append_left _ (List.mem_append_left _ hc)
  · exact List.mem_append_right _ (List.mem_flatMap.mpr ⟨_, hc, List.mem_singleton.mpr rfl⟩)

theorem ne_held {p : HttpConnectionPool} (h : Pooled p) {c ptr : Nat}
    (hc : c ∈ p.conns ∨ .pushBack c ∈ p.calls) (hheld : ptr ∈ p.held) : c ≠ ptr := by
  have hnodup := h.accounted.nodup
  rw [settled, List.append_assoc] at hnodup
  obtain ⟨-, hrest, hconns⟩ := List.nodup_append.mp hnodup
  obtain ⟨-, -, hcalls⟩ := List.nodup_append.mp hrest
  rcases hc with hc | hc
  · exact hconns c hc ptr (List.mem_append_left _ hheld)
  · exact (hcalls ptr hheld c
      (List.mem_flatMap.mpr ⟨_, hc, List.mem_singleton.mpr rfl⟩)).symm

/-- The invariant is kept when what enters the pool was there or on its way to it, and the objects
of these have not been touched. -/
theorem of_subset {p p' : HttpConnectionPool} (h : Pooled p) (haccounted : Accounted p')
    (huntouched : ∀ c, (p'.objects c).createTime = 0) (hmax : p'.maxRequest = p.maxRequest)
    (hsame : ∀ c, c ∈ p.conns ∨ .pushBack c ∈ p.calls → p'.objects c = p.objects c)
    (hconns : ∀ c ∈ p'.conns, c ∈ p.conns ∨ .pushBack c ∈ p.calls)
    (hcalls : ∀ c, .pushBack c ∈ p'.calls → .pushBack c ∈ p.calls ∨
      (p'.objects c).request < p.maxRequest.toNat) : Pooled p' where
  accounted := haccounted
  untouched := huntouched
  conns c hc := by
    rw [hmax, hsame c (hconns c hc)]
    exact h.request_lt (hconns c hc)
  returning c hc := by
    rw [hmax]
    rcases hcalls c hc with hold | hnew
    · rw [hsame c (.inr hold)]
      exact h.returning c hold
    · exact hnew

theorem resume {p : HttpConnectionPool} (h : Pooled p) {i : Nat} {c : Call}
    (hc : p.calls[i]? = some c) (connected : Nat → Bool) (connects : Bool) :
    Pooled (match (p.advance connected connects c).2 with
      | some c' => { (p.advance connected connects c).1 with calls := p.calls.set i c' }
      | none => { (p.advance connected connects c).1 with calls := p.calls.eraseIdx i }) := by
  obtain ⟨hobjects, hconns, hpush, -, hmax⟩ := advance_objects p connected connects c
  have haccounted := h.accounted.resume hc connected connects
  have huntouched : ∀ a, ((p.advance connected connects c).1.objects a).createTime = 0 := by
    intro a
    rcases hobjects with heq | heq
    · rw [heq]
      exact h.untouched a
    · rw [heq, Function.update_apply]
      split
      · rfl
      · exact h.untouched a
  have hsame : ∀ a, a ∈ p.conns ∨ .pushBack a ∈ p.calls →
      (p.advance connected connects c).1.objects a = p.objects a := by
    intro a ha
    rcases hobjects with heq | heq
    · rw [heq]
    · rw [heq, Function.update_of_ne (Nat.ne_of_lt (h.lt_next ha))]
  have hconns' : ∀ a ∈ (p.advance connected connects c).1.conns,
      a ∈ p.conns ∨ .pushBack a ∈ p.calls := by
    intro a ha
    rcases hconns a ha with hold | rfl
    · exact .inl hold
    · exact .inr (List.mem_of_getElem? hc)
  cases hnext : (p.advance connected connects c).2 with
  | none =>
    rw [hnext] at haccounted
    exact h.of_subset haccounted huntouched hmax hsame hconns'
      (fun a ha => .inl (List.mem_of_mem_eraseIdx ha))
  | some c' =>
    rw [hnext] at haccounted
    refine h.of_subset haccounted huntouched hmax hsame hconns' (fun a ha => .inl ?_)
    rcases List.mem_or_eq_of_mem_set ha with hold | heq
    · exact hold
    · exact absurd (heq ▸ hnext) (hpush a)

theorem step {p p' : HttpConnectionPool} (h : Pooled p) {a : Act} (hs : p.step a = some p') :
    Pooled p' := by
  have haccounted := h.accounted.step hs
  cases a with
  | tick now =>
    simp only [HttpConnectionPool.step] at hs
    split at hs
    · cases hs
      exact h.of_subset haccounted h.untouched rfl (fun _ _ => rfl) (fun _ => .inl)
        (fun _ => .inl)
    · cases hs
  | getConnection =>
    cases hs
    refine h.of_subset haccounted h.untouched rfl (fun _ _ => rfl) (fun _ => .inl) (fun c hc => ?_)
    rcases List.mem_append.mp hc with hold | hnew
    · exact .inl hold
    · cases List.mem_singleton.mp hnew
  | releasePtr ptr connected =>
    simp only [HttpConnectionPool.step] at hs
    split at hs
    · rename_i hheld
      cases hs
      refine h.of_subset haccounted ?_ rfl ?_ (fun _ => .inl) ?_
      · intro c
        simp only [Function.update_apply]
        split
        · exact h.untouched ptr
        · exact h.untouched c
      · intro c hc
        exact Function.update_of_ne (h.ne_held hc hheld) _ _
      · intro c hc
        rcases List.mem_append.mp hc with hold | hnew
        · exact .inl hold
        · rw [List.mem_singleton] at hnew
          split at hnew
          · cases hnew
          · rename_i hkept
            cases hnew
            simp only [expended, Bool.or_eq_true, decide_eq_true_eq, not_or] at hkept
            exact .inr (Nat.lt_of_not_le hkept.2)
    · cases hs
  | resume call connected connects =>
    obtain ⟨c, hc, rfl⟩ := Option.map_eq_some_iff.mp hs
    exact h.resume hc connected connects

/-- The loop over the pool follows the policy exactly at the steps that `Timely` names. -/
theorem follows_lock {p : HttpConnectionPool} (h : Pooled p) (now : Nat) (connected : Nat → Bool) :
    (Call.lock now).Timely p connected ↔
    (∀ c ∈ (scan (p.invalid now connected) p.conns).1,
        (Event.deleted (connected c) now (p.born c) (p.objects c).request).Follows
          p.maxAliveTime.toNat p.maxRequest.toNat) ∧
      ∀ c, (scan (p.invalid now connected) p.conns).2.1 = some c →
        (Event.handedOut (connected c) now (p.born c) (p.objects c).request).Follows
          p.maxAliveTime.toNat p.maxRequest.toNat := by
  rw [scan_invalid, scan_ptr, Call.Timely]
  split
  · rename_i hlate
    have hinvalid : p.invalid now connected = fun c => !connected c := by
      funext c
      rw [invalid, h.untouched, addU64_zero, decide_eq_false (Nat.not_lt.mpr hlate), Bool.or_false]
    simp only [hinvalid, Bool.not_not]
    constructor
    · intro hyoung
      refine ⟨?_, ?_⟩
      · intro c hc
        have hoff := List.mem_takeWhile_imp hc
        exact .inl ((Bool.not_eq_true' _).mp hoff)
      · intro c hc
        exact ⟨List.find?_some hc, hyoung c hc, h.conns c (List.mem_of_find?_eq_some hc)⟩
    · rintro ⟨-, hptr⟩ c hc
      exact (hptr c hc).2.1
  · rename_i hearly
    have hinvalid : p.invalid now connected = fun _ => true := by
      funext c
      rw [invalid, h.untouched, addU64_zero, decide_eq_true (Nat.lt_of_not_le hearly), Bool.or_true]
    have hall : p.conns.takeWhile (fun _ => true) = p.conns :=
      List.takeWhile_eq_self_iff.mpr (fun _ _ => rfl)
    simp only [hinvalid, hall, Bool.not_true]
    constructor
    · intro hoff
      refine ⟨fun c hc => .inl (hoff c hc), ?_⟩
      intro c hc
      rw [List.find?_eq_none.mpr (fun _ _ => Bool.false_ne_true)] at hc
      cases hc
    · rintro ⟨hdeleted, -⟩ c hc
      -- No connection can be old while the clock is below the limit.
      rcases hdeleted c hc with hoff | hold | hused
      · exact hoff
      · omega
      · exact absurd (h.conns c hc) (Nat.not_lt.mpr hused)

theorem follows_iff_timely {p : HttpConnectionPool} (h : Pooled p) (a : Act) :
    (∀ e ∈ events p a, e.Follows p.maxAliveTime.toNat p.maxRequest.toNat) ↔ Timely p a := by
  cases a with
  | tick now => simp [events, Timely]
  | getConnection => simp [events, Timely]
  | releasePtr ptr connected =>
    simp only [events, Timely, expended, Function.update_self, h.untouched, addU64_zero]
    split
    · rename_i hexpended
      simp only [Bool.or_eq_true, Bool.not_eq_true', decide_eq_true_eq] at hexpended
      rw [List.forall_mem_singleton]
      simp only [Event.Follows]
      constructor
      · rintro (hoff | hold | hused) hon hleft
        · rw [hoff] at hon
          cases hon
        · exact .inr hold
        · omega
      · intro htimely
        cases connected with
        | false => exact .inl rfl
        | true =>
          by_cases hleft : (p.objects ptr).request + 1 < p.maxRequest.toNat
          · rcases htimely rfl hleft with hpast | hold
            · rcases hexpended with (hoff | hyoung) | hused
              · cases hoff
              · omega
              · omega
            · exact .inr (.inl hold)
          · exact .inr (.inr (Nat.le_of_not_lt hleft))
    · rename_i hkept
      simp only [Bool.or_eq_true, Bool.not_eq_true', decide_eq_true_eq, not_or] at hkept
      constructor
      · intro _ _ _
        exact .inl (Nat.lt_of_not_le hkept.1.2)
      · intro _ e he
        cases he
  | resume call connected connects =>
    simp only [events, Timely, List.forall_mem_flatMap, Option.mem_toList, Option.mem_def]
    refine forall₂_congr (fun c _ => ?_)
    cases c with
    | lock now =>
      simp only [h.follows_lock, Call.events, List.mem_append, or_imp, forall_and,
        List.forall_mem_map, Option.mem_toList]
    | delete invalid size ptr => simp [Call.events, Call.Timely]
    | connect => simp [Call.events, Call.Timely]
    | count ptr => simp [Call.events, Call.Timely]
    | ret ptr => simp [Call.events, Call.Timely]
    | drop ptr => simp [Call.events, Call.Timely]
    | uncount => simp [Call.events, Call.Timely]
    | pushBack ptr => simp [Call.events, Call.Timely]

end Pooled

theorem step_limits {p p' : HttpConnectionPool} {a : Act} (hs : p.step a = some p') :
    p'.maxAliveTime = p.maxAliveTime ∧ p'.maxRequest = p.maxRequest := by
  cases a with
  | tick now =>
    simp only [step] at hs
    split at hs
    · cases hs
      exact ⟨rfl, rfl⟩
    · cases hs
  | getConnection =>
    cases hs
    exact ⟨rfl, rfl⟩
  | releasePtr ptr connected =>
    simp only [step] at hs
    split at hs
    · cases hs
      exact ⟨rfl, rfl⟩
    · cases hs
  | resume call connected connects =>
    obtain ⟨c, -, rfl⟩ := Option.map_eq_some_iff.mp hs
    obtain ⟨-, -, -, halive, hrequest⟩ := advance_objects p connected connects c
    rcases hadvance : p.advance connected connects c with ⟨p', c'⟩
    rw [hadvance] at halive hrequest
    cases c' with
    | none => exact ⟨halive, hrequest⟩
    | some c' => exact ⟨halive, hrequest⟩

/-- What a step adds to the history. -/
theorem lawful_step {s t : HttpConnectionPool × List Event} {a : Act} (hpooled : Pooled s.1)
    (hlawful : Lawful s) (hs : history.step s a = some t) :
    Pooled t.1 ∧ (Lawful t ↔ Timely s.1 a) := by
  obtain ⟨hstep, hevents⟩ := Machine.observe_step hs
  obtain ⟨halive, hrequest⟩ := step_limits hstep
  refine ⟨hpooled.step hstep, ?_⟩
  rw [← hpooled.follows_iff_timely a, Lawful, hevents, halive, hrequest, List.forall_mem_append]
  exact and_iff_left hlawful

theorem pooled_new (maxAliveTime maxRequest : UInt32) (clock : Nat) :
    Pooled { maxAliveTime := maxAliveTime, maxRequest := maxRequest, clock := clock } where
  accounted := reachable_accounted (.start ⟨maxAliveTime, maxRequest, clock, rfl⟩)
  untouched _ := rfl
  conns _ hc := (List.not_mem_nil hc).elim
  returning _ hc := (List.not_mem_nil hc).elim

/-- A connection is made, used for that long, released and asked for again. -/
def reusing (used : Nat) : List Act :=
  connecting ++ [.tick (1700000000000 + used), .releasePtr 0 true, .resume 0 (fun _ => true) true,
    .getConnection, .resume 0 (fun _ => true) true]

end HxSylar.HttpConnectionPool
