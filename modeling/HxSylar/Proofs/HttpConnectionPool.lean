import HxSylar.HttpConnectionPool
import Mathlib.Algebra.Ring.Nat
import Mathlib.Data.List.Nodup

namespace HxSylar.HttpConnectionPool
open Lib

/-- The connections that only a call in progress knows of. -/
def Call.owned : Call → List Nat
  | .delete invalid _ ptr => invalid ++ ptr.toList
  | .count ptr | .ret ptr | .drop ptr | .pushBack ptr => [ptr]
  | .lock _ | .connect | .uncount => []

/-- What a call still has in `m_total`. -/
def Call.weight : Call → Nat
  | .delete _ size ptr => size + ptr.toList.length
  | .ret _ | .drop _ | .uncount | .pushBack _ => 1
  | .lock _ | .connect | .count _ => 0

/-- The connections outside the calls. -/
def settled (p : HttpConnectionPool) : List Nat := p.conns ++ p.held

/-- Every connection is in one place and is alive, and the counter counts them, up to what the
calls in progress have yet to add or to take off. -/
structure Accounted (p : HttpConnectionPool) : Prop where
  total : p.total = Int32.ofNat (p.settled.length + (p.calls.map Call.weight).sum)
  nodup : (p.settled ++ p.calls.flatMap Call.owned).Nodup
  live : ∀ c ∈ p.settled ++ p.calls.flatMap Call.owned, c < p.next ∧ c ∉ p.deleted
  gone : ∀ c ∈ p.deleted, c < p.next

theorem scan_split {α : Type*} (f : α → Bool) (conns : List α) :
    conns = (scan f conns).1 ++ (scan f conns).2.1.toList ++ (scan f conns).2.2 := by
  induction conns with
  | nil => rfl
  | cons conn conns ih =>
    simp only [scan]
    split
    · exact congrArg (List.cons conn) ih
    · rfl

/-- What a step can do to the connections that its call and the pool have: leave them, delete one
or make one. -/
inductive Moves (p p' : HttpConnectionPool) (mine mine' : List Nat) : Prop
  | keep (hmine : mine'.Perm mine) (hdeleted : p'.deleted = p.deleted) (hnext : p'.next = p.next)
  | delete (c : Nat) (hmine : mine.Perm (c :: mine')) (hdeleted : p'.deleted = c :: p.deleted)
      (hnext : p'.next = p.next)
  | make (hmine : mine'.Perm (p.next :: mine)) (hdeleted : p'.deleted = p.deleted)
      (hnext : p'.next = p.next + 1)

/-- The connections and the weight of a call that may have returned. -/
def ownedOf (c : Option Call) : List Nat := (c.map Call.owned).getD []

def weightOf (c : Option Call) : Nat := (c.map Call.weight).getD 0

section Advance
variable (p : HttpConnectionPool) (connected : Nat → Bool) (connects : Bool) (c : Call)

theorem advance_moves : Moves p (p.advance connected connects c).1 (p.settled ++ c.owned)
    ((p.advance connected connects c).1.settled ++ ownedOf (p.advance connected connects c).2) := by
  cases c with
  | lock now =>
    rcases hscan : scan (p.invalid now connected) p.conns with ⟨invalid, ptr, rest⟩
    have hsplit := scan_split (p.invalid now connected) p.conns
    simp only [advance, hscan] at hsplit ⊢
    refine .keep ?_ rfl rfl
    rw [List.perm_iff_count]
    intro a
    simp only [settled, ownedOf, Call.owned, Option.map_some, Option.getD_some, hsplit,
      List.count_append, List.count_nil]
    omega
  | delete invalid size ptr =>
    cases invalid with
    | nil =>
      refine .keep ?_ rfl rfl
      cases ptr with
      | none => exact .refl _
      | some ptr => exact .refl _
    | cons conn invalid =>
      refine .delete conn ?_ rfl rfl
      exact List.perm_middle
  | connect =>
    rw [advance]
    split
    · refine .make ?_ rfl rfl
      exact List.perm_append_comm.trans (.of_eq (by simp [settled, ownedOf, Call.owned]))
    · exact .keep (.refl _) rfl rfl
  | count ptr => exact .keep (.refl _) rfl rfl
  | ret ptr =>
    refine .keep ?_ rfl rfl
    rw [List.perm_iff_count]
    intro a
    simp only [advance, settled, ownedOf, Call.owned, Option.map_none, Option.getD_none,
      List.count_append, List.count_cons, List.count_nil]
    omega
  | drop ptr =>
    refine .delete ptr ?_ rfl rfl
    exact List.perm_append_comm.trans (.of_eq (by simp [settled, advance, ownedOf, Call.owned]))
  | uncount => exact .keep (.refl _) rfl rfl
  | pushBack ptr =>
    refine .keep ?_ rfl rfl
    rw [List.perm_iff_count]
    intro a
    simp only [advance, settled, ownedOf, Call.owned, Option.map_none, Option.getD_none,
      List.count_append, List.count_nil]
    omega

/-- The counter changes by as much as what it counts. -/
theorem advance_total :
    (p.advance connected connects c).1.total + Int32.ofNat (p.settled.length + c.weight) =
      p.total + Int32.ofNat ((p.advance connected connects c).1.settled.length +
        weightOf (p.advance connected connects c).2) := by
  cases c with
  | lock now =>
    rcases hscan : scan (p.invalid now connected) p.conns with ⟨invalid, ptr, rest⟩
    have hsplit := scan_split (p.invalid now connected) p.conns
    simp only [advance, hscan] at hsplit ⊢
    simp only [settled, weightOf, Call.weight, Option.map_some, Option.getD_some, hsplit,
      List.length_append]
    congr 2
    omega
  | delete invalid size ptr =>
    cases invalid with
    | nil =>
      cases ptr with
      | none =>
        simp only [advance, settled, weightOf, Call.weight, Option.map_some, Option.getD_some,
          Int32.ofNat_add, Option.toList_none, List.length_nil]
        grind
      | some ptr =>
        simp only [advance, settled, weightOf, Call.weight, Option.map_some, Option.getD_some,
          Int32.ofNat_add, Option.toList_some, List.length_singleton]
        grind
    | cons conn invalid => rfl
  | connect =>
    rw [advance]
    split
    · rfl
    · rfl
  | count ptr =>
    simp only [advance, settled, weightOf, Call.weight, Option.map_some, Option.getD_some,
      Int32.ofNat_add]
    grind
  | ret ptr =>
    simp only [advance, settled, weightOf, Call.weight, Option.map_none, Option.getD_none,
      List.length_append, List.length_cons, Int32.ofNat_add]
    grind
  | drop ptr => rfl
  | uncount =>
    simp only [advance, settled, weightOf, Call.weight, Option.map_none, Option.getD_none,
      Int32.ofNat_add]
    grind
  | pushBack ptr =>
    simp only [advance, settled, weightOf, Call.weight, Option.map_none, Option.getD_none,
      List.length_append, List.length_singleton, Int32.ofNat_add]
    grind

end Advance

/-- A call among the others. -/
theorem calls_split {calls : List Call} {i : Nat} {c : Call} (h : calls[i]? = some c) :
    ∃ before behind, calls = before ++ c :: behind ∧
      (∀ c', calls.set i c' = before ++ c' :: behind) ∧ calls.eraseIdx i = before ++ behind := by
  obtain ⟨hi, rfl⟩ := List.getElem?_eq_some_iff.mp h
  refine ⟨calls.take i, calls.drop (i + 1), ?_, ?_, ?_⟩
  · rw [← List.drop_eq_getElem_cons hi, List.take_append_drop]
  · intro c'
    exact List.set_eq_take_append_cons_drop.trans (if_pos hi)
  · exact List.eraseIdx_eq_take_drop_succ _ _

/-- The lists of an advance hold a connection more or less than before, among those of the other
calls. -/
theorem Moves.keeps {p p' : HttpConnectionPool} {mine mine' others : List Nat}
    (h : Moves p p' mine mine') (hnodup : (mine ++ others).Nodup)
    (hlive : ∀ c ∈ mine ++ others, c < p.next ∧ c ∉ p.deleted) (hgone : ∀ c ∈ p.deleted, c < p.next) :
    (mine' ++ others).Nodup ∧ (∀ c ∈ mine' ++ others, c < p'.next ∧ c ∉ p'.deleted) ∧
      ∀ c ∈ p'.deleted, c < p'.next := by
  cases h with
  | keep hmine hdeleted hnext =>
    have hperm : (mine' ++ others).Perm (mine ++ others) := hmine.append_right others
    rw [hdeleted, hnext]
    exact ⟨hperm.nodup_iff.mpr hnodup, fun c hc => hlive c (hperm.mem_iff.mp hc), hgone⟩
  | delete c hmine hdeleted hnext =>
    have hperm : (mine ++ others).Perm (c :: (mine' ++ others)) := hmine.append_right others
    have hcons := hperm.nodup_iff.mp hnodup
    obtain ⟨hc, hrest⟩ := List.nodup_cons.mp hcons
    have hlive' : ∀ c' ∈ c :: (mine' ++ others), c' < p.next ∧ c' ∉ p.deleted :=
      fun c' hc' => hlive c' (hperm.mem_iff.mpr hc')
    rw [List.forall_mem_cons] at hlive'
    rw [hdeleted, hnext]
    refine ⟨hrest, ?_, ?_⟩
    · intro c' hc'
      refine ⟨(hlive'.2 c' hc').1, ?_⟩
      rw [List.mem_cons, not_or]
      exact ⟨fun heq => hc (heq ▸ hc'), (hlive'.2 c' hc').2⟩
    · rw [List.forall_mem_cons]
      exact ⟨hlive'.1.1, hgone⟩
  | make hmine hdeleted hnext =>
    have hperm : (mine' ++ others).Perm (p.next :: (mine ++ others)) := hmine.append_right others
    rw [hdeleted, hnext]
    refine ⟨hperm.nodup_iff.mpr (List.nodup_cons.mpr ⟨?_, hnodup⟩), ?_, ?_⟩
    · intro hmem
      exact Nat.lt_irrefl _ (hlive _ hmem).1
    · intro c hc
      rcases List.mem_cons.mp (hperm.mem_iff.mp hc) with rfl | hold
      · exact ⟨Nat.lt_succ_self _, fun hmem => Nat.lt_irrefl _ (hgone _ hmem)⟩
      · exact ⟨Nat.lt_succ_of_lt (hlive c hold).1, (hlive c hold).2⟩
    · intro c hc
      exact Nat.lt_succ_of_lt (hgone c hc)

namespace Accounted

/-- Calls and lists that hold the same connections with the same weight are accounted alike. -/
theorem of_perm {p : HttpConnectionPool} (own : List Nat) {weight : Nat}
    (hown : (p.settled ++ p.calls.flatMap Call.owned).Perm own)
    (hweight : p.settled.length + (p.calls.map Call.weight).sum = weight)
    (htotal : p.total = Int32.ofNat weight) (hnodup : own.Nodup)
    (hlive : ∀ c ∈ own, c < p.next ∧ c ∉ p.deleted) (hgone : ∀ c ∈ p.deleted, c < p.next) :
    Accounted p where
  total := by rw [hweight, htotal]
  nodup := hown.nodup_iff.mpr hnodup
  live c hc := hlive c (hown.mem_iff.mp hc)
  gone := hgone

theorem resume {p : HttpConnectionPool} (h : Accounted p) {i : Nat} {c : Call}
    (hc : p.calls[i]? = some c) (connected : Nat → Bool) (connects : Bool) :
    Accounted (match (p.advance connected connects c).2 with
      | some c' => { (p.advance connected connects c).1 with calls := p.calls.set i c' }
      | none => { (p.advance connected connects c).1 with calls := p.calls.eraseIdx i }) := by
  obtain ⟨before, behind, hcalls, hset, herase⟩ := calls_split hc
  have hperm : (p.settled ++ p.calls.flatMap Call.owned).Perm
      ((p.settled ++ c.owned) ++ (before ++ behind).flatMap Call.owned) := by
    rw [List.perm_iff_count]
    intro a
    simp only [hcalls, List.flatMap_append, List.flatMap_cons, List.count_append]
    omega
  obtain ⟨hnodup, hlive, hgone⟩ := (advance_moves p connected connects c).keeps
    (hperm.nodup_iff.mp h.nodup) (fun a ha => h.live a (hperm.mem_iff.mpr ha)) h.gone
  have htotal : (p.advance connected connects c).1.total = Int32.ofNat
      ((p.advance connected connects c).1.settled.length +
        weightOf (p.advance connected connects c).2 + ((before ++ behind).map Call.weight).sum) := by
    have hadvance := advance_total p connected connects c
    have hbefore := h.total
    simp only [hcalls, List.map_append, List.map_cons, List.sum_append, List.sum_cons] at hbefore
    simp only [Int32.ofNat_add, List.map_append, List.sum_append] at hadvance hbefore ⊢
    grind
  cases hnext : (p.advance connected connects c).2 with
  | none =>
    rw [hnext] at hnodup hlive htotal
    refine of_perm _ (.of_eq ?_) ?_ htotal hnodup hlive hgone
    · simp only [herase, settled, ownedOf, Option.map_none, Option.getD_none, List.append_nil]
    · simp only [herase, settled, weightOf, Option.map_none, Option.getD_none, Nat.add_zero]
  | some c' =>
    rw [hnext] at hnodup hlive htotal
    refine of_perm _ ?_ ?_ htotal hnodup hlive hgone
    · rw [List.perm_iff_count]
      intro a
      simp only [hset, settled, ownedOf, Option.map_some, Option.getD_some, List.flatMap_append,
        List.flatMap_cons, List.count_append]
      omega
    · simp only [hset, settled, weightOf, Option.map_some, Option.getD_some, List.map_append,
        List.map_cons, List.sum_append, List.sum_cons]
      omega

/-- `ReleasePtr` takes over a connection that a caller held. -/
theorem release {p p' : HttpConnectionPool} (h : Accounted p) {ptr : Nat} (hheld : ptr ∈ p.held)
    {c : Call} (hown : c.owned = [ptr]) (hweight : c.weight = 1) (hconns : p'.conns = p.conns)
    (hrest : p'.held = p.held.erase ptr) (hcalls : p'.calls = p.calls ++ [c])
    (htotal : p'.total = p.total) (hnext : p'.next = p.next) (hdeleted : p'.deleted = p.deleted) :
    Accounted p' := by
  have hlength : (p.held.erase ptr).length + 1 = p.held.length := by
    have hpos := List.length_pos_of_mem hheld
    rw [List.length_erase_of_mem hheld]
    omega
  refine of_perm (p.settled ++ p.calls.flatMap Call.owned) ?_ ?_ (htotal.trans h.total)
    h.nodup (by rw [hnext, hdeleted]; exact h.live) (by rw [hnext, hdeleted]; exact h.gone)
  · have hperm := List.perm_cons_erase hheld
    rw [List.perm_iff_count] at hperm ⊢
    intro a
    have hcount := hperm a
    simp only [settled, hconns, hrest, hcalls, List.flatMap_append, List.flatMap_cons,
      List.flatMap_nil, hown, List.count_append, List.count_cons, List.count_nil] at hcount ⊢
    omega
  · simp only [settled, hconns, hrest, hcalls, List.length_append, List.map_append, List.map_cons,
      List.map_nil, List.sum_append, List.sum_cons, List.sum_nil, hweight]
    omega

theorem step {p p' : HttpConnectionPool} (h : Accounted p) {a : Act} (hs : p.step a = some p') :
    Accounted p' := by
  cases a with
  | tick now =>
    simp only [HttpConnectionPool.step] at hs
    split at hs
    · cases hs
      exact ⟨h.total, h.nodup, h.live, h.gone⟩
    · cases hs
  | getConnection =>
    cases hs
    refine of_perm _ (.of_eq ?_) ?_ h.total h.nodup h.live h.gone
    · simp only [settled, List.flatMap_append, List.flatMap_cons, List.flatMap_nil, Call.owned,
        List.append_nil]
    · simp only [settled, List.map_append, List.map_cons, List.map_nil, List.sum_append,
        List.sum_cons, List.sum_nil, Call.weight, Nat.add_zero]
  | releasePtr ptr connected =>
    simp only [HttpConnectionPool.step] at hs
    split at hs
    · rename_i hheld
      cases hs
      split
      · exact h.release hheld (c := .drop ptr) rfl rfl rfl rfl rfl rfl rfl rfl
      · exact h.release hheld (c := .pushBack ptr) rfl rfl rfl rfl rfl rfl rfl rfl
    · cases hs
  | resume call connected connects =>
    obtain ⟨c, hc, rfl⟩ := Option.map_eq_some_iff.mp hs
    exact h.resume hc connected connects

end Accounted

theorem reachable_accounted {p : HttpConnectionPool} (hr : machine.Reachable p) : Accounted p := by
  refine hr.invariant ?_ (fun _ _ _ h hs => h.step hs)
  rintro _ ⟨maxAliveTime, maxRequest, clock, rfl⟩
  exact ⟨rfl, .nil, fun _ hc => (List.not_mem_nil hc).elim, fun _ hc => (List.not_mem_nil hc).elim⟩

/-- Whenever no call is in progress, the counter is the number of pooled and held connections (as
an `int32_t`, so the number itself below 2^31), and every connection is in one place only and
alive. -/
theorem pool_accounted (p : HttpConnectionPool) (hr : machine.Reachable p) (hquiet : p.calls = []) :
    p.total = Int32.ofNat (p.conns.length + p.held.length) ∧
      (p.conns.length + p.held.length < 2147483648 →
        p.total.toInt = p.conns.length + p.held.length) ∧
      p.conns.Nodup ∧ p.held.Nodup ∧ (∀ c ∈ p.conns, c ∉ p.held) ∧
      (∀ c ∈ p.conns, c ∉ p.deleted) ∧ ∀ c ∈ p.held, c ∉ p.deleted := by
  obtain ⟨htotal, hnodup, hlive, -⟩ := reachable_accounted hr
  simp only [hquiet, settled, List.map_nil, List.sum_nil, List.flatMap_nil, Nat.add_zero,
    List.append_nil, List.length_append] at htotal hnodup hlive
  obtain ⟨hconns, hheld, hdisjoint⟩ := List.nodup_append.mp hnodup
  refine ⟨htotal, ?_, hconns, hheld, fun c hc hc' => hdisjoint c hc c hc' rfl, ?_, ?_⟩
  · intro hlt
    rw [htotal, Int32.toInt_ofNat_of_lt hlt]
    rfl
  · intro c hc
    exact (hlive c (List.mem_append_left _ hc)).2
  · intro c hc
    exact (hlive c (List.mem_append_right _ hc)).2

/-- One call of `getConnection` that connects. -/
def connecting : List Act :=
  [.getConnection, .resume 0 (fun _ => true) true, .resume 0 (fun _ => true) true,
    .resume 0 (fun _ => true) true, .resume 0 (fun _ => true) true, .resume 0 (fun _ => true) true]

theorem pool_accounted_one_held :
    ∃ p, machine.Reachable p ∧ p.calls = [] ∧ p.held = [0] ∧
      p.total = Int32.ofNat (p.conns.length + p.held.length) := by
  obtain ⟨p, hr, hcalls, hheld⟩ := machine.exists_of_exec (fun p => p.calls = [] ∧ p.held = [0])
    connecting ⟨10000, 100, 0, rfl⟩ (by decide)
  exact ⟨p, hr, hcalls, hheld, (pool_accounted p hr hcalls).1⟩

end HxSylar.HttpConnectionPool
