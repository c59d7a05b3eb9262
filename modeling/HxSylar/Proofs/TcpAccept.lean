import HxSylar.Lib.Outputs
import HxSylar.TcpAccept

namespace HxSylar.TcpServer
open Lib

/-- How many statements a loop has in front of it when it finds `m_isStop` set. -/
def AcceptPc.left : AcceptPc → Nat
  | .scheduled => 2
  | .test => 1
  | .accept => 3
  | .holds _ => 2
  | .ended => 0

namespace Accepting
variable {s t : Accepting} {i j : Nat}

theorem setPc_at (s : Accepting) (i j : Nat) (pc : AcceptPc) : (s.setPc i pc).loops[j]? =
    (s.loops[j]?).map (fun l => if i = j then { l with pc := pc } else l) := by
  rw [setPc, List.getElem?_modify]
  rfl

theorem setPc_socks (s : Accepting) (i : Nat) (pc : AcceptPc) :
    (s.setPc i pc).loops.map AcceptLoop.sock = s.loops.map AcceptLoop.sock := by
  apply List.ext_getElem?
  intro j
  rw [List.getElem?_map, List.getElem?_map, setPc_at, Option.map_map]
  congr 1
  funext l
  rw [Function.comp_apply]
  split <;> rfl

/-- What a statement of a loop does: where the loop is then, and whom it has scheduled. -/
inductive Move (s : Accepting) (i : Nat) (l : AcceptLoop) : AcceptPc → List (Nat × Nat) → Prop
  | begins (h : l.pc = .scheduled) : Move s i l .test []
  | tests (h : l.pc = .test) : Move s i l (if s.isStop then .ended else .accept) []
  | accepts {client : Nat} (h : l.pc = .accept) (hopen : l.sock ∉ s.closed) :
      Move s i l (.holds client) []
  | fails (h : l.pc = .accept) : Move s i l .test []
  | schedules {client : Nat} (h : l.pc = .holds client) : Move s i l .test [(i, client)]

theorem loop_cases {a : LoopAct} (h : machine.step s (.loop i a) = some t) :
    ∃ l pc new, s.loops[i]? = some l ∧ Move s i l pc new ∧
      t = { s.setPc i pc with clients := s.clients ++ new } := by
  obtain ⟨l, hl, h⟩ := Option.bind_eq_some_iff.mp h
  have hsame : ∀ pc, s.setPc i pc = { s.setPc i pc with clients := s.clients ++ [] } := by
    intro pc
    rw [List.append_nil]
    rfl
  cases a with
  | begins =>
    obtain ⟨hpc, ht⟩ := Option.ite_none_right_eq_some.mp h
    cases ht
    exact ⟨l, _, [], hl, .begins hpc, hsame _⟩
  | tests =>
    obtain ⟨hpc, ht⟩ := Option.ite_none_right_eq_some.mp h
    cases ht
    exact ⟨l, _, [], hl, .tests hpc, hsame _⟩
  | accepts client =>
    obtain ⟨⟨hpc, hopen⟩, ht⟩ := Option.ite_none_right_eq_some.mp h
    cases ht
    exact ⟨l, _, [], hl, .accepts hpc hopen, hsame _⟩
  | fails =>
    obtain ⟨hpc, ht⟩ := Option.ite_none_right_eq_some.mp h
    cases ht
    exact ⟨l, _, [], hl, .fails hpc, hsame _⟩
  | schedules =>
    rw [loopStep] at h
    split at h
    · rename_i client hpc
      cases h
      exact ⟨l, _, _, hl, .schedules hpc, rfl⟩
    · cases h

theorem close_cases (h : machine.step s .close = some t) : 0 < s.closing ∧
    t = { s with closing := s.closing - 1, closed := s.socks ++ s.closed, socks := [] } := by
  change s.close = some t at h
  rw [close] at h
  split at h
  · cases h
  · rename_i hclosing
    cases h
    exact ⟨Nat.pos_of_ne_zero hclosing, rfl⟩

/-- A loop has this client. -/
def Holds (s : Accepting) (e : Nat × Nat) : Prop :=
  ∃ l, s.loops[e.1]? = some l ∧ l.pc = .holds e.2

/-- A loop has this client or may still be given it. -/
def MayHand (s : Accepting) (e : Nat × Nat) : Prop :=
  ∃ l, s.loops[e.1]? = some l ∧ (l.pc = .accept ∨ l.pc = .holds e.2)

/-- What is said of the loops, is said of all but the one that has moved and of where that is now. -/
theorem at_move {l : AcceptLoop} {pc : AcceptPc} {new : List (Nat × Nat)} (hl : s.loops[i]? = some l)
    {j : Nat} {l' : AcceptLoop}
    (h : ({ s.setPc i pc with clients := s.clients ++ new } : Accepting).loops[j]? = some l') :
    i = j ∧ l' = { l with pc := pc } ∨ i ≠ j ∧ s.loops[j]? = some l' := by
  change (s.setPc i pc).loops[j]? = some l' at h
  rw [setPc_at] at h
  by_cases hij : i = j
  · subst hij
    rw [hl, Option.map_some, if_pos rfl] at h
    exact .inl ⟨rfl, (Option.some_inj.mp h).symm⟩
  · obtain ⟨l₀, hl₀, rfl⟩ := Option.map_eq_some_iff.mp h
    rw [if_neg hij]
    exact .inr ⟨hij, hl₀⟩

def left (s : Accepting) (i : Nat) : Nat := ((s.loops[i]?).map (fun l => l.pc.left)).getD 0

theorem left_le (s : Accepting) (i : Nat) : s.left i ≤ 3 := by
  rw [left]
  cases s.loops[i]? with
  | none => exact Nat.zero_le _
  | some l => cases hpc : l.pc <;> simp [hpc, AcceptPc.left]

/-- Whether a label is a statement of a loop. -/
def isOf (i : Nat) : AcceptAct → Bool
  | .loop j _ => j == i
  | _ => false

theorem Move.left {l : AcceptLoop} {pc : AcceptPc} {new : List (Nat × Nat)} (h : Move s i l pc new)
    (hstop : s.isStop = true) : pc.left + 1 ≤ l.pc.left := by
  cases h with
  | tests h =>
    rw [h, hstop]
    decide
  | begins h | accepts h | schedules h =>
    rw [h]
    exact Nat.le_refl _
  | fails h =>
    rw [h]
    decide

/-- While a server is stopped, a loop is done after three statements at most. -/
theorem exec_left {ls : List AcceptAct} (hstart : ∀ l ∈ ls, l ≠ .start) (hstop : s.isStop = true)
    (h : machine.exec s ls = some t) (i : Nat) : ls.countP (isOf i) ≤ s.left i := by
  induction ls generalizing s with
  | nil => exact Nat.zero_le _
  | cons l ls ih =>
    obtain ⟨u, hu, h⟩ := Option.bind_eq_some_iff.mp h
    have hrest : ∀ l ∈ ls, l ≠ .start := fun l hl => hstart l (List.mem_cons_of_mem _ hl)
    rw [List.countP_cons]
    cases l with
    | start => exact absurd rfl (hstart .start List.mem_cons_self)
    | stop =>
      cases hu
      have hcount : ls.countP (isOf i) ≤ s.stop.left i := ih hrest rfl h
      exact hcount
    | close =>
      obtain ⟨-, rfl⟩ := close_cases hu
      have hcount := ih hrest (by exact hstop) h
      exact hcount
    | loop j a =>
      obtain ⟨l, pc, new, hl, hmove, rfl⟩ := loop_cases hu
      have hcount := ih hrest (by exact hstop) h
      change ls.countP (isOf i) ≤ (s.setPc j pc).left i at hcount
      rw [left, setPc_at] at hcount
      by_cases hij : j = i
      · subst hij
        have hmoved := hmove.left hstop
        rw [hl, Option.map_some, if_pos rfl, Option.map_some, Option.getD_some] at hcount
        rw [left, hl, Option.map_some, Option.getD_some, isOf, beq_self_eq_true, if_pos rfl]
        exact Nat.le_trans (Nat.succ_le_succ hcount) hmoved
      · have hsame : (s.loops[i]?).map (fun l => if j = i then { l with pc := pc } else l) =
            s.loops[i]? := by
          simp only [if_neg hij, Option.map_id']
        rw [hsame] at hcount
        rw [isOf, beq_false_of_ne hij]
        exact hcount

theorem Move.mayHand {l : AcceptLoop} {pc : AcceptPc} {new : List (Nat × Nat)} {client : Nat}
    (h : Move s i l pc new) (hstop : s.isStop = true) (hpc : pc = .accept ∨ pc = .holds client) :
    l.pc = .accept := by
  cases h with
  | begins h | fails h | schedules h => exact absurd hpc (by simp)
  | tests h =>
    rw [hstop, if_pos rfl] at hpc
    exact absurd hpc (by simp)
  | accepts h => exact h

theorem Move.log {l : AcceptLoop} {pc : AcceptPc} {new : List (Nat × Nat)} (h : Move s i l pc new) :
    new = [] ∨ ∃ client, new = [(i, client)] ∧ l.pc = .holds client ∧ pc = .test := by
  cases h with
  | begins | tests | accepts | fails => exact .inl rfl
  | schedules h => exact .inr ⟨_, rfl, h, rfl⟩

/-- Behind `stop`, a loop hands over one client at most, and only if it was in `accept`. -/
theorem exec_stopped {ls : List AcceptAct} (hstart : ∀ l ∈ ls, l ≠ .start) (hstop : s.isStop = true)
    (h : machine.exec s ls = some t) : ∃ new, t.clients = s.clients ++ new ∧
      (new.map Prod.fst).Nodup ∧ ∀ e ∈ new, s.MayHand e := by
  refine Machine.exec_due Accepting.clients Prod.fst (fun s => s.isStop = true) (fun l => l ≠ .start)
    ?_ hstop hstart h
  intro s l u hs hl hu
  cases l with
  | start => exact absurd rfl hl
  | stop =>
    cases hu
    exact ⟨rfl, fun e he => he, .inl rfl⟩
  | close =>
    obtain ⟨-, rfl⟩ := close_cases hu
    exact ⟨hs, fun e he => he, .inl rfl⟩
  | loop i a =>
    obtain ⟨l, pc, new, hat, hmove, rfl⟩ := loop_cases hu
    refine ⟨hs, ?_, ?_⟩
    · rintro ⟨j, client⟩ ⟨l', hl', hpc⟩
      rcases at_move hat hl' with ⟨rfl, rfl⟩ | ⟨-, hother⟩
      · exact ⟨l, hat, .inl (hmove.mayHand hs hpc)⟩
      · exact ⟨l', hother, hpc⟩
    · rcases hmove.log with rfl | ⟨client, rfl, hholds, rfl⟩
      · exact .inl (List.append_nil _)
      · refine .inr ⟨_, rfl, ⟨l, hat, .inr hholds⟩, ?_⟩
        rintro ⟨j, client'⟩ ⟨l', hl', hpc⟩ heq
        rcases at_move hat hl' with ⟨-, rfl⟩ | ⟨hne, -⟩
        · exact absurd hpc (by simp)
        · exact hne heq.symm

/-- The sockets of all loops are known to the server. -/
def Known (s : Accepting) : Prop := ∀ l ∈ s.loops, l.sock ∈ s.socks ∨ l.sock ∈ s.closed

/-- All sockets are closed. -/
structure Shut (s : Accepting) : Prop where
  socks : s.socks = []
  loops : ∀ l ∈ s.loops, l.sock ∈ s.closed

theorem sock_move {pc : AcceptPc} {new : List (Nat × Nat)} {P : Nat → Prop}
    (h : ∀ l ∈ s.loops, P l.sock) :
    ∀ l ∈ ({ s.setPc i pc with clients := s.clients ++ new } : Accepting).loops, P l.sock := by
  intro l hl
  have hmem : l.sock ∈ (s.setPc i pc).loops.map AcceptLoop.sock := List.mem_map_of_mem hl
  rw [setPc_socks] at hmem
  obtain ⟨l', hl', heq⟩ := List.mem_map.mp hmem
  rw [← heq]
  exact h l' hl'

theorem known_of_reachable (h : machine.Reachable s) : Known s := by
  refine Machine.Reachable.invariant ?_ ?_ h
  · rintro s ⟨socks, -, rfl⟩ l hl
    cases hl
  · intro s l t hs ht
    cases l with
    | start =>
      cases ht
      rw [start]
      split
      · intro l hl
        rcases List.mem_append.mp hl with hl | hl
        · exact hs l hl
        · obtain ⟨sock, hsock, rfl⟩ := List.mem_map.mp hl
          exact .inl hsock
      · exact hs
    | stop =>
      cases ht
      exact hs
    | close =>
      obtain ⟨-, rfl⟩ := close_cases ht
      intro l hl
      exact .inr (List.mem_append.mpr (hs l hl))
    | loop i a =>
      obtain ⟨_, pc, new, -, -, rfl⟩ := loop_cases ht
      exact sock_move (P := fun sock => sock ∈ s.socks ∨ sock ∈ s.closed) hs

/-- Where all sockets are closed, only clients that a loop already has are handed over, whatever is
called. -/
theorem exec_shut {ls : List AcceptAct} (hs : Shut s) (h : machine.exec s ls = some t) :
    ∃ new, t.clients = s.clients ++ new ∧ (new.map Prod.fst).Nodup ∧ ∀ e ∈ new, s.Holds e := by
  refine Machine.exec_due Accepting.clients Prod.fst Shut (fun _ => True) ?_ hs (fun _ _ => trivial) h
  intro s l u hs _ hu
  cases l with
  | start =>
    cases hu
    rw [start]
    split
    · rw [hs.socks, List.map_nil, List.append_nil]
      exact ⟨⟨rfl, hs.loops⟩, fun e he => he, .inl rfl⟩
    · exact ⟨hs, fun e he => he, .inl rfl⟩
  | stop =>
    cases hu
    exact ⟨⟨hs.socks, hs.loops⟩, fun e he => he, .inl rfl⟩
  | close =>
    obtain ⟨-, rfl⟩ := close_cases hu
    exact ⟨⟨rfl, fun l hl => List.mem_append_right _ (hs.loops l hl)⟩, fun e he => he, .inl rfl⟩
  | loop i a =>
    obtain ⟨l, pc, new, hat, hmove, rfl⟩ := loop_cases hu
    refine ⟨⟨hs.socks, sock_move (P := fun sock => sock ∈ s.closed) hs.loops⟩, ?_, ?_⟩
    · rintro ⟨j, client⟩ ⟨l', hl', hpc⟩
      rcases at_move hat hl' with ⟨rfl, rfl⟩ | ⟨-, hother⟩
      · cases hmove with
        | begins | fails | schedules => cases hpc
        | tests =>
          revert hpc
          dsimp only
          split <;> nofun
        | accepts _ hopen => exact absurd (hs.loops l (List.mem_of_getElem? hat)) hopen
      · exact ⟨l', hother, hpc⟩
    · rcases hmove.log with rfl | ⟨client, rfl, hholds, rfl⟩
      · exact .inl (List.append_nil _)
      · refine .inr ⟨_, rfl, ⟨l, hat, hholds⟩, ?_⟩
        rintro ⟨j, client'⟩ ⟨l', hl', hpc⟩ heq
        rcases at_move hat hl' with ⟨-, rfl⟩ | ⟨hne, -⟩
        · cases hpc
        · exact hne heq.symm

/-- Until `stop` is called there is one loop for every socket, or none. -/
structure Started (s : Accepting) : Prop where
  socks : s.socks.Nodup
  closing : s.closing = 0
  loops : s.isStop = true ∧ s.loops = [] ∨ s.isStop = false ∧ s.loops.map AcceptLoop.sock = s.socks

theorem started_of_reachable (h : machine.ReachableUnder (fun _ l => l ≠ .stop) s) : Started s := by
  refine Machine.ReachableUnder.invariant ?_ ?_ h
  · rintro s ⟨socks, hsocks, rfl⟩
    exact ⟨hsocks, rfl, .inl ⟨rfl, rfl⟩⟩
  · intro s l t hs hl ht
    cases l with
    | start =>
      cases ht
      rw [start]
      rcases hs.loops with ⟨hstop, hnone⟩ | ⟨hstop, hloops⟩
      · rw [if_pos hstop]
        refine ⟨hs.socks, hs.closing, .inr ⟨rfl, ?_⟩⟩
        dsimp only
        rw [hnone, List.nil_append, List.map_map]
        exact List.map_id _
      · rw [if_neg (by rw [hstop]; exact Bool.false_ne_true)]
        exact hs
    | stop => exact absurd rfl hl
    | close =>
      obtain ⟨hclosing, -⟩ := close_cases ht
      rw [hs.closing] at hclosing
      exact absurd hclosing (Nat.lt_irrefl 0)
    | loop i a =>
      obtain ⟨l, pc, new, hat, -, rfl⟩ := loop_cases ht
      refine ⟨hs.socks, hs.closing, ?_⟩
      rcases hs.loops with ⟨hstop, hnone⟩ | ⟨hstop, hloops⟩
      · rw [hnone] at hat
        cases hat
      · exact .inr ⟨hstop, (setPc_socks s i pc).trans hloops⟩

/-- What holds of the accepting loops in every run. Until `stop` is called there is at most one loop
for a socket, however often `start` is called. Behind `stop`, without another `start`, every loop is
done after three statements and hands over one client at most, and none that was not waiting in
`accept` or had one. Behind the task of `stop`, only clients that a loop already has are handed over,
whatever is called, another `start` included. `bind` is not called again, and no descriptor is given
again while a loop waits for it. -/
theorem accepting_runs (h : machine.Reachable s) :
    (machine.ReachableUnder (fun _ l => l ≠ .stop) s → (s.loops.map AcceptLoop.sock).Nodup) ∧
      (∀ ls t, AcceptAct.start ∉ ls → machine.exec s (.stop :: ls) = some t →
        (∃ new, t.clients = s.clients ++ new ∧ (new.map Prod.fst).Nodup ∧ ∀ e ∈ new, s.MayHand e) ∧
          ∀ i, ls.countP (isOf i) ≤ 3) ∧
      ∀ ls t, machine.exec s (.close :: ls) = some t →
        ∃ new, t.clients = s.clients ++ new ∧ (new.map Prod.fst).Nodup ∧ ∀ e ∈ new, s.Holds e := by
  refine ⟨fun hstarted => ?_, fun ls t hstart hexec => ?_, fun ls t hexec => ?_⟩
  · obtain ⟨hsocks, -, hloops⟩ := started_of_reachable hstarted
    rcases hloops with ⟨-, hnone⟩ | ⟨-, hall⟩
    · rw [hnone]
      exact List.nodup_nil
    · rw [hall]
      exact hsocks
  · have hne : ∀ l ∈ ls, l ≠ .start := by
      rintro l hl rfl
      exact hstart hl
    refine ⟨exec_stopped (s := s.stop) hne rfl hexec, fun i => ?_⟩
    exact Nat.le_trans (exec_left (s := s.stop) hne rfl hexec i) (left_le _ _)
  · obtain ⟨u, hu, hexec⟩ := Option.bind_eq_some_iff.mp hexec
    obtain ⟨-, rfl⟩ := close_cases hu
    have hknown := known_of_reachable h
    have hshut : Shut
        { s with closing := s.closing - 1, closed := s.socks ++ s.closed, socks := [] } :=
      ⟨rfl, fun l hl => List.mem_append.mpr (hknown l hl)⟩
    obtain ⟨new, hnew, hnodup, hall⟩ := exec_shut hshut hexec
    exact ⟨new, hnew, hnodup, hall⟩

/-- One socket, whose loop gets a client that it has not scheduled yet when the task of `stop` runs. -/
theorem accepting_runs_restarted :
    ∃ new, ([(0, 7)] : List (Nat × Nat)) = [] ++ new ∧ (new.map Prod.fst).Nodup ∧
      ∀ e ∈ new, Holds { isStop := true, socks := [5], loops := [⟨5, .holds 7⟩], closing := 1 } e := by
  have hreachable : machine.Reachable
      { isStop := true, socks := [5], loops := [⟨5, .holds 7⟩], closing := 1 } :=
    Machine.reachable_of_exec (s := { socks := [5] })
      [.start, .loop 0 .begins, .loop 0 .tests, .loop 0 (.accepts 7), .stop]
      ⟨[5], List.nodup_singleton 5, rfl⟩ rfl
  exact (accepting_runs hreachable).2.2 [.start, .loop 0 .schedules, .loop 0 .tests, .loop 0 .fails] _
    rfl

end Accepting
end HxSylar.TcpServer
