import HxSylar.TcpServer
import HxSylar.Proofs.Socket
import Mathlib.Data.List.Basic

namespace HxSylar.TcpServer

/-- The system calls `bind` and `listen` were made for the address and succeeded. -/
def IsBound (a : Address × BindAnswers) : Bool := (bound a).succeeded

def IsListening (a : Address × BindAnswers) : Bool := IsBound a && (listening a).succeeded

/-- What is expected of `bind`: all the addresses or none. -/
def AllOrNothing (s : TcpServer) (addrs : List (Address × BindAnswers)) (ssl : Bool) : Prop :=
  let r := s.bind addrs [] ssl
  (r.returned = true ↔ ∀ a ∈ addrs, IsListening a = true) ∧
    (r.returned = true →
      r.server.mSocks = s.mSocks ++ addrs.map fun a => (listening a).socket) ∧
    (r.returned = false →
      r.fails = (addrs.filter fun a => !IsListening a).map Prod.fst ∧ r.server.mSocks = s.mSocks)

/-- `Socket::bind` returns true where it came to the system call and that succeeded, and leaves a
valid socket then. -/
theorem bound_spec (a : Address × BindAnswers) :
    (bound a).returned = IsBound a ∧ (IsBound a = true → (bound a).socket.isValid = true) := by
  unfold IsBound bound Socket.bind
  dsimp only
  split
  · simp [Socket.Outcome.succeeded]
  · rename_i hvalid
    split
    · simp [Socket.Outcome.succeeded]
    · split
      · simp [Socket.Outcome.succeeded]
      · split
        · rename_i hrt
          simp [Socket.Outcome.succeeded, hrt]
        · rename_i hrt
          rw [not_not] at hrt
          have hsock : ∀ s : Socket, (s.getLocalAddress a.2.sockname).isValid = s.isValid := by
            intro s
            unfold Socket.getLocalAddress
            split
            · rfl
            · rfl
          simpa [Socket.Outcome.succeeded, hrt, hsock] using hvalid

/-- On a valid socket `listen` returns true, whatever the system call says. -/
theorem listening_spec {a : Address × BindAnswers} (h : IsBound a = true) :
    (listening a).returned = true := by
  rw [listening, Socket.listen, (bound_spec a).2 h]
  rfl

theorem bindAddress_eq (st : List Socket × List Address) (a : Address × BindAnswers) :
    bindAddress st a =
      if IsBound a then (st.1 ++ [(listening a).socket], st.2) else (st.1, st.2 ++ [a.1]) := by
  rw [bindAddress, (bound_spec a).1]
  by_cases h : IsBound a = true
  · simp [h, listening_spec h]
  · simp [h]

/-- The loop keeps the sockets that were bound and the addresses of the others, each in order. -/
theorem foldl_bindAddress (addrs : List (Address × BindAnswers)) (st : List Socket × List Address) :
    addrs.foldl bindAddress st =
      (st.1 ++ (addrs.filter IsBound).map fun a => (listening a).socket,
        st.2 ++ (addrs.filter fun a => !IsBound a).map Prod.fst) := by
  induction addrs generalizing st with
  | nil => simp
  | cons a addrs ih =>
    rw [List.foldl_cons, ih, bindAddress_eq]
    by_cases h : IsBound a = true
    · simp [h]
    · simp [h]

/-- `bind` reports the addresses that were not bound, and forgets all sockets if there are any. -/
theorem bind_eq (s : TcpServer) (addrs : List (Address × BindAnswers)) (ssl : Bool) :
    s.bind addrs [] ssl =
      if ∀ a ∈ addrs, IsBound a = true then
        ⟨{ mSocks := s.mSocks ++ addrs.map fun a => (listening a).socket, mSsl := ssl }, [], true⟩
      else
        ⟨{ mSocks := [], mSsl := ssl }, (addrs.filter fun a => !IsBound a).map Prod.fst, false⟩ := by
  unfold bind
  rw [foldl_bindAddress]
  dsimp only
  by_cases h : ∀ a ∈ addrs, IsBound a = true
  · have hnone : (addrs.filter fun a => !IsBound a) = [] := by simpa using h
    have hall : addrs.filter IsBound = addrs := List.filter_eq_self.mpr h
    rw [if_pos h, hnone, hall]
    rfl
  · have hsome : (addrs.filter fun a => !IsBound a) ≠ [] := by simpa using h
    rw [if_neg h]
    simp only [List.nil_append, List.isEmpty_map, List.isEmpty_eq_false_iff.mpr hsome,
      Bool.not_false, if_true]

/-- The addresses reported are those not listened on only if every bound one is listened on. -/
theorem listening_of_fails {addrs : List (Address × BindAnswers)}
    (h : (addrs.filter fun a => !IsBound a).map Prod.fst =
      (addrs.filter fun a => !IsListening a).map Prod.fst) :
    ∀ a ∈ addrs, IsBound a = true → (listening a).succeeded = true := by
  have hsub : (addrs.filter fun a => !IsBound a).Sublist (addrs.filter fun a => !IsListening a) := by
    apply List.monotone_filter_right
    intro a ha
    simp only [Bool.not_eq_true', IsListening, Bool.and_eq_false_iff] at ha ⊢
    exact Or.inl ha
  have hlength := congrArg List.length h
  rw [List.length_map, List.length_map] at hlength
  have hsame := hsub.eq_of_length hlength
  intro a ha hb
  by_cases hl : IsListening a = true
  · exact (Bool.and_eq_true_iff.mp hl).2
  · have hmem : a ∈ addrs.filter fun a => !IsListening a := by simp [ha, hl]
    rw [← hsame] at hmem
    simp [hb] at hmem

/-- All or nothing holds as long as every address that is bound is listened on, and either every
address is bound or there was no socket before: `listen` does not report a failure, and a failure of
`bind` takes the sockets of earlier calls with it. -/
theorem allOrNothing_iff (s : TcpServer) (addrs : List (Address × BindAnswers)) (ssl : Bool) :
    AllOrNothing s addrs ssl ↔
      (∀ a ∈ addrs, IsBound a = true → (listening a).succeeded = true) ∧
        ((∀ a ∈ addrs, IsBound a = true) ∨ s.mSocks = []) := by
  unfold AllOrNothing
  rw [bind_eq]
  by_cases hall : ∀ a ∈ addrs, IsBound a = true
  · rw [if_pos hall]
    dsimp only
    have hlisten : (∀ a ∈ addrs, IsListening a = true) ↔
        ∀ a ∈ addrs, IsBound a = true → (listening a).succeeded = true := by
      apply forall₂_congr
      intro a ha
      simp [IsListening, hall a ha]
    rw [hlisten]
    constructor
    · intro h
      exact ⟨h.1.mp rfl, Or.inl hall⟩
    · intro h
      refine ⟨iff_of_true rfl h.1, fun _ => rfl, ?_⟩
      intro hfalse
      cases hfalse
  · rw [if_neg hall]
    dsimp only
    constructor
    · intro h
      obtain ⟨hfails, hsocks⟩ := h.2.2 rfl
      exact ⟨listening_of_fails hfails, Or.inr hsocks.symm⟩
    · intro h
      obtain ⟨hlisten, hsocks⟩ := h
      refine ⟨?_, ?_, ?_⟩
      · apply iff_of_false Bool.false_ne_true
        intro hlistening
        apply hall
        intro a ha
        exact (Bool.and_eq_true_iff.mp (hlistening a ha)).1
      · intro hfalse
        cases hfalse
      · intro _
        refine ⟨?_, (hsocks.resolve_left hall).symm⟩
        congr 1
        apply List.filter_congr
        intro a ha
        cases hb : IsBound a with
        | false => simp [IsListening, hb]
        | true => simp [IsListening, hb, hlisten a ha hb]

/-- An address that `listen` refuses is reported as bound, and one that cannot be bound costs the
server the socket that it has. -/
theorem bind_partial :
    ¬AllOrNothing {} [({ family := 2 }, { socket := 5, bind := 0, listen := -1 })] false ∧
      ¬AllOrNothing { mSocks := [{ sock := 4, family := 2, type := Socket.tcp }] }
        [({ family := 2 }, { socket := 5, bind := -1, listen := 0 })] false := by
  constructor
  · intro h
    exact absurd (h.1.mp rfl) (by decide)
  · intro h
    exact absurd (h.2.2 rfl).2 (by decide)

end HxSylar.TcpServer
