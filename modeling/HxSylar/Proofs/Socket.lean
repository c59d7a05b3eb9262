import HxSylar.Socket

namespace HxSylar.Socket
open Lib

/-- What a call says of the connection: what it returned, and whether the system call succeeded. -/
inductive Event
  | connect (returned succeeded : Bool)
  | listen (returned succeeded : Bool)
  | init (succeeded : Bool)
  | close
  deriving DecidableEq, Repr

namespace Event

/-- A call reports what the system call did. -/
def Honest : Event → Prop
  | .connect returned succeeded | .listen returned succeeded => returned = succeeded
  | .init _ | .close => True

instance : DecidablePred Honest
  | .connect returned succeeded => inferInstanceAs (Decidable (returned = succeeded))
  | .listen returned succeeded => inferInstanceAs (Decidable (returned = succeeded))
  | .init _ | .close => isTrue trivial

/-- Whether the socket is connected after the call, if the call says. -/
def connection : Event → Option Bool
  | .connect _ succeeded | .init succeeded => some succeeded
  | .close => some false
  | .listen .. => none

end Event

/-- The system call was made and returned zero. -/
def Outcome.succeeded (o : Outcome) : Bool := o.called = some 0

def event (s : Socket) : Act → Option Event
  | .connect addr timeoutMs socket rt =>
    let o := s.connect addr timeoutMs socket rt
    some (.connect o.returned o.succeeded)
  | .reconnect timeoutMs socket rt =>
    let o := s.reconnect timeoutMs socket rt
    some (.connect o.returned o.succeeded)
  | .listen rt => some (.listen (s.listen rt).returned (s.listen rt).succeeded)
  | .init sock ctx sockname peername => some (.init (s.init sock ctx sockname peername).2)
  | .close => some .close
  | .bind .. | .getLocalAddress _ | .getRemoteAddress _ => none

/-- The socket with the calls made on it, the latest first. -/
def history : Machine (Socket × List Event) Act :=
  machine.observe [] (fun es s a _ => (event s a).toList ++ es)

/-- The latest `connect`, `reconnect` or `init` succeeded and no `close` followed. -/
def connectedBy (es : List Event) : Bool := (es.findSome? Event.connection).getD false

/-- Every call reported the truth, and so does the flag. -/
structure Consistent (s : Socket × List Event) : Prop where
  honest : ∀ e ∈ s.2, e.Honest
  flag : s.1.isConnected = connectedBy s.2
  valid : s.1.isConnected = true → s.1.isValid = true

/-- `connect` comes to its system call. -/
def Reaches (s : Socket) (addr : Address) (socket : Int) : Prop :=
  (s.isValid = true ∨ socket ≠ -1) ∧ addr.family = s.family

instance (s : Socket) (addr : Address) (socket : Int) : Decidable (s.Reaches addr socket) :=
  inferInstanceAs (Decidable (_ ∧ _))

/-- A `connect` at which the code does not go wrong. It leaves the flag, so it must succeed exactly
where the flag is set, and it hides a failure with a timeout. -/
def Suits (s : Socket) (addr : Address) (timeoutMs : UInt64) (socket rt : Int) : Prop :=
  ((s.Reaches addr socket ∧ rt = 0) ↔ s.isConnected = true) ∧
    (s.Reaches addr socket → timeoutMs ≠ noTimeout → rt = 0)

instance (s : Socket) (addr : Address) (timeoutMs : UInt64) (socket rt : Int) :
    Decidable (s.Suits addr timeoutMs socket rt) := inferInstanceAs (Decidable (_ ∧ _))

/-- The calls at which the code does not go wrong. -/
def Regular (s : Socket) : Act → Prop
  | .connect addr timeoutMs socket rt => s.Suits addr timeoutMs socket rt
  | .reconnect timeoutMs socket rt =>
    (s.remoteAddress = none → s.isConnected = false) ∧
      ∀ addr ∈ s.remoteAddress, s.Suits addr timeoutMs socket rt
  | .listen rt => s.isValid = true → rt = 0
  | .init _ ctx _ _ =>
    ctx.any (fun ctx => ctx.isSocket && !ctx.isClosed) = true ∨ s.isConnected = false
  | .close | .bind .. | .getLocalAddress _ | .getRemoteAddress _ => True

instance (s : Socket) : DecidablePred (Regular s)
  | .connect addr timeoutMs socket rt =>
    inferInstanceAs (Decidable (s.Suits addr timeoutMs socket rt))
  | .reconnect timeoutMs socket rt => inferInstanceAs (Decidable
      ((s.remoteAddress = none → s.isConnected = false) ∧
        ∀ addr ∈ s.remoteAddress, s.Suits addr timeoutMs socket rt))
  | .listen rt => inferInstanceAs (Decidable (s.isValid = true → rt = 0))
  | .init .. => inferInstanceAs (Decidable (_ = true ∨ _ = false))
  | .close | .bind .. | .getLocalAddress _ | .getRemoteAddress _ => isTrue trivial

section Addresses
variable (s : Socket) (name : Option Address)

theorem getLocalAddress_isConnected : (s.getLocalAddress name).isConnected = s.isConnected := by
  rw [getLocalAddress]
  split
  · rfl
  · rfl

theorem getLocalAddress_isValid : (s.getLocalAddress name).isValid = s.isValid := by
  rw [getLocalAddress]
  split
  · rfl
  · rfl

theorem getRemoteAddress_isConnected : (s.getRemoteAddress name).isConnected = s.isConnected := by
  rw [getRemoteAddress]
  split
  · rfl
  · rfl

theorem getRemoteAddress_isValid : (s.getRemoteAddress name).isValid = s.isValid := by
  rw [getRemoteAddress]
  split
  · rfl
  · rfl

end Addresses

section Connect
variable (s : Socket) (addr : Address) (timeoutMs : UInt64) (socket rt : Int)

theorem openSock_isConnected : (s.openSock socket).isConnected = s.isConnected := by
  rw [openSock]
  split
  · rfl
  · rfl

theorem openSock_family : (s.openSock socket).family = s.family := by
  rw [openSock]
  split
  · rfl
  · rfl

theorem isValid_iff : s.isValid = true ↔ s.sock ≠ -1 := decide_eq_true_iff

theorem openSock_isValid :
    (s.openSock socket).isValid = true ↔ s.isValid = true ∨ socket ≠ -1 := by
  rw [openSock]
  split
  · rename_i hinvalid
    rw [Bool.not_eq_true'] at hinvalid
    rw [hinvalid, isValid_iff, newSock]
    simp
  · rename_i hvalid
    rw [Bool.not_eq_true', Bool.not_eq_false] at hvalid
    exact iff_of_true hvalid (.inl hvalid)

/-- `connect` opens the descriptor and leaves everything else; only without a timeout does it
report a failure. -/
theorem connect_eq : s.connect addr timeoutMs socket rt =
    if s.Reaches addr socket then
      ⟨s.openSock socket, decide (timeoutMs = noTimeout → rt = 0), some rt⟩
    else ⟨s.openSock socket, false, none⟩ := by
  by_cases hvalid : (s.openSock socket).isValid = true
  · by_cases hfamily : addr.family = s.family
    · have hreach : s.Reaches addr socket := ⟨(s.openSock_isValid socket).mp hvalid, hfamily⟩
      by_cases htimeout : timeoutMs = noTimeout
      · by_cases hrt : rt = 0
        · simp [connect, openSock_family, hvalid, hfamily, hreach, htimeout, hrt]
        · simp [connect, openSock_family, hvalid, hfamily, hreach, htimeout, hrt]
      · simp [connect, openSock_family, hvalid, hfamily, hreach, htimeout]
    · have hreach : ¬s.Reaches addr socket := fun h => hfamily h.2
      simp [connect, openSock_family, hvalid, hfamily, hreach]
  · have hreach : ¬s.Reaches addr socket := fun h => hvalid ((s.openSock_isValid socket).mpr h.1)
    simp [connect, hvalid, hreach]

theorem connect_socket : (s.connect addr timeoutMs socket rt).socket = s.openSock socket := by
  rw [connect_eq]
  split
  · rfl
  · rfl

theorem connect_succeeded : (s.connect addr timeoutMs socket rt).succeeded =
    decide (s.Reaches addr socket ∧ rt = 0) := by
  rw [connect_eq]
  split
  · rename_i hreach
    simp [Outcome.succeeded, hreach]
  · rename_i hreach
    simp [Outcome.succeeded, hreach]

theorem connect_honest : (s.connect addr timeoutMs socket rt).returned =
      (s.connect addr timeoutMs socket rt).succeeded ↔
    (s.Reaches addr socket → timeoutMs ≠ noTimeout → rt = 0) := by
  rw [connect_succeeded, connect_eq]
  split
  · rename_i hreach
    by_cases htimeout : timeoutMs = noTimeout
    · simp [hreach, htimeout]
    · by_cases hrt : rt = 0
      · simp [hreach, htimeout, hrt]
      · simp [hreach, htimeout, hrt]
  · rename_i hreach
    simp [hreach]

end Connect

/-- A call that leaves the flag and whose event says what the connection is. -/
theorem consistent_cons_iff {s : Socket × List Event} (h : Consistent s) {s' : Socket}
    (hconnected : s'.isConnected = s.1.isConnected) (hvalid : s.1.isValid = true → s'.isValid = true)
    {e : Event} {connected : Bool} (he : e.connection = some connected) :
    Consistent (s', e :: s.2) ↔ e.Honest ∧ connected = s.1.isConnected := by
  have hlatest : connectedBy (e :: s.2) = connected := by
    rw [connectedBy, List.findSome?_cons, he]
    rfl
  constructor
  · rintro ⟨hhonest, hflag, -⟩
    exact ⟨hhonest e (List.mem_cons_self ..), hlatest.symm.trans (hflag.symm.trans hconnected)⟩
  · rintro ⟨hhonest, hflag⟩
    refine ⟨?_, ?_, ?_⟩
    · exact List.forall_mem_cons.mpr ⟨hhonest, h.honest⟩
    · exact hconnected.trans (hflag.symm.trans hlatest.symm)
    · intro hset
      exact hvalid (h.valid (hconnected.symm.trans hset))

/-- A call that says nothing of the connection. -/
theorem Consistent.quiet {s : Socket × List Event} (h : Consistent s) {s' : Socket}
    (hconnected : s'.isConnected = s.1.isConnected)
    (hvalid : s.1.isValid = true → s'.isValid = true) : Consistent (s', s.2) where
  honest := h.honest
  flag := hconnected.trans h.flag
  valid hset := hvalid (h.valid (hconnected.symm.trans hset))

theorem decide_eq_bool {p : Prop} [Decidable p] {b : Bool} : decide p = b ↔ (p ↔ b = true) := by
  cases b with
  | false => simp
  | true => simp

theorem openSock_keeps_valid (s : Socket) (socket : Int) (h : s.isValid = true) :
    (s.openSock socket).isValid = true := (s.openSock_isValid socket).mpr (.inl h)

theorem consistent_connect_iff {s : Socket × List Event} (h : Consistent s) (addr : Address)
    (timeoutMs : UInt64) (socket rt : Int) :
    Consistent ((s.1.connect addr timeoutMs socket rt).socket,
        .connect (s.1.connect addr timeoutMs socket rt).returned
          (s.1.connect addr timeoutMs socket rt).succeeded :: s.2) ↔
      s.1.Suits addr timeoutMs socket rt := by
  rw [connect_socket, consistent_cons_iff h (openSock_isConnected _ _) (openSock_keeps_valid _ _) rfl,
    Event.Honest, connect_honest, connect_succeeded, decide_eq_bool, Suits, and_comm]

theorem consistent_reconnect_iff {s : Socket × List Event} (h : Consistent s) (timeoutMs : UInt64)
    (socket rt : Int) :
    Consistent ((s.1.reconnect timeoutMs socket rt).socket,
        .connect (s.1.reconnect timeoutMs socket rt).returned
          (s.1.reconnect timeoutMs socket rt).succeeded :: s.2) ↔
      Regular s.1 (.reconnect timeoutMs socket rt) := by
  cases hremote : s.1.remoteAddress with
  | none =>
    have hrefused : s.1.reconnect timeoutMs socket rt = ⟨s.1, false, none⟩ := by
      rw [reconnect, hremote]
    have hregular : Regular s.1 (.reconnect timeoutMs socket rt) ↔ s.1.isConnected = false := by
      simp [Regular, hremote]
    rw [hrefused, hregular, consistent_cons_iff h rfl id rfl]
    exact (and_iff_right rfl).trans eq_comm
  | some addr =>
    have hforget : Consistent ({ s.1 with localAddress := none }, s.2) := h.quiet rfl id
    have hconnect : s.1.reconnect timeoutMs socket rt =
        ({ s.1 with localAddress := none } : Socket).connect addr timeoutMs socket rt := by
      simp only [reconnect, hremote]
    rw [hconnect, consistent_connect_iff hforget addr timeoutMs socket rt]
    simp only [Regular, hremote, reduceCtorEq, Option.mem_def, Option.some.injEq, forall_eq',
      false_implies, true_and]
    exact Iff.rfl

theorem consistent_listen_iff {s : Socket × List Event} (h : Consistent s) (rt : Int) :
    Consistent ((s.1.listen rt).socket,
        .listen (s.1.listen rt).returned (s.1.listen rt).succeeded :: s.2) ↔
      (s.1.isValid = true → rt = 0) := by
  have hsocket : (s.1.listen rt).socket = s.1 := by
    rw [listen]
    split
    · rfl
    · rfl
  have hhonest : (s.1.listen rt).returned = (s.1.listen rt).succeeded ↔
      (s.1.isValid = true → rt = 0) := by
    by_cases hvalid : s.1.isValid = true
    · simp [listen, Outcome.succeeded, hvalid]
    · simp [listen, Outcome.succeeded, hvalid]
  rw [hsocket, ← hhonest]
  constructor
  · intro hcons
    exact hcons.honest _ (List.mem_cons_self ..)
  · intro heq
    exact ⟨List.forall_mem_cons.mpr ⟨heq, h.honest⟩, h.flag, h.valid⟩

theorem consistent_init_iff {s : Socket × List Event} (h : Consistent s) {sock : Int}
    (hsock : sock ≠ -1) (ctx : Option FdCtx) (sockname peername : Option Address) :
    Consistent ((s.1.init sock ctx sockname peername).1,
        .init (s.1.init sock ctx sockname peername).2 :: s.2) ↔
      (ctx.any (fun ctx => ctx.isSocket && !ctx.isClosed) = true ∨ s.1.isConnected = false) := by
  rw [init]
  split
  · rename_i hctx
    refine iff_of_true ?_ (.inl hctx)
    refine ⟨List.forall_mem_cons.mpr ⟨trivial, h.honest⟩, ?_, fun _ => ?_⟩
    · rw [getRemoteAddress_isConnected, getLocalAddress_isConnected]
      rfl
    · rw [getRemoteAddress_isValid, getLocalAddress_isValid]
      exact (isValid_iff _).mpr hsock
  · rename_i hctx
    rw [consistent_cons_iff h rfl id rfl, or_iff_right hctx, eq_comm]
    exact and_iff_right trivial

/-- `bind` may open the descriptor and note the local address. -/
theorem bind_socket (s : Socket) (addr : Address) (socket : Int) (probe : Int × Int) (rt : Int)
    (sockname : Option Address) :
    (s.bind addr socket probe rt sockname).socket = s.openSock socket ∨
      (s.bind addr socket probe rt sockname).socket =
        (s.openSock socket).getLocalAddress sockname := by
  simp only [bind]
  split
  · exact .inl rfl
  · split
    · exact .inl rfl
    · split
      · exact .inl rfl
      · split
        · exact .inl rfl
        · exact .inr rfl

theorem Consistent.bind {s : Socket × List Event} (h : Consistent s) (addr : Address) (socket : Int)
    (probe : Int × Int) (rt : Int) (sockname : Option Address) :
    Consistent ((s.1.bind addr socket probe rt sockname).socket, s.2) := by
  rcases bind_socket s.1 addr socket probe rt sockname with heq | heq
  · rw [heq]
    exact h.quiet (openSock_isConnected _ _) (openSock_keeps_valid _ _)
  · rw [heq]
    refine h.quiet ?_ ?_
    · rw [getLocalAddress_isConnected, openSock_isConnected]
    · rw [getLocalAddress_isValid]
      exact openSock_keeps_valid _ _

theorem Consistent.close {s : Socket × List Event} (h : Consistent s) :
    Consistent (s.1.close.1, .close :: s.2) := by
  have hoff : s.1.close.1.isConnected = false := by
    rw [Socket.close]
    split
    · rename_i hclosed
      simp only [Bool.and_eq_true, Bool.not_eq_true'] at hclosed
      exact hclosed.1
    · rfl
  refine ⟨List.forall_mem_cons.mpr ⟨trivial, h.honest⟩, hoff, ?_⟩
  intro hset
  rw [hoff] at hset
  cases hset

/-- A call keeps the socket consistent exactly when it is regular. -/
theorem consistent_step_iff {s t : Socket × List Event} {a : Act} (h : Consistent s)
    (hs : history.step s a = some t) : Consistent t ↔ Regular s.1 a := by
  obtain ⟨hstep, hevents⟩ := Machine.observe_step hs
  obtain ⟨s', es'⟩ := t
  cases hevents
  cases a with
  | connect addr timeoutMs socket rt =>
    cases hstep
    exact consistent_connect_iff h addr timeoutMs socket rt
  | reconnect timeoutMs socket rt =>
    cases hstep
    exact consistent_reconnect_iff h timeoutMs socket rt
  | bind addr socket probe rt sockname =>
    cases hstep
    exact iff_of_true (h.bind addr socket probe rt sockname) trivial
  | listen rt =>
    cases hstep
    exact consistent_listen_iff h rt
  | close =>
    cases hstep
    exact iff_of_true h.close trivial
  | init sock ctx sockname peername =>
    simp only [machine, step] at hstep
    split at hstep
    · cases hstep
    · rename_i hsock
      cases hstep
      exact consistent_init_iff h hsock ctx sockname peername
  | getLocalAddress sockname =>
    obtain rfl : s.1.getLocalAddress sockname = s' := Option.some.inj hstep
    refine iff_of_true (h.quiet (getLocalAddress_isConnected _ _) ?_) trivial
    rw [getLocalAddress_isValid]
    exact id
  | getRemoteAddress peername =>
    obtain rfl : s.1.getRemoteAddress peername = s' := Option.some.inj hstep
    refine iff_of_true (h.quiet (getRemoteAddress_isConnected _ _) ?_) trivial
    rw [getRemoteAddress_isValid]
    exact id

/-- Throughout a run of a new TCP socket every call and the flag tell the truth exactly when every
call is regular. -/
theorem consistent_iff_regular (family protocol : Int) (ls : List Act) {t : Socket × List Event}
    (he : history.exec ({ family := family, type := tcp, protocol := protocol }, []) ls = some t) :
    history.Always Consistent ({ family := family, type := tcp, protocol := protocol }, []) ls ↔
      history.Meets (fun s a => Regular s.1 a)
        ({ family := family, type := tcp, protocol := protocol }, []) ls := by
  refine Machine.always_iff_meets (I := Consistent) (fun _ h => h) ?_ ?_ ⟨nofun, rfl, nofun⟩ he
  · intro s a t h hregular hs
    exact (consistent_step_iff h hs).mpr hregular
  · intro s a t h hregular hs hcons
    exact hregular ((consistent_step_iff h hs).mp hcons)

/-- `127.0.0.1:80`, of the family `AF_INET`. -/
def peer : Address := { family := 2, text := "127.0.0.1:80" }

/-- An accepted connection is connected again and closed; then nobody listens any more. -/
def reopening : List Act :=
  [.init 5 (some { fd := 5, isSocket := true }) none (some peer), .reconnect noTimeout 6 0, .listen 0,
    .close, .connect peer noTimeout 6 (-1)]

theorem consistent_reopening :
    ∃ t, history.exec ({ family := 2, type := tcp, protocol := 0 }, []) reopening = some t ∧
      t.2 = [.connect false false, .close, .listen true true, .connect true true, .init true] ∧
      history.Always Consistent ({ family := 2, type := tcp, protocol := 0 }, []) reopening := by
  have hrun : (history.execUnder (fun s a => Regular s.1 a)
      ({ family := 2, type := tcp, protocol := 0 }, []) reopening).any (fun t => decide (t.2 =
        [.connect false false, .close, .listen true true, .connect true true, .init true])) = true := by
    decide
  obtain ⟨t, ht, hevents⟩ := (Option.any_eq_true _ _).mp hrun
  obtain ⟨he, hm⟩ := Machine.execUnder_some ht
  exact ⟨t, he, of_decide_eq_true hevents, (consistent_iff_regular 2 0 reopening he).mpr hm⟩

/-- A socket that has connected is not connected, and one that has not says it has. -/
theorem not_consistent_connect :
    (∃ t, history.Reachable t ∧ t.2 = [.connect true true] ∧ t.1.isConnected = false ∧
      ¬Consistent t) ∧
    ∃ t, history.Reachable t ∧ t.2 = [.connect true false] ∧ ¬Consistent t := by
  refine ⟨?_, ?_⟩
  · obtain ⟨t, hr, hevents, hflag⟩ := history.exists_of_exec
      (s := ({ family := 2, type := tcp, protocol := 0 }, []))
      (fun t => t.2 = [.connect true true] ∧ t.1.isConnected = false)
      [.connect peer noTimeout 5 0] ⟨⟨2, 0, rfl⟩, rfl⟩ (by decide)
    refine ⟨t, hr, hevents, hflag, fun h => ?_⟩
    have hconnected := h.flag
    rw [hflag, hevents] at hconnected
    cases hconnected
  · obtain ⟨t, hr, hevents⟩ := history.exists_of_exec
      (s := ({ family := 2, type := tcp, protocol := 0 }, []))
      (fun t => t.2 = [.connect true false]) [.connect peer 1000 5 (-1)] ⟨⟨2, 0, rfl⟩, rfl⟩
      (by decide)
    refine ⟨t, hr, hevents, fun h => ?_⟩
    have hhonest := h.honest
    rw [hevents, List.forall_mem_singleton] at hhonest
    cases hhonest

end HxSylar.Socket
