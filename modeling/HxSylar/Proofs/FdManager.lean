import HxSylar.FdManager

namespace HxSylar

theorem nonblock_iff (flags : Flags) : flags &&& oNonblock ≠ 0 ↔ flags.getLsbD 11 = true := by
  have h : oNonblock = BitVec.twoPow 32 11 := by decide
  have hne : BitVec.twoPow 32 11 ≠ 0 := by decide
  rw [h, BitVec.and_twoPow]
  cases hb : flags.getLsbD 11 with
  | true => simpa only [↓reduceIte, iff_true] using hne
  | false => simp only [Bool.false_eq_true, ↓reduceIte, ne_eq, BitVec.ofNat_eq_ofNat,
      not_true_eq_false]

theorem nonblock_or (flags : Flags) : (flags ||| oNonblock) &&& oNonblock ≠ 0 := by
  rw [nonblock_iff, BitVec.getLsbD_or]
  simp [oNonblock]

theorem nonblock_andNot (flags : Flags) : ¬(flags &&& ~~~oNonblock) &&& oNonblock ≠ 0 := by
  rw [nonblock_iff, BitVec.getLsbD_and]
  simp [oNonblock]

/-- `F_SETFL` takes the bit from its argument. -/
theorem nonblock_setfl (flags arg : Flags) :
    ((flags &&& ~~~setflMask) ||| (arg &&& setflMask)) &&& oNonblock ≠ 0 ↔
      arg &&& oNonblock ≠ 0 := by
  rw [nonblock_iff, nonblock_iff, BitVec.getLsbD_or, BitVec.getLsbD_and, BitVec.getLsbD_and]
  simp [setflMask]

namespace FdManager
variable {m : FdManager} {fd : Int}

theorem entry_bounds {e : Option CtxId} (h : m.entry fd = some e) :
    0 ≤ fd ∧ fd.toNat < m.datas.length := by
  simp only [entry] at h
  split at h
  · rename_i hpos
    exact ⟨hpos, (List.getElem?_eq_some_iff.mp h).1⟩
  · cases h

theorem get_of_entry {e : Option CtxId} (h : m.entry fd = some e) (k : Kernel) :
    m.get k fd false = some (m, k, e) := by
  obtain ⟨hpos, hlt⟩ := entry_bounds h
  rw [get, if_neg (by omega), h]
  simp

/-- An insertion changes one entry and adds one context. -/
theorem entry_set (h : 0 ≤ fd ∧ fd.toNat < m.datas.length) (e : Option CtxId) (cs : List FdCtx)
    (fd' : Int) :
    entry { datas := m.datas.set fd.toNat e, ctxs := cs } fd' =
      if fd' = fd then some e else m.entry fd' := by
  simp only [entry]
  by_cases he : fd' = fd
  · subst he
    rw [if_pos h.1, if_pos rfl, List.getElem?_set_self h.2]
  · rw [if_neg he]
    split
    · rw [List.getElem?_set_ne (by omega)]
    · rfl

end FdManager

namespace Hooked

/-- The kernel flag is set wherever the context says so. -/
def Nonblocking (s : Hooked) : Prop :=
  ∀ fd i c, s.manager.entry fd = some (some i) → s.manager.ctxs[i]? = some c →
    c.isSocket = true → c.sysNonblock = true →
    ∃ flags, s.kernel fd = some flags ∧ flags &&& oNonblock ≠ 0

/-- The context of an open descriptor as every hooked call finds it. -/
def Sound (c : FdCtx) : Prop := c.isSocket = true ∧ c.sysNonblock = true ∧ c.isClosed = false

/-- Exactly the open descriptors have a context. -/
structure Tracked (s : Hooked) : Prop where
  sound : ∀ c ∈ s.manager.ctxs, Sound c
  valid : ∀ fd i, s.manager.entry fd = some (some i) → i < s.manager.ctxs.length
  open_iff : ∀ fd, (∃ i, s.manager.entry fd = some (some i)) ↔ s.kernel fd ≠ none

/-- The calls after which the flag is set: no descriptor comes blocking from the
kernel, and `FIONBIO` is never used to make one blocking. -/
def Call.Keeps : Call → Prop
  | .socket _ flags | .accept _ flags => flags &&& oNonblock ≠ 0
  | .ioctlFionbio _ v => v ≠ 0
  | _ => True

section Steps
variable {s t : Hooked} {fd : Int}

theorem Tracked.flags_set (h : Tracked s) :
    Nonblocking s ↔ ∀ fd flags, s.kernel fd = some flags → flags &&& oNonblock ≠ 0 := by
  constructor
  · intro hn fd flags hk
    obtain ⟨i, hi⟩ := (h.open_iff fd).mpr (by simp [hk])
    have hlt := h.valid fd i hi
    have hc := List.getElem?_eq_getElem hlt
    obtain ⟨hsock, hsys, _⟩ := h.sound _ (List.mem_of_getElem? hc)
    obtain ⟨flags', hk', hf⟩ := hn fd i _ hi hc hsock hsys
    rw [hk] at hk'
    cases hk'
    exact hf
  · intro hall fd i c hi _ _ _
    obtain ⟨flags, hk⟩ := Option.ne_none_iff_exists'.mp ((h.open_iff fd).mp ⟨i, hi⟩)
    exact ⟨flags, hk, hall fd flags hk⟩

/-- What `fcntl` and `ioctl` find on an open descriptor. -/
theorem Tracked.socketCtx (h : Tracked s) (ho : s.kernel fd ≠ none) :
    ∃ i c, s.manager.entry fd = some (some i) ∧ s.socketCtx fd = some (some (i, c)) ∧
      c.sysNonblock = true := by
  obtain ⟨i, hi⟩ := (h.open_iff fd).mpr ho
  have hc := List.getElem?_eq_getElem (h.valid fd i hi)
  obtain ⟨hsock, hsys, hclosed⟩ := h.sound _ (List.mem_of_getElem? hc)
  refine ⟨i, _, hi, ?_, hsys⟩
  simp only [Hooked.socketCtx, FdManager.get_of_entry hi, Option.map_some, Option.bind_some, hc,
    hsock, hclosed]
  rfl

/-- Neither the user's flag nor the kernel's flags matter to the tracking. -/
theorem Tracked.flags (h : Tracked s) {i : CtxId} {v : Bool} {f : Flags → Flags}
    (hm : t.manager = s.manager.setUserNonblock i v)
    (hk : t.kernel = Function.update s.kernel fd ((s.kernel fd).map f)) : Tracked t where
  sound c hc := by
    rw [hm] at hc
    obtain ⟨j, hj⟩ := List.getElem?_of_mem hc
    simp only [FdManager.setUserNonblock, List.getElem?_modify] at hj
    obtain ⟨d, hd, he⟩ := Option.map_eq_some_iff.mp hj
    have hs := h.sound d (List.mem_of_getElem? hd)
    subst he
    split
    · exact hs
    · exact hs
  valid fd' j hj := by
    rw [hm] at hj ⊢
    have hlt := h.valid fd' j hj
    simpa [FdManager.setUserNonblock] using hlt
  open_iff fd' := by
    have hopen := h.open_iff fd'
    rw [hm, hk]
    by_cases he : fd' = fd
    · subst he
      rw [Function.update_self]
      simpa [FdManager.setUserNonblock, FdManager.entry] using hopen
    · rw [Function.update_of_ne he]
      exact hopen

/-- One entry was set or cleared as its descriptor was opened or closed. -/
theorem Tracked.setEntry (h : Tracked s) (hb : 0 ≤ fd ∧ fd.toNat < s.manager.datas.length)
    {e : Option CtxId} {cs : List FdCtx}
    (hm : t.manager = ⟨s.manager.datas.set fd.toNat e, cs⟩)
    (hk : ∀ fd', fd' ≠ fd → t.kernel fd' = s.kernel fd') (hsound : ∀ c ∈ cs, Sound c)
    (hlen : s.manager.ctxs.length ≤ cs.length) (he : ∀ i, e = some i → i < cs.length)
    (hopen : (∃ i, e = some i) ↔ t.kernel fd ≠ none) : Tracked t where
  sound := by
    rw [hm]
    exact hsound
  valid fd' j hj := by
    rw [hm, FdManager.entry_set hb] at hj
    rw [hm]
    split at hj
    · exact he j (Option.some.inj hj)
    · exact Nat.lt_of_lt_of_le (h.valid fd' j hj) hlen
  open_iff fd' := by
    rw [hm, FdManager.entry_set hb]
    by_cases hfd : fd' = fd
    · subst hfd
      rw [if_pos rfl]
      simpa using hopen
    · rw [if_neg hfd, hk fd' hfd]
      exact h.open_iff fd'

/-- A step that leaves the other descriptors alone is judged by this one. -/
theorem nonblocking_change (fd : Int) (h : Tracked s) (hn : Nonblocking s) (ht : Tracked t)
    (hk : ∀ fd', fd' ≠ fd → t.kernel fd' = s.kernel fd') :
    Nonblocking t ↔ ∀ flags, t.kernel fd = some flags → flags &&& oNonblock ≠ 0 := by
  rw [ht.flags_set]
  constructor
  · intro hall flags hfd
    exact hall fd flags hfd
  · intro hfd fd' flags hk'
    by_cases he : fd' = fd
    · subst he
      exact hfd flags hk'
    · rw [hk fd' he] at hk'
      exact h.flags_set.mp hn fd' flags hk'

/-- What a call that goes through has done to the contexts and to the kernel. -/
inductive Move (s t : Hooked) : Call → Prop
  | opened {c : Call} {fd : Int} {flags flags' : Flags} {ctx : FdCtx} :
      c = .socket fd flags ∨ c = .accept fd flags →
      0 ≤ fd ∧ fd.toNat < s.manager.datas.length →
      t.manager = ⟨s.manager.datas.set fd.toNat (some s.manager.ctxs.length),
        s.manager.ctxs ++ [ctx]⟩ →
      Sound ctx → ctx.userNonblock = false →
      (∀ fd', fd' ≠ fd → t.kernel fd' = s.kernel fd') → t.kernel fd = some flags' →
      (flags' &&& oNonblock ≠ 0 ↔ flags &&& oNonblock ≠ 0) → Move s t c
  | flagged {c : Call} {fd : Int} {i : CtxId} {v : Bool} {f : Flags → Flags} :
      (∃ arg, c = .fcntlSetfl fd arg ∧ v = (arg &&& oNonblock != 0)) ∨
        (∃ w, c = .ioctlFionbio fd w ∧ v = (w != 0)) →
      s.manager.entry fd = some (some i) → t.manager = s.manager.setUserNonblock i v →
      t.kernel = Function.update s.kernel fd ((s.kernel fd).map f) → s.kernel fd ≠ none →
      (∀ flags, f flags &&& oNonblock ≠ 0 ↔ c.Keeps) → Move s t c
  | read {fd : Int} : t = s → Move s t (.fcntlGetfl fd)
  | closed {fd : Int} : 0 ≤ fd ∧ fd.toNat < s.manager.datas.length →
      t.manager = ⟨s.manager.datas.set fd.toNat none, s.manager.ctxs⟩ →
      t.kernel = Function.update s.kernel fd none → Move s t (.close fd)

theorem setfl_move (h : Tracked s) {arg : Flags} (hs : s.fcntlSetfl fd arg = some t) :
    Move s t (.fcntlSetfl fd arg) := by
  simp only [fcntlSetfl] at hs
  split at hs
  · cases hs
  · rename_i ho
    obtain ⟨i, c, hi, hctx, hsys⟩ := h.socketCtx ho
    rw [hctx] at hs
    simp only [Option.map_some, Option.some.injEq, hsys, ↓reduceIte] at hs
    subst hs
    refine .flagged (.inl ⟨arg, rfl, rfl⟩) hi rfl rfl ho ?_
    intro flags
    exact iff_of_true ((nonblock_setfl flags _).mpr (nonblock_or arg)) trivial

theorem fionbio_move (h : Tracked s) {v : Int} (hs : s.ioctlFionbio fd v = some t) :
    Move s t (.ioctlFionbio fd v) := by
  simp only [ioctlFionbio] at hs
  split at hs
  · cases hs
  · rename_i ho
    obtain ⟨i, c, hi, hctx, _⟩ := h.socketCtx ho
    rw [hctx] at hs
    simp only [Option.map_some, Option.some.injEq] at hs
    subst hs
    refine .flagged (.inr ⟨v, rfl, rfl⟩) hi rfl rfl ho ?_
    intro flags
    simp only [Call.Keeps]
    split
    · rename_i hv
      exact iff_of_true (nonblock_or flags) hv
    · rename_i hv
      exact iff_of_false (nonblock_andNot flags) hv

theorem close_move (h : Tracked s) (hs : s.close fd = some t) : Move s t (.close fd) := by
  simp only [Hooked.close] at hs
  split at hs
  · cases hs
  · rename_i ho
    obtain ⟨i, hi⟩ := (h.open_iff fd).mpr ho
    have hbounds := FdManager.entry_bounds hi
    have hdel : s.manager.del fd =
        some { datas := s.manager.datas.set fd.toNat none, ctxs := s.manager.ctxs } := by
      rw [FdManager.del, if_neg (by omega), hi, Option.map_some]
    rw [FdManager.get_of_entry hi] at hs
    simp only [Option.bind_some, Option.isSome_some, ↓reduceIte, hdel, Option.map_some,
      Option.some.injEq] at hs
    subst hs
    exact .closed hbounds rfl rfl

/-- A context made for an open descriptor. The kernel's flag stays what it was: it is
written only when it is set already. -/
theorem create_spec {k : Kernel} {flags : Flags} (hk : k fd = some flags) :
    Sound (FdCtx.create fd k).1 ∧ (FdCtx.create fd k).1.userNonblock = false ∧
      (∀ fd', fd' ≠ fd → (FdCtx.create fd k).2 fd' = k fd') ∧
      ∃ flags', (FdCtx.create fd k).2 fd = some flags' ∧
        (flags' &&& oNonblock ≠ 0 ↔ flags &&& oNonblock ≠ 0) := by
  simp only [FdCtx.create, FdCtx.init, hk, Bool.false_eq_true, ↓reduceIte]
  refine ⟨⟨rfl, rfl, rfl⟩, trivial, ?_, ?_⟩
  · intro fd' hne
    split
    · exact Function.update_of_ne hne _ _
    · rfl
  · split
    · rename_i hset
      refine ⟨_, by rw [Kernel.setfl, Function.update_self, hk, Option.map_some], ?_⟩
      rw [nonblock_setfl]
      exact ⟨fun _ => hset, fun _ => nonblock_or flags⟩
    · exact ⟨flags, hk, Iff.rfl⟩

theorem created_move (h : Tracked s) {c : Call} {flags : Flags}
    (hc : c = .socket fd flags ∨ c = .accept fd flags) (hs : s.created fd flags = some t) :
    Move s t c := by
  simp only [created] at hs
  split at hs
  · rename_i hnew
    obtain ⟨r, hget, he⟩ := Option.map_eq_some_iff.mp hs
    generalize hk : Function.update s.kernel fd (some flags) = k at hget
    have hkfd : k fd = some flags := by rw [← hk, Function.update_self]
    -- both ways through `get` end in the insertion
    have hins : s.manager.insert k fd = some r := by
      simp only [FdManager.get] at hget
      split at hget
      · exact hget
      · split at hget
        · cases hget
        · rename_i e he
          cases e with
          | none => exact hget
          | some i => exact absurd hnew.2 ((h.open_iff fd).mp ⟨i, he⟩)
    obtain ⟨e, hentry, hr⟩ := Option.map_eq_some_iff.mp hins
    obtain ⟨hsound, huser, hother, flags', hflags', hiff⟩ := create_spec hkfd
    have hkernel : t.kernel = (FdCtx.create fd k).2 := by
      rw [← he, ← hr]
    refine .opened hc (FdManager.entry_bounds hentry) ?_ hsound huser ?_ ?_ hiff
    · rw [← he, ← hr]
    · intro fd' hne
      rw [hkernel, hother fd' hne, ← hk, Function.update_of_ne hne]
    · rw [hkernel, hflags']
  · cases hs

theorem Tracked.move {c : Call} (h : Tracked s) (hs : machine.step s c = some t) : Move s t c := by
  cases c with
  | socket fd flags => exact created_move h (.inl rfl) hs
  | accept fd flags => exact created_move h (.inr rfl) hs
  | fcntlSetfl fd arg => exact setfl_move h hs
  | fcntlGetfl fd =>
    obtain ⟨_, _, he⟩ := Option.map_eq_some_iff.mp hs
    exact .read he.symm
  | ioctlFionbio fd v => exact fionbio_move h hs
  | close fd => exact close_move h hs

theorem Tracked.of_move {c : Call} (h : Tracked s) (hm : Move s t c) : Tracked t := by
  cases hm with
  | opened _ hb hmanager hsound _ hother hk _ =>
    refine h.setEntry hb hmanager hother ?_ ?_ ?_ ?_
    · intro d hd
      rcases List.mem_append.mp hd with hold | hlast
      · exact h.sound d hold
      · obtain rfl := List.mem_singleton.mp hlast
        exact hsound
    · rw [List.length_append]
      omega
    · intro i hi
      cases hi
      simp
    · rw [hk]
      simp
  | flagged _ _ hmanager hk _ _ => exact h.flags hmanager hk
  | read he =>
    subst he
    exact h
  | @closed fd hb hmanager hk =>
    refine h.setEntry (e := none) hb hmanager ?_ h.sound (Nat.le_refl _) ?_ ?_
    · intro fd' hne
      rw [hk, Function.update_of_ne hne]
    · intro i hi
      cases hi
    · rw [hk, Function.update_self]
      simp

theorem nonblocking_of_move {c : Call} (h : Tracked s) (hn : Nonblocking s) (hm : Move s t c) :
    Nonblocking t ↔ c.Keeps := by
  have ht := h.of_move hm
  cases hm with
  | @opened c fd flags flags' _ hc _ _ _ _ hother hk hiff =>
    rw [nonblocking_change fd h hn ht hother, hk]
    rcases hc with rfl | rfl
    · simpa [Call.Keeps] using hiff
    · simpa [Call.Keeps] using hiff
  | @flagged c fd _ _ f _ _ _ hk ho hf =>
    obtain ⟨flags, hflags⟩ := Option.ne_none_iff_exists'.mp ho
    rw [nonblocking_change fd h hn ht ?_, hk, Function.update_self, hflags]
    · simpa using hf flags
    · intro fd' hne
      rw [hk, Function.update_of_ne hne]
  | read he =>
    subst he
    exact iff_of_true hn trivial
  | @closed fd _ _ hk =>
    rw [nonblocking_change fd h hn ht ?_, hk, Function.update_self]
    · simp [Call.Keeps]
    · intro fd' hne
      rw [hk, Function.update_of_ne hne]

theorem tracked_step {c : Call} (h : Tracked s) (hn : Nonblocking s)
    (hs : machine.step s c = some t) : Tracked t ∧ (Nonblocking t ↔ c.Keeps) :=
  ⟨h.of_move (h.move hs), nonblocking_of_move h hn (h.move hs)⟩

theorem entry_new (fd : Int) (i : CtxId) : FdManager.entry {} fd ≠ some (some i) := by
  simp only [FdManager.entry]
  split
  · rw [List.getElem?_replicate]
    split <;> simp
  · simp

theorem tracked_start : Tracked {} := by
  refine ⟨by simp, fun fd i hi => absurd hi (entry_new fd i), fun fd => ?_⟩
  constructor
  · intro hi
    obtain ⟨i, hi⟩ := hi
    exact absurd hi (entry_new fd i)
  · intro hk
    exact absurd rfl hk

/-- The flag is set throughout a run exactly if every descriptor came from the kernel
with it and no `FIONBIO` cleared it. -/
theorem nonblocking_iff {cs : List Call} (he : machine.exec {} cs = some t) :
    machine.Always Nonblocking {} cs ↔ ∀ c ∈ cs, c.Keeps := by
  apply Lib.Machine.always_iff ?_ tracked_start ?_ he
  · intro s c u h hn hs
    exact tracked_step h hn hs
  · intro fd i c hi
    exact absurd hi (entry_new fd i)

/-- A socket made with `SOCK_NONBLOCK`, then told not to be. -/
theorem nonblocking_after_setfl :
    machine.Always Nonblocking {}
      [.socket 5 0x802, .fcntlSetfl 5 0x2, .ioctlFionbio 5 1, .fcntlGetfl 5] := by
  have hrun : (machine.exec {}
      [.socket 5 0x802, .fcntlSetfl 5 0x2, .ioctlFionbio 5 1, .fcntlGetfl 5]).isSome := by
    decide
  obtain ⟨t, he⟩ := Option.isSome_iff_exists.mp hrun
  apply (nonblocking_iff he).mpr
  intro c hc
  simp only [List.mem_cons, List.not_mem_nil, or_false] at hc
  rcases hc with rfl | rfl | rfl | rfl <;> simp [Call.Keeps, oNonblock]

/-- An ordinary socket: its flag is clear and `init` leaves it so. -/
theorem blocking_socket : ∃ t, machine.Reachable t ∧ ¬Nonblocking t := by
  obtain ⟨t, hr, hp⟩ := Lib.Machine.exists_of_exec machine (s := {})
    (fun t => t.manager.entry 5 = some (some 0) ∧ t.kernel 5 = some 0x2 ∧
      t.manager.ctxs.map (fun c => (c.isSocket, c.sysNonblock)) = [(true, true)])
    [.socket 5 0x2] rfl (by decide)
  refine ⟨t, hr, fun h => ?_⟩
  obtain ⟨hentry, hk, hctxs⟩ := hp
  obtain ⟨c, hc, hflags⟩ := List.map_eq_singleton_iff.mp hctxs
  obtain ⟨flags, hk', hset⟩ := h 5 0 c hentry (by rw [hc]; rfl) (congrArg Prod.fst hflags)
    (congrArg Prod.snd hflags)
  rw [hk] at hk'
  cases hk'
  exact hset (by decide)

end Steps
end Hooked
end HxSylar
