import HxSylar.Proofs.FdManager

namespace HxSylar

theorem nonblock_or_rest (flags : Flags) :
    (flags ||| oNonblock) &&& ~~~oNonblock = flags &&& ~~~oNonblock := by
  ext i hi
  simp only [BitVec.getElem_and, BitVec.getElem_or, BitVec.getElem_not]
  cases oNonblock[i] <;> simp

theorem nonblock_andNot_rest (flags : Flags) :
    (flags &&& ~~~oNonblock) &&& ~~~oNonblock = flags &&& ~~~oNonblock := by
  rw [BitVec.and_assoc, BitVec.and_self]

namespace Hooked

/-- What the user asked of each descriptor, from the calls alone. -/
abbrev Asked := Int → Bool

/-- A new descriptor is blocking; after that the last request counts. -/
def asked (w : Asked) (_ : Hooked) (c : Call) (_ : Hooked) : Asked :=
  match c with
  | .socket fd _ | .accept fd _ => Function.update w fd false
  | .fcntlSetfl fd arg => Function.update w fd (arg &&& oNonblock != 0)
  | .ioctlFionbio fd v => Function.update w fd (v != 0)
  | .fcntlGetfl _ | .close _ => w

def askedMachine : Lib.Machine (Hooked × Asked) Call := machine.observe (fun _ => false) asked

/-- The contexts hold what was asked, each for its own descriptor. -/
structure Remembers (s : Hooked) (w : Asked) : Prop where
  tracked : Tracked s
  apart : ∀ fd fd' i, s.manager.entry fd = some (some i) → s.manager.entry fd' = some (some i) →
    fd' = fd
  user : ∀ fd i c, s.manager.entry fd = some (some i) → s.manager.ctxs[i]? = some c →
    c.userNonblock = w fd

section Steps
variable {s t : Hooked} {w : Asked}

theorem Remembers.opened (h : Remembers s w) {fd : Int} {ctx : FdCtx} (ht : Tracked t)
    (hb : 0 ≤ fd ∧ fd.toNat < s.manager.datas.length)
    (hm : t.manager = ⟨s.manager.datas.set fd.toNat (some s.manager.ctxs.length),
      s.manager.ctxs ++ [ctx]⟩)
    (huser : ctx.userNonblock = false) : Remembers t (Function.update w fd false) := by
  -- the new context is used by no older entry
  have hold : ∀ fd' i, fd' ≠ fd → t.manager.entry fd' = some (some i) →
      s.manager.entry fd' = some (some i) ∧ i < s.manager.ctxs.length := by
    intro fd' i hne hi
    rw [hm, FdManager.entry_set hb, if_neg hne] at hi
    exact ⟨hi, h.tracked.valid fd' i hi⟩
  have hnew : ∀ i, t.manager.entry fd = some (some i) → i = s.manager.ctxs.length := by
    intro i hi
    rw [hm, FdManager.entry_set hb, if_pos rfl] at hi
    cases hi
    rfl
  refine ⟨ht, ?_, ?_⟩
  · intro fd₁ fd₂ i h₁ h₂
    by_cases e₁ : fd₁ = fd
    · subst e₁
      by_cases e₂ : fd₂ = fd₁
      · exact e₂
      · exact absurd (hnew i h₁) (Nat.ne_of_lt (hold fd₂ i e₂ h₂).2)
    · by_cases e₂ : fd₂ = fd
      · subst e₂
        exact absurd (hnew i h₂) (Nat.ne_of_lt (hold fd₁ i e₁ h₁).2)
      · exact h.apart fd₁ fd₂ i (hold fd₁ i e₁ h₁).1 (hold fd₂ i e₂ h₂).1
  · intro fd' i c hi hc
    by_cases he : fd' = fd
    · subst he
      obtain rfl := hnew i hi
      rw [hm] at hc
      simp only [List.getElem?_concat_length, Option.some.injEq] at hc
      rw [← hc, huser, Function.update_self]
    · obtain ⟨hi', hlt⟩ := hold fd' i he hi
      rw [hm] at hc
      simp only [List.getElem?_append_left hlt] at hc
      rw [h.user fd' i c hi' hc, Function.update_of_ne he]

theorem Remembers.flagged (h : Remembers s w) {fd : Int} {i : CtxId} {v : Bool} (ht : Tracked t)
    (hi : s.manager.entry fd = some (some i)) (hm : t.manager = s.manager.setUserNonblock i v) :
    Remembers t (Function.update w fd v) := by
  have hentry : ∀ fd', t.manager.entry fd' = s.manager.entry fd' := by
    intro fd'
    rw [hm]
    rfl
  refine ⟨ht, ?_, ?_⟩
  · intro fd₁ fd₂ j h₁ h₂
    rw [hentry] at h₁ h₂
    exact h.apart fd₁ fd₂ j h₁ h₂
  · intro fd' j c hj hc
    rw [hentry] at hj
    rw [hm] at hc
    simp only [FdManager.setUserNonblock, List.getElem?_modify] at hc
    obtain ⟨d, hd, he⟩ := Option.map_eq_some_iff.mp hc
    by_cases hij : i = j
    · subst hij
      obtain rfl := h.apart fd fd' i hi hj
      rw [if_pos rfl] at he
      rw [← he, Function.update_self]
    · rw [if_neg hij] at he
      have hne : fd' ≠ fd := by
        intro hfd
        subst hfd
        rw [hi] at hj
        cases hj
        exact hij rfl
      rw [← he, Function.update_of_ne hne]
      exact h.user fd' j d hj hd

theorem Remembers.closed (h : Remembers s w) {fd : Int} (ht : Tracked t)
    (hb : 0 ≤ fd ∧ fd.toNat < s.manager.datas.length)
    (hm : t.manager = ⟨s.manager.datas.set fd.toNat none, s.manager.ctxs⟩) : Remembers t w := by
  have hold : ∀ fd' i, t.manager.entry fd' = some (some i) →
      s.manager.entry fd' = some (some i) := by
    intro fd' i hi
    rw [hm, FdManager.entry_set hb] at hi
    split at hi
    · cases hi
    · exact hi
  refine ⟨ht, ?_, ?_⟩
  · intro fd₁ fd₂ i h₁ h₂
    exact h.apart fd₁ fd₂ i (hold fd₁ i h₁) (hold fd₂ i h₂)
  · intro fd' i c hi hc
    rw [hm] at hc
    exact h.user fd' i c (hold fd' i hi) hc

theorem Remembers.step {c : Call} (h : Remembers s w) (hs : machine.step s c = some t) :
    Remembers t (asked w s c t) := by
  have hmove := h.tracked.move hs
  have ht := h.tracked.of_move hmove
  cases hmove with
  | opened hc hb hm _ huser _ _ _ =>
    rcases hc with rfl | rfl
    · exact h.opened ht hb hm huser
    · exact h.opened ht hb hm huser
  | flagged hc hi hm _ _ _ =>
    rcases hc with ⟨arg, rfl, rfl⟩ | ⟨v, rfl, rfl⟩
    · exact h.flagged ht hi hm
    · exact h.flagged ht hi hm
  | read he =>
    subst he
    exact h
  | closed hb hm _ => exact h.closed ht hb hm

theorem remembers_reachable {p : Hooked × Asked} (hr : askedMachine.Reachable p) :
    Remembers p.1 p.2 := by
  apply Lib.Machine.Reachable.invariant ?_ ?_ hr
  · intro p hp
    obtain ⟨hinit, hw⟩ := hp
    rw [hinit, hw]
    refine ⟨tracked_start, ?_, ?_⟩
    · intro fd fd' i hi
      exact absurd hi (entry_new fd i)
    · intro fd i c hi
      exact absurd hi (entry_new fd i)
  · intro p c q hp hs
    obtain ⟨hstep, hw⟩ := Lib.Machine.observe_step hs
    rw [hw]
    exact hp.step hstep

/-- The context a hooked call goes through is the one in the table. -/
theorem entry_of_socketCtx {fd : Int} {i : CtxId} {c : FdCtx}
    (h : s.socketCtx fd = some (some (i, c))) :
    s.manager.entry fd = some (some i) ∧ s.manager.ctxs[i]? = some c := by
  obtain ⟨r, hget, hr⟩ := Option.map_eq_some_iff.mp h
  obtain ⟨j, hj, hb⟩ := Option.bind_eq_some_iff.mp hr
  obtain ⟨d, hd, hif⟩ := Option.bind_eq_some_iff.mp hb
  split at hif
  · cases hif
  · cases hif
    refine ⟨?_, hd⟩
    simp only [FdManager.get] at hget
    split at hget
    · cases hget
      cases hj
    · split at hget
      · cases hget
      · rename_i e he
        simp only [Bool.not_false, Bool.or_true, ↓reduceIte, Option.some.injEq] at hget
        rw [← hget] at hj
        exact he.trans (congrArg some hj)

/-- Looking a context up does not depend on the kernel. -/
theorem socketCtx_kernel (s : Hooked) (k : Kernel) (fd : Int) :
    ({ s with kernel := k } : Hooked).socketCtx fd = s.socketCtx fd := by
  simp only [socketCtx, FdManager.get]
  split
  · rfl
  · split
    · rfl
    · rename_i e he
      simp

/-- Reading the flags shows the bit as the user last asked for it, and the kernel's other
bits, whatever the kernel's own bit is. -/
theorem getfl_as_asked {p : Hooked × Asked} (hr : askedMachine.Reachable p) {fd : Int} {i : CtxId}
    {c : FdCtx} (hctx : p.1.socketCtx fd = some (some (i, c))) {k : Kernel} {flags : Flags}
    (hk : k fd = some flags) :
    ∃ result, ({ p.1 with kernel := k } : Hooked).fcntlGetfl fd = some result ∧
      (result &&& oNonblock ≠ 0 ↔ p.2 fd = true) ∧
      result &&& ~~~oNonblock = flags &&& ~~~oNonblock := by
  have hremembers := remembers_reachable hr
  obtain ⟨hentry, hc⟩ := entry_of_socketCtx hctx
  have huser := hremembers.user fd i c hentry hc
  simp only [fcntlGetfl, hk, Option.bind_some, socketCtx_kernel, hctx, Option.map_some]
  refine ⟨_, rfl, ?_⟩
  rw [← huser]
  cases hu : c.userNonblock with
  | true =>
    simp only [↓reduceIte]
    exact ⟨iff_of_true (nonblock_or flags) trivial, nonblock_or_rest flags⟩
  | false =>
    simp only [Bool.false_eq_true, ↓reduceIte]
    exact ⟨iff_of_false (nonblock_andNot flags) (by simp), nonblock_andNot_rest flags⟩

/-- Asked for by `FIONBIO` and then taken back by `F_SETFL`, while the kernel keeps the bit. -/
theorem getfl_after_requests :
    ∃ p, askedMachine.Reachable p ∧ p.1.kernel 5 = some 0xc02 ∧
      ∃ result, p.1.fcntlGetfl 5 = some result ∧ (result &&& oNonblock ≠ 0 ↔ False) ∧
        result &&& ~~~oNonblock = 0x402 := by
  obtain ⟨p, hr, hw, hk, hctx⟩ := Lib.Machine.exists_of_exec askedMachine (s := ({}, fun _ => false))
    (fun p => p.2 5 = false ∧ p.1.kernel 5 = some 0xc02 ∧ p.1.socketCtx 5 = some (some (0,
      { isInit := true, isSocket := true, sysNonblock := true, fd := 5,
        sendTimeout := 0xffffffffffffffff })))
    [.socket 5 0x402, .ioctlFionbio 5 1, .fcntlSetfl 5 0x402] ⟨rfl, rfl⟩ (by decide)
  obtain ⟨result, hget, hbit, hrest⟩ := getfl_as_asked hr hctx hk
  refine ⟨p, hr, hk, result, hget, ?_, ?_⟩
  · rw [hbit, hw]
    simp
  · rw [hrest]
    decide

end Steps
end Hooked
end HxSylar
