import HxSylar.Proofs.Run

namespace HxSylar.Scheduler

/-- Where a worker stands with respect to one fiber: it may have taken an entry of
it, be about to enter it, execute it, or have left it without having written its
state back. `cb` says that it got there through a callback. -/
inductive Place
  | away
  | taken
  | entering (cb : Bool)
  | executing (cb : Bool)
  | leaving (cb : Bool)
  deriving DecidableEq, Repr

/-- A worker seen from one fiber; `owns` is that the fiber is its `cb_fiber`. -/
structure View where
  place : Place := .away
  owns : Bool := false
  deriving DecidableEq, Repr

/-- The life of one fiber: its state, the entries of it in the queue, whether it
exists yet, and all workers as it sees them. -/
structure Life (W : Type) where
  state : FiberState
  queued : Nat
  made : Bool
  view : W → View

namespace Life
variable {W : Type} [DecidableEq W]

/-- What may happen to a fiber, at the hands of worker `w` where there is one. The
premises on `queued` and `owns` are what a well-behaved program guarantees; the
others are tests that the code makes. -/
inductive Step : Life W → Life W → Prop
  | make (a : Life W) (hmade : a.made = false) : Step a { a with state := .init, made := true }
  | push (a : Life W) (hmade : a.made = true) (hready : a.state ≠ .ready)
      (hfree : a.state.dead = false →
        a.queued = 0 ∧ ∀ v, (a.view v).place ≠ .taken ∧ ∀ b, (a.view v).place ≠ .entering b)
      (hown : a.state ≠ .exec → ∀ v, (a.view v).owns = false) :
      Step a { a with queued := a.queued + 1 }
  | take (a : Life W) (w : W) (o : Bool) (n : Nat) (hw : a.view w = ⟨.away, o⟩)
      (hq : a.queued = n + 1) (hstate : a.state ≠ .exec) :
      Step a { a with queued := n, view := Function.update a.view w ⟨.taken, o⟩ }
  | discard (a : Life W) (w : W) (o : Bool) (hw : a.view w = ⟨.taken, o⟩) :
      Step a { a with view := Function.update a.view w ⟨.away, o⟩ }
  | enter (a : Life W) (w : W) (o : Bool) (hw : a.view w = ⟨.taken, o⟩)
      (hlive : a.state.dead = false) :
      Step a { a with view := Function.update a.view w ⟨.entering false, o⟩ }
  | reuse (a : Life W) (w : W) (hw : a.view w = ⟨.away, true⟩)
      (hended : a.state.dead = true ∨ a.state = .init) :
      Step a { a with state := .init, view := Function.update a.view w ⟨.entering true, true⟩ }
  | create (a : Life W) (w : W) (hmade : a.made = false) :
      Step a { a with
        state := .init, made := true, view := Function.update a.view w ⟨.entering true, true⟩ }
  | swapIn (a : Life W) (w : W) (b o : Bool) (hw : a.view w = ⟨.entering b, o⟩) :
      Step a { a with state := .exec, view := Function.update a.view w ⟨.executing b, o⟩ }
  | yieldToReady (a : Life W) (w : W) (b o : Bool) (hw : a.view w = ⟨.executing b, o⟩)
      (hq : a.queued = 0) :
      Step a { a with state := .ready, view := Function.update a.view w ⟨.leaving b, o⟩ }
  | yieldToHold (a : Life W) (w : W) (b o : Bool) (hw : a.view w = ⟨.executing b, o⟩) :
      Step a { a with view := Function.update a.view w ⟨.leaving b, o⟩ }
  | finish (a : Life W) (w : W) (b o : Bool) (st : FiberState) (hw : a.view w = ⟨.executing b, o⟩)
      (hdead : st.dead = true) (hq : o = true → a.queued = 0) :
      Step a { a with state := st, view := Function.update a.view w ⟨.leaving b, o⟩ }
  | requeue (a : Life W) (w : W) (b o : Bool) (hw : a.view w = ⟨.leaving b, o⟩)
      (hstate : a.state = .ready) :
      Step a { a with
        queued := a.queued + 1, view := Function.update a.view w ⟨.away, !b && o⟩ }
  | ended (a : Life W) (w : W) (o : Bool) (hw : a.view w = ⟨.leaving false, o⟩)
      (hdead : a.state.dead = true) :
      Step a { a with view := Function.update a.view w ⟨.away, o⟩ }
  | endedCb (a : Life W) (w : W) (o : Bool) (hw : a.view w = ⟨.leaving true, o⟩)
      (hdead : a.state.dead = true) :
      Step a { a with state := .init, view := Function.update a.view w ⟨.away, o⟩ }
  | hold (a : Life W) (w : W) (b o : Bool) (hw : a.view w = ⟨.leaving b, o⟩)
      (hlive : a.state.dead = false) :
      Step a { a with state := .hold, view := Function.update a.view w ⟨.away, !b && o⟩ }

/-- One worker at a time, as long as the fiber lives. -/
structure Ok (a : Life W) : Prop where
  fresh : a.made = false → a.queued = 0 ∧ ∀ v, a.view v = {}
  executing : ∀ v b, (a.view v).place = .executing b → a.state = .exec
  entering : ∀ v b, (a.view v).place = .entering b → a.state.dead = false ∧ a.state ≠ .exec
  taken : ∀ v, (a.view v).place = .taken → a.state ≠ .exec
  leaving : ∀ v b, (a.view v).place = .leaving b → a.state ≠ .init ∧ a.state ≠ .hold
  single : a.state.dead = false →
    ∀ u v, (a.view u).place ≠ .away → (a.view v).place ≠ .away → u = v
  left : ∀ u v b c, (a.view u).place = .leaving b → (a.view v).place = .leaving c → u = v
  queued : a.state.dead = false → a.queued ≤ 1
  claimed : a.state.dead = false → a.queued ≠ 0 →
    ∀ v, (a.view v).place ≠ .taken ∧ ∀ b, (a.view v).place ≠ .entering b
  ready : a.state = .ready → ∀ v b, (a.view v).place = .leaving b → a.queued = 0
  reserved : ∀ v, (a.view v).owns = true → a.state ≠ .exec → a.queued = 0
  owner : ∀ u v, (a.view u).owns = true → v ≠ u → a.view v = {}
  viaCb : ∀ v b, (a.view v).place = .entering b ∨ (a.view v).place = .executing b ∨
    (a.view v).place = .leaving b → (a.view v).owns = b
  unowned : ∀ v, (a.view v).place = .taken → (a.view v).owns = false

/-- What a worker's place asks of the fiber's state and of the queue. -/
structure Local (st : FiberState) (q : Nat) (x : View) : Prop where
  executing : ∀ b, x.place = .executing b → st = .exec
  entering : ∀ b, x.place = .entering b → st.dead = false ∧ st ≠ .exec
  taken : x.place = .taken → st ≠ .exec ∧ x.owns = false
  leaving : ∀ b, x.place = .leaving b → st ≠ .init ∧ st ≠ .hold ∧ (st = .ready → q = 0)
  queued : st.dead = false → q ≤ 1
  claimed : st.dead = false → q ≠ 0 → x.place ≠ .taken ∧ ∀ b, x.place ≠ .entering b
  reserved : x.owns = true → st ≠ .exec → q = 0
  viaCb : ∀ b, x.place = .entering b ∨ x.place = .executing b ∨ x.place = .leaving b → x.owns = b

/-- When nobody else is near the fiber, only the one worker has to be checked. -/
theorem ok_of_alone {a : Life W} {w : W} (alone : ∀ v, v ≠ w → a.view v = {})
    (hmade : a.made = true) (hw : Local a.state a.queued (a.view w)) : a.Ok := by
  have near : ∀ v, (a.view v).place ≠ .away ∨ (a.view v).owns = true → v = w := by
    intro v hv
    by_contra hne
    simp [alone v hne] at hv
  refine ⟨by simp [hmade], ?_, ?_, ?_, ?_, ?_, ?_, hw.queued, ?_, ?_, ?_, ?_, ?_, ?_⟩
  · intro v b hv
    obtain rfl := near v (by simp [hv])
    exact hw.executing b hv
  · intro v b hv
    obtain rfl := near v (by simp [hv])
    exact hw.entering b hv
  · intro v hv
    obtain rfl := near v (by simp [hv])
    exact (hw.taken hv).1
  · intro v b hv
    obtain rfl := near v (by simp [hv])
    exact ⟨(hw.leaving b hv).1, (hw.leaving b hv).2.1⟩
  · intro _ u v hu hv
    rw [near u (.inl hu), near v (.inl hv)]
  · intro u v b c hu hv
    rw [near u (by simp [hu]), near v (by simp [hv])]
  · intro hlive hq v
    by_cases hne : v = w
    · subst hne
      exact hw.claimed hlive hq
    · simp [alone v hne]
  · intro hst v b hv
    obtain rfl := near v (by simp [hv])
    exact (hw.leaving b hv).2.2 hst
  · intro v hv
    obtain rfl := near v (.inr hv)
    exact hw.reserved hv
  · intro u v hu hne
    obtain rfl := near u (.inr hu)
    exact alone v hne
  · intro v b hv
    obtain rfl := near v (by rcases hv with hv | hv | hv <;> simp [hv])
    exact hw.viaCb b hv
  · intro v hv
    obtain rfl := near v (by simp [hv])
    exact (hw.taken hv).2

omit [DecidableEq W] in
/-- While the fiber lives, a worker near it is the only one. -/
theorem Ok.alone {a : Life W} {w : W} (h : a.Ok) (hlive : a.state.dead = false)
    (hw : (a.view w).place ≠ .away) : ∀ v, v ≠ w → a.view v = {} := by
  intro v hne
  have hplace : (a.view v).place = .away := by
    by_contra hv
    exact hne (h.single hlive v w hv hw)
  have howns : (a.view v).owns = false := by
    by_contra hv
    have := h.owner v w (by simpa using hv) (Ne.symm hne)
    simp [this] at hw
  rw [show a.view v = ⟨(a.view v).place, (a.view v).owns⟩ from rfl, hplace, howns]

/-- Replacing a lone worker's view. -/
theorem Ok.settle {a : Life W} {w : W} {st : FiberState} {q : Nat} {x : View} {made : Bool}
    (alone : ∀ v, v ≠ w → a.view v = {}) (hmade : made = true) (hx : Local st q x) :
    Ok ⟨st, q, made, Function.update a.view w x⟩ := by
  refine ok_of_alone (w := w) ?_ hmade (by simpa using hx)
  intro v hne
  simpa [hne] using alone v hne

omit [DecidableEq W] in
theorem Ok.made {a : Life W} {w : W} {x : View} (h : a.Ok) (hw : a.view w = x) (hx : x ≠ {}) :
    a.made = true := by
  by_contra hm
  exact hx (hw ▸ (h.fresh (by simpa using hm)).2 w)

theorem update_cases (view : W → View) (w : W) (x : View) (v : W) :
    Function.update view w x v = view v ∨ v = w ∧ Function.update view w x v = x := by
  by_cases hv : v = w
  · exact .inr ⟨hv, by simp [hv]⟩
  · exact .inl (by simp [hv])

/-- A worker that turns away disturbs nothing: no field speaks of workers away. -/
theorem Ok.turnAway {a : Life W} {w : W} {o : Bool} (h : a.Ok) (hmade : a.made = true)
    (hw : (a.view w).owns = o) : Ok { a with view := Function.update a.view w ⟨.away, o⟩ } := by
  have hview := update_cases a.view w ⟨.away, o⟩
  constructor
  case fresh => simp [hmade]
  case executing => grind [h.executing]
  case entering => grind [h.entering]
  case taken => grind [h.taken]
  case leaving => grind [h.leaving]
  case single => grind [h.single]
  case left => grind [h.left]
  case queued => exact h.queued
  case claimed => grind [h.claimed]
  case ready => grind [h.ready]
  case reserved => grind [h.reserved]
  case owner => grind [h.owner]
  case viaCb => grind [h.viaCb]
  case unowned => grind [h.unowned]

omit [DecidableEq W] in
/-- A queued entry of a fiber that is not executing is the only claim on it. -/
theorem Ok.unclaimed {a : Life W} (h : a.Ok) (hlive : a.state.dead = false)
    (hexec : a.state ≠ .exec) (hq : a.queued ≠ 0) : ∀ v, a.view v = {} := by
  intro v
  have howns : (a.view v).owns = false := by
    by_contra hv
    exact hq (h.reserved v (by simpa using hv) hexec)
  have hplace : (a.view v).place = .away := by
    obtain ⟨htaken, hentering⟩ := h.claimed hlive hq v
    cases hp : (a.view v).place with
    | away => rfl
    | taken => exact absurd hp htaken
    | entering b => exact absurd hp (hentering b)
    | executing b => exact absurd (h.executing v b hp) hexec
    | leaving b =>
      have hleft := h.leaving v b hp
      have hready := h.ready
      cases hst : a.state with
      | init => exact absurd hst hleft.1
      | hold => exact absurd hst hleft.2
      | exec => exact absurd hst hexec
      | ready => exact absurd (hready hst v b hp) hq
      | term | except =>
        rw [hst] at hlive
        cases hlive
  rw [show a.view v = ⟨(a.view v).place, (a.view v).owns⟩ from rfl, hplace, howns]

/-- Taking an entry of a fiber that has ended only adds a worker that will drop it. -/
theorem Ok.takeDead {a : Life W} {w : W} {o : Bool} {n : Nat} (h : a.Ok)
    (hw : a.view w = ⟨.away, o⟩) (hq : a.queued = n + 1) (hdead : a.state.dead = true) :
    Ok { a with queued := n, view := Function.update a.view w ⟨.taken, o⟩ } := by
  have hexec : a.state ≠ .exec := by
    intro he
    rw [he] at hdead
    cases hdead
  have hmade : a.made = true := by
    by_contra hm
    have := (h.fresh (by simpa using hm)).1
    omega
  have howns : ∀ v, (a.view v).owns = false := by
    intro v
    by_contra hv
    have := h.reserved v (by simpa using hv) hexec
    omega
  have ho : o = false := by simpa [hw] using howns w
  have hview := update_cases a.view w ⟨.taken, o⟩
  constructor
  case fresh => simp [hmade]
  case executing => grind [h.executing]
  case entering => grind [h.entering]
  case taken => exact fun _ _ => hexec
  case leaving => grind [h.leaving]
  case single => simp [hdead]
  case left => grind [h.left]
  case queued => simp [hdead]
  case claimed => simp [hdead]
  case ready => grind [h.ready]
  case reserved => grind
  case owner => grind
  case viaCb => grind [h.viaCb]
  case unowned => grind

theorem dead_cases {st : FiberState} (h : st.dead = true) : st = .term ∨ st = .except := by
  cases st <;> simp_all [FiberState.dead]

omit [DecidableEq W] in
theorem Ok.push {a : Life W} (h : a.Ok) (hmade : a.made = true) (hready : a.state ≠ .ready)
    (hfree : a.state.dead = false →
      a.queued = 0 ∧ ∀ v, (a.view v).place ≠ .taken ∧ ∀ b, (a.view v).place ≠ .entering b)
    (hown : a.state ≠ .exec → ∀ v, (a.view v).owns = false) :
    Ok { a with queued := a.queued + 1 } where
  fresh := by simp [hmade]
  executing := h.executing
  entering := h.entering
  taken := h.taken
  leaving := h.leaving
  single := h.single
  left := h.left
  queued := fun hlive => by simp [(hfree hlive).1]
  claimed := fun hlive _ => (hfree hlive).2
  ready := fun hst => absurd hst hready
  reserved := by
    intro v hv hexec
    rw [hown hexec v] at hv
    cases hv
  owner := h.owner
  viaCb := h.viaCb
  unowned := h.unowned

/-- No step of the life breaks it. -/
theorem Ok.step {a b : Life W} (h : a.Ok) (hs : Step a b) : b.Ok := by
  cases hs with
  | make hmade =>
    obtain ⟨hq, hv⟩ := h.fresh hmade
    constructor <;> simp [hv, hq]
  | push hmade hready hfree hown => exact h.push hmade hready hfree hown
  | take w o n hw hq hstate =>
    cases hdead : a.state.dead with
    | true => exact h.takeDead hw hq hdead
    | false =>
      have alone := h.unclaimed hdead hstate (by omega)
      have ho : o = false := by
        have := alone w
        rw [hw] at this
        exact congrArg View.owns this
      have hn : n = 0 := by
        have := h.queued hdead
        omega
      have hm : a.made = true := by
        by_contra hm
        have := (h.fresh (by simpa using hm)).1
        omega
      subst ho hn
      exact Ok.settle (fun v _ => alone v) hm
        ⟨by simp, by simp, by simp [hstate], by simp, by simp, by simp, by simp, by simp⟩
  | discard w o hw => exact h.turnAway (h.made hw (by simp)) (by simp [hw])
  | enter w o hw hlive =>
    have alone := h.alone hlive (w := w) (by simp [hw])
    have hexec := h.taken w (by simp [hw])
    have ho : o = false := by simpa [hw] using h.unowned w (by simp [hw])
    have hq : a.queued = 0 := by
      by_contra hq
      exact (h.claimed hlive hq w).1 (by simp [hw])
    subst ho
    exact Ok.settle alone (h.made hw (by simp))
      ⟨by simp, by simp [hlive, hexec], by simp, by simp, by simp [hq], by simp [hq], by simp,
        by simp⟩
  | reuse w hw hended =>
    have alone := fun v hv => h.owner w v (by simp [hw]) hv
    have hexec : a.state ≠ .exec := by
      rcases hended with hd | hi
      · rcases dead_cases hd with hd | hd <;> simp [hd]
      · simp [hi]
    have hq := h.reserved w (by simp [hw]) hexec
    exact Ok.settle alone (h.made hw (by simp))
      ⟨by simp, by simp [FiberState.dead], by simp, by simp, by simp [hq], by simp [hq],
        by simp [hq], by simp⟩
  | create w hmade =>
    obtain ⟨hq, hv⟩ := h.fresh hmade
    exact Ok.settle (fun v _ => hv v) rfl
      ⟨by simp, by simp [FiberState.dead], by simp, by simp, by simp [hq], by simp [hq],
        by simp [hq], by simp⟩
  | swapIn w c o hw =>
    have hlive := (h.entering w c (by simp [hw])).1
    have alone := h.alone hlive (w := w) (by simp [hw])
    have ho : o = c := by simpa [hw] using h.viaCb w c (.inl (by simp [hw]))
    exact Ok.settle alone (h.made hw (by simp))
      ⟨by simp, by simp, by simp, by simp, fun _ => h.queued hlive, by simp, by simp, by simp [ho]⟩
  | yieldToReady w c o hw hq =>
    have hexec := h.executing w c (by simp [hw])
    have alone := h.alone (by simp [hexec, FiberState.dead]) (w := w) (by simp [hw])
    have ho : o = c := by simpa [hw] using h.viaCb w c (.inr (.inl (by simp [hw])))
    exact Ok.settle alone (h.made hw (by simp))
      ⟨by simp, by simp, by simp, by simp [hq], by simp [hq], by simp, by simp [hq], by simp [ho]⟩
  | yieldToHold w c o hw =>
    have hexec := h.executing w c (by simp [hw])
    have hlive : a.state.dead = false := by simp [hexec, FiberState.dead]
    have alone := h.alone hlive (w := w) (by simp [hw])
    have ho : o = c := by simpa [hw] using h.viaCb w c (.inr (.inl (by simp [hw])))
    exact Ok.settle alone (h.made hw (by simp))
      ⟨by simp, by simp, by simp, by simp [hexec], h.queued, by simp, by simp [hexec], by simp [ho]⟩
  | finish w c o st hw hdead hq =>
    have hexec := h.executing w c (by simp [hw])
    have alone := h.alone (by simp [hexec, FiberState.dead]) (w := w) (by simp [hw])
    have ho : o = c := by simpa [hw] using h.viaCb w c (.inr (.inl (by simp [hw])))
    refine Ok.settle alone (h.made hw (by simp))
      ⟨by simp, by simp, by simp, ?_, by simp [hdead], by simp, fun howns _ => hq howns,
        by simp [ho]⟩
    rcases dead_cases hdead with rfl | rfl <;> simp
  | requeue w c o hw hstate =>
    have hlive : a.state.dead = false := by simp [hstate, FiberState.dead]
    have alone := h.alone hlive (w := w) (by simp [hw])
    have ho : o = c := by simpa [hw] using h.viaCb w c (.inr (.inr (by simp [hw])))
    have hq := h.ready hstate w c (by simp [hw])
    exact Ok.settle alone (h.made hw (by simp))
      ⟨by simp, by simp, by simp, by simp, by simp [hq], by simp, by simp [ho], by simp⟩
  | ended w o hw hdead => exact h.turnAway (h.made hw (by simp)) (by simp [hw])
  | endedCb w o hw hdead =>
    have ho : o = true := by simpa [hw] using h.viaCb w true (.inr (.inr (by simp [hw])))
    have alone := fun v hv => h.owner w v (by simp [hw, ho]) hv
    have hexec : a.state ≠ .exec := by rcases dead_cases hdead with hd | hd <;> simp [hd]
    have hq := h.reserved w (by simp [hw, ho]) hexec
    exact Ok.settle alone (h.made hw (by simp))
      ⟨by simp, by simp, by simp, by simp, by simp [hq], by simp, by simp [hq], by simp⟩
  | hold w c o hw hlive =>
    have alone := h.alone hlive (w := w) (by simp [hw])
    have ho : o = c := by simpa [hw] using h.viaCb w c (.inr (.inr (by simp [hw])))
    exact Ok.settle alone (h.made hw (by simp))
      ⟨by simp, by simp, by simp, by simp, fun _ => h.queued hlive, by simp, by simp [ho], by simp⟩

end Life

/-- An entry that carries a callback. -/
def viaCb (ft : FiberAndThread) : Bool :=
  match ft.task with
  | .fiber _ => false
  | .cb _ => true

def isFiber (f : FiberId) (ft : FiberAndThread) : Bool := ft.task = .fiber f

/-- The entries of a fiber in the queue. -/
def queuedOf (s : Shared) (f : FiberId) : Nat := s.fibers.countP (isFiber f)

def Pc.place (f : FiberId) : Pc → Place
  | .dispatch (some ft) => if ft.task = .fiber f then .taken else .away
  | .swapIn ft g => if g = f then .entering (viaCb ft) else .away
  | .exec ft g => if g = f then .executing (viaCb ft) else .away
  | .swapOut ft g | .writeBack ft g => if g = f then .leaving (viaCb ft) else .away
  | _ => .away

def Worker.view (f : FiberId) (k : Worker) : View := ⟨k.pc.place f, k.cbFiber = some f⟩

variable {W : Type} [DecidableEq W]

/-- One fiber's life, read off a state of the scheduler. -/
def lifeOf (s : State W) (f : FiberId) : Life W where
  state := s.shared.state f
  queued := queuedOf s.shared f
  made := f < s.shared.nextFiber
  view w := (s.worker w).view f

/-- The worker holds an entry of the fiber that it has dequeued and not yet entered. -/
def Pc.awaits (f : FiberId) : Pc → Bool
  | .dispatch (some ft) => ft.task = .fiber f
  | .swapIn _ g => g = f
  | _ => false

/-- A fiber may be scheduled if it has not yielded to READY, if it has no other claim
on a worker unless it has ended, and if it is no worker's `cb_fiber` unless it is
executing. -/
def Schedulable (s : State W) (f : FiberId) : Prop :=
  s.shared.state f ≠ .ready ∧
  ((s.shared.state f).dead = false →
    queuedOf s.shared f = 0 ∧ ∀ w, (s.worker w).pc.awaits f = false) ∧
  (s.shared.state f ≠ .exec → ∀ w, (s.worker w).cbFiber ≠ some f)

/-- Nothing gives a fiber a second claim on a worker. -/
def OneClaim (s : State W) : Label W → Prop
  | .schedule fc _ => ∀ f, fc = some (.fiber f) → Schedulable s f
  | .scheduleRange fcs =>
      ∀ f, some (.fiber f) ∈ fcs → Schedulable s f ∧ fcs.count (some (.fiber f)) = 1
  | .run w .yieldToReady =>
      ∀ ft f, (s.worker w).pc = .exec ft f → queuedOf s.shared f = 0
  | .run w (.finish _) =>
      ∀ ft f, (s.worker w).pc = .exec ft f → (s.worker w).cbFiber = some f → queuedOf s.shared f = 0
  | _ => True

theorem Schedulable.push {s : State W} {f : FiberId} (h : Schedulable s f)
    (hmade : f < s.shared.nextFiber) :
    Life.Step (lifeOf s f) { lifeOf s f with queued := queuedOf s.shared f + 1 } := by
  refine .push (lifeOf s f) (by simpa [lifeOf] using hmade) h.1 ?_ ?_
  · intro hlive
    obtain ⟨hq, haw⟩ := h.2.1 hlive
    refine ⟨hq, fun v => ?_⟩
    have hv := haw v
    simp only [lifeOf, Worker.view]
    cases hpc : (s.worker v).pc with
    | dispatch ft =>
      cases ft with
      | none => simp [Pc.place]
      | some ft => simp_all [Pc.place, Pc.awaits]
    | swapIn ft g => simp_all [Pc.place, Pc.awaits]
    | exec ft g | swapOut ft g | writeBack ft g =>
      simp only [Pc.place]
      split <;> simp
    | start | scan | idle | exited => simp [Pc.place]
  · intro hexec v
    simpa [lifeOf, Worker.view] using h.2.2 hexec v

/-- A step that a fiber does not notice. -/
theorem life_same {s : State W} {s' : Shared} {k' : Worker} {w : W} {f : FiberId}
    (hstate : s'.state f = s.shared.state f) (hq : queuedOf s' f = queuedOf s.shared f)
    (hmade : f < s'.nextFiber ↔ f < s.shared.nextFiber) (hview : k'.view f = (s.worker w).view f) :
    lifeOf ⟨s', Function.update s.worker w k'⟩ f = lifeOf s f := by
  have hv : (fun v => (Function.update s.worker w k' v).view f) = fun v => (s.worker v).view f := by
    funext v
    by_cases hv : v = w
    · subst hv; simp [hview]
    · simp [hv]
  simp only [lifeOf, hstate, hq, hmade, hv]

theorem life_run (s : State W) (s' : Shared) (k' : Worker) (w : W) (f : FiberId) :
    lifeOf ⟨s', Function.update s.worker w k'⟩ f =
      ⟨s'.state f, queuedOf s' f, f < s'.nextFiber,
        Function.update (lifeOf s f).view w (k'.view f)⟩ := by
  have hv : (fun v => (Function.update s.worker w k' v).view f) =
      Function.update (fun v => (s.worker v).view f) w (k'.view f) := by
    funext v
    by_cases hv : v = w
    · subst hv; simp
    · simp [hv]
  simp only [lifeOf, hv]

@[simp] theorem setState_self (s : Shared) (f : FiberId) (st : FiberState) :
    (s.setState f st).state f = st := by simp [Shared.setState]

theorem setState_other (s : Shared) {f g : FiberId} (st : FiberState) (h : f ≠ g) :
    (s.setState g st).state f = s.state f := by simp [Shared.setState, h]

theorem life_becomes {s : State W} {s' : Shared} {k' : Worker} {w : W} {f : FiberId}
    {st : FiberState} {q : Nat} {m : Bool} {x : View} (hst : s'.state f = st)
    (hq : queuedOf s' f = q) (hm : decide (f < s'.nextFiber) = m) (hx : k'.view f = x)
    (h : Life.Step (lifeOf s f) ⟨st, q, m, Function.update (lifeOf s f).view w x⟩) :
    Life.Step (lifeOf s f) (lifeOf ⟨s', Function.update s.worker w k'⟩ f) := by
  rw [life_run, hst, hq, hm, hx]
  exact h

theorem queuedOf_append (s : Shared) (es : List FiberAndThread) (f : FiberId) :
    queuedOf { s with fibers := s.fibers ++ es } f = queuedOf s f + es.countP (isFiber f) := by
  simp [queuedOf]

/-- The entries of a fiber in a batch. -/
theorem countP_range (fcs : List (Option Task)) (f : FiberId) :
    (fcs.filterMap (fun fc => fc.map (fun t => (⟨t, -1⟩ : FiberAndThread)))).countP (isFiber f) =
      fcs.count (some (.fiber f)) := by
  rw [List.countP_filterMap, List.count]
  apply List.countP_congr
  intro fc _
  cases fc <;> simp [isFiber]

/-- The scan, seen from one fiber. -/
theorem dequeue_life {tid : Int} {s : State W} {w : W} (hpc : (s.worker w).pc = .scan)
    (f : FiberId) :
    let r := scan tid s.shared.state s.shared.fibers
    let t : State W := ⟨{ s.shared with
        fibers := r.rest, active := s.shared.active + r.taken.isSome.toNat },
      Function.update s.worker w { s.worker w with pc := .dispatch r.taken }⟩
    lifeOf t f = lifeOf s f ∨ Life.Step (lifeOf s f) (lifeOf t f) := by
  rcases scan_spec tid s.shared.state s.shared.fibers with
    ⟨skipped, ft, rest, hf, ht, hr, _, _, hnot⟩ | ⟨ht, hr, _⟩
  · simp only [ht, hr]
    by_cases htask : ft.task = .fiber f
    · have hstate : s.shared.state f ≠ .exec := by simpa [executing, htask] using hnot
      refine .inr (life_becomes rfl rfl rfl rfl ?_)
      have hq : queuedOf s.shared f = (skipped ++ rest).countP (isFiber f) + 1 := by
        simp only [queuedOf, hf, List.countP_append, List.countP_cons, isFiber, htask, decide_true,
          ↓reduceIte]
        omega
      have hstep := Life.Step.take (lifeOf s f) w (decide ((s.worker w).cbFiber = some f)) _
        (by simp [lifeOf, Worker.view, hpc, Pc.place]) hq hstate
      simpa [Worker.view, Pc.place, htask, lifeOf, queuedOf] using hstep
    · refine .inl (life_same rfl ?_ Iff.rfl (by simp [Worker.view, hpc, Pc.place, htask]))
      simp [queuedOf, hf, isFiber, htask]
  · simp only [ht, hr]
    exact .inl (life_same rfl rfl Iff.rfl (by simp [Worker.view, hpc, Pc.place]))

theorem made_other {f n : FiberId} (h : f ≠ n) : f < n + 1 ↔ f < n :=
  ⟨fun hlt => Nat.lt_of_le_of_ne (Nat.le_of_lt_succ hlt) h, Nat.lt_succ_of_lt⟩

omit [DecidableEq W] in
/-- Letting go of `cb_fiber` concerns only the fiber that the worker was on. -/
theorem keepCb_other {s : State W} {w : W} {ft : FiberAndThread} {f g : FiberId}
    (hok : (lifeOf s g).Ok) (hpc : (s.worker w).pc = .writeBack ft g) (hne : f ≠ g) :
    (decide (keepCb ft (s.worker w).cbFiber = some f)) =
      decide ((s.worker w).cbFiber = some f) := by
  cases htask : ft.task with
  | fiber g' => simp [keepCb, htask]
  | cb c =>
    have hown := hok.viaCb w true (.inr (.inr (by
      simp [lifeOf, Worker.view, hpc, Pc.place, viaCb, htask])))
    simp only [lifeOf, Worker.view, decide_eq_true_eq] at hown
    simp [keepCb, htask, hown, Ne.symm hne]

theorem keepCb_self (ft : FiberAndThread) (cb : Option FiberId) (f : FiberId) :
    (decide (keepCb ft cb = some f)) = (!viaCb ft && decide (cb = some f)) := by
  cases htask : ft.task <;> simp [keepCb, viaCb, htask]

/-- A worker's step moves the life of the one fiber it is about, and no other. -/
theorem ran_life {tid : Int} {s : State W} {w : W} {l : RunLabel} {s' : Shared} {k' : Worker}
    {tk : Bool} (hok : ∀ f, (lifeOf s f).Ok) (hc : OneClaim s (.run w l))
    (hr : Ran tid s.shared (s.worker w) l s' k' tk) (f : FiberId) :
    lifeOf ⟨s', Function.update s.worker w k'⟩ f = lifeOf s f ∨
      Life.Step (lifeOf s f) (lifeOf ⟨s', Function.update s.worker w k'⟩ f) := by
  have hview : ∀ p, (s.worker w).pc.place f = p →
      (lifeOf s f).view w = ⟨p, decide ((s.worker w).cbFiber = some f)⟩ := by
    rintro p rfl
    rfl
  cases hr with
  | begin hpc | exit hpc | goIdle hpc | leaveIdle _ hpc | release _ _ hpc =>
    exact .inl (life_same rfl rfl Iff.rfl (by simp [Worker.view, hpc, Pc.place]))
  | dequeue hpc => exact dequeue_life hpc f
  | discard ft g hpc htask hdead =>
    by_cases hf : f = g
    · subst hf
      exact .inr (life_becomes rfl rfl rfl rfl
        (.discard _ w _ (hview .taken (by simp [hpc, Pc.place, htask]))))
    · exact .inl (life_same rfl rfl Iff.rfl
        (by simp [Worker.view, hpc, Pc.place, htask, Ne.symm hf]))
  | enterFiber ft g hpc htask hlive =>
    by_cases hf : f = g
    · subst hf
      exact .inr (life_becomes rfl rfl rfl (by simp [Worker.view, Pc.place, viaCb, htask])
        (.enter _ w _ (hview .taken (by simp [hpc, Pc.place, htask])) hlive))
    · exact .inl (life_same rfl rfl Iff.rfl
        (by simp [Worker.view, hpc, Pc.place, htask, Ne.symm hf]))
  | reuseCb ft c g hpc htask hcb hended =>
    by_cases hf : f = g
    · subst hf
      exact .inr (life_becomes (setState_self _ _ _) rfl rfl
        (by simp [Worker.view, Pc.place, viaCb, htask, hcb])
        (.reuse _ w (by simp [lifeOf, Worker.view, hpc, Pc.place, htask, hcb]) hended))
    · exact .inl (life_same (setState_other _ _ hf) rfl Iff.rfl
        (by simp [Worker.view, hpc, Pc.place, htask, Ne.symm hf]))
  | newCb ft c hpc htask hcb =>
    by_cases hf : f = s.shared.nextFiber
    · subst hf
      exact .inr (life_becomes (by simp [Shared.newFiber]) rfl (by simp [Shared.newFiber])
        (by simp [Worker.view, Pc.place, viaCb, htask])
        (.create _ w (by simp [lifeOf])))
    · refine .inl (life_same (by simp [Shared.newFiber, setState_other _ _ hf]) rfl ?_
        (by simp [Worker.view, hpc, Pc.place, htask, hcb, Ne.symm hf]))
      exact made_other hf
  | swapIn ft g hpc hstate =>
    by_cases hf : f = g
    · subst hf
      exact .inr (life_becomes (setState_self _ _ _) rfl rfl (by simp [Worker.view, Pc.place])
        (.swapIn _ w _ _ (hview (.entering (viaCb ft)) (by simp [hpc, Pc.place]))))
    · exact .inl (life_same (setState_other _ _ hf) rfl Iff.rfl
        (by simp [Worker.view, hpc, Pc.place, Ne.symm hf]))
  | yieldToReady ft g hpc hstate =>
    by_cases hf : f = g
    · subst hf
      exact .inr (life_becomes (setState_self _ _ _) rfl rfl (by simp [Worker.view, Pc.place])
        (.yieldToReady _ w _ _ (hview (.executing (viaCb ft)) (by simp [hpc, Pc.place]))
          (hc ft f hpc)))
    · exact .inl (life_same (setState_other _ _ hf) rfl Iff.rfl
        (by simp [Worker.view, hpc, Pc.place, Ne.symm hf]))
  | yieldToHold ft g hpc hstate =>
    by_cases hf : f = g
    · subst hf
      exact .inr (life_becomes rfl rfl rfl (by simp [Worker.view, Pc.place])
        (.yieldToHold _ w _ _ (hview (.executing (viaCb ft)) (by simp [hpc, Pc.place]))))
    · exact .inl (life_same rfl rfl Iff.rfl (by simp [Worker.view, hpc, Pc.place, Ne.symm hf]))
  | finish ft g except hpc =>
    by_cases hf : f = g
    · subst hf
      refine .inr (life_becomes (setState_self _ _ _) rfl rfl (by simp [Worker.view, Pc.place])
        (.finish _ w _ _ _ (hview (.executing (viaCb ft)) (by simp [hpc, Pc.place])) ?_ ?_))
      · cases except <;> rfl
      · intro howns
        exact hc ft f hpc (by simpa using howns)
    · exact .inl (life_same (setState_other _ _ hf) rfl Iff.rfl
        (by simp [Worker.view, hpc, Pc.place, Ne.symm hf]))
  | requeue ft g hpc hstate =>
    by_cases hf : f = g
    · subst hf
      have hone : [(⟨.fiber f, -1⟩ : FiberAndThread)].countP (isFiber f) = 1 := by simp [isFiber]
      refine .inr (life_becomes
        (x := ⟨.away, !viaCb ft && decide ((s.worker w).cbFiber = some f)⟩) rfl
        (queuedOf_append _ _ _) rfl (by simp only [Worker.view, Pc.place, keepCb_self]) ?_)
      rw [hone]
      exact .requeue (lifeOf s f) w _ _ (hview (.leaving (viaCb ft)) (by simp [hpc, Pc.place])) hstate
    · exact .inl (life_same rfl (by simp [queuedOf_append, isFiber, Ne.symm hf]) Iff.rfl
        (by simp [Worker.view, hpc, Pc.place, Ne.symm hf, keepCb_other (hok g) hpc hf]))
  | endedFiber ft g g' hpc htask hdead =>
    by_cases hf : f = g
    · subst hf
      exact .inr (life_becomes rfl rfl rfl (by simp [Worker.view, Pc.place])
        (.ended _ w _ (hview (.leaving false) (by simp [hpc, Pc.place, viaCb, htask])) hdead))
    · exact .inl (life_same rfl rfl Iff.rfl (by simp [Worker.view, hpc, Pc.place, Ne.symm hf]))
  | endedCb ft g c hpc htask hdead =>
    by_cases hf : f = g
    · subst hf
      exact .inr (life_becomes (setState_self _ _ _) rfl rfl (by simp [Worker.view, Pc.place])
        (.endedCb _ w _ (hview (.leaving true) (by simp [hpc, Pc.place, viaCb, htask])) hdead))
    · exact .inl (life_same (setState_other _ _ hf) rfl Iff.rfl
        (by simp [Worker.view, hpc, Pc.place, Ne.symm hf]))
  | hold ft g hpc hready hlive =>
    by_cases hf : f = g
    · subst hf
      exact .inr (life_becomes (setState_self _ _ _) rfl rfl
        (by simp only [Worker.view, Pc.place, keepCb_self])
        (.hold _ w _ _ (hview (.leaving (viaCb ft)) (by simp [hpc, Pc.place])) hlive))
    · exact .inl (life_same (setState_other _ _ hf) rfl Iff.rfl
        (by simp [Worker.view, hpc, Pc.place, Ne.symm hf, keepCb_other (hok g) hpc hf]))

/-- A call from any thread, seen from one fiber. -/
theorem call_life {s t : State W} {tid : W → Int} {l : Label W} {tk : Bool}
    (hl : ∀ w r, l ≠ .run w r) (hc : OneClaim s l) (hs : step tid s l = some (t, tk))
    (f : FiberId) : lifeOf t f = lifeOf s f ∨ Life.Step (lifeOf s f) (lifeOf t f) := by
  -- Entries added behind the queue, at most one of them of a fiber that is schedulable.
  have hpush : ∀ es : List FiberAndThread,
      es.countP (isFiber f) = 0 ∨ es.countP (isFiber f) = 1 ∧ Schedulable s f ∧
        f < s.shared.nextFiber →
      lifeOf { s with shared := { s.shared with fibers := s.shared.fibers ++ es } } f = lifeOf s f ∨
      Life.Step (lifeOf s f)
        (lifeOf { s with shared := { s.shared with fibers := s.shared.fibers ++ es } } f) := by
    intro es hes
    have hlife : lifeOf { s with shared := { s.shared with fibers := s.shared.fibers ++ es } } f =
        { lifeOf s f with queued := queuedOf s.shared f + es.countP (isFiber f) } := by
      simp only [lifeOf, queuedOf_append]
    rcases hes with hz | ⟨hone, hsch, hmade⟩
    · left
      rw [hlife, hz]
      rfl
    · right
      rw [hlife, hone]
      exact hsch.push hmade
  cases l with
  | schedule fc thread =>
    simp only [step] at hs
    split at hs <;> cases hs
    rename_i hvalid
    apply hpush
    cases fc with
    | none => exact .inl rfl
    | some task =>
      by_cases htask : task = .fiber f
      · subst htask
        exact .inr ⟨by simp [isFiber], hc f rfl, by simpa [Shared.valid] using hvalid⟩
      · exact .inl (by simp [isFiber, htask])
  | scheduleRange fcs =>
    simp only [step] at hs
    split at hs <;> cases hs
    rename_i hvalid
    simp only [Shared.scheduleRange, scheduleRange_fibers]
    apply hpush
    rw [countP_range]
    by_cases hmem : some (.fiber f) ∈ fcs
    · obtain ⟨hsch, hone⟩ := hc f hmem
      have := List.all_eq_true.mp hvalid _ hmem
      exact .inr ⟨hone, hsch, by simpa [Shared.valid] using this⟩
    · exact .inl (List.count_eq_zero.mpr hmem)
  | newFiber =>
    cases hs
    by_cases hf : f = s.shared.nextFiber
    · subst hf
      right
      have hstep := Life.Step.make (lifeOf s s.shared.nextFiber) (by simp [lifeOf])
      simpa [lifeOf, Shared.newFiber, queuedOf, Shared.setState] using hstep
    · left
      simp [lifeOf, Shared.newFiber, queuedOf, Shared.setState, hf, made_other hf]
  | setAutoStop | setStopping =>
    cases hs
    exact .inl rfl
  | run w r => exact absurd rfl (hl w r)

theorem reachable_lives {tid : W → Int} {s : State W}
    (hr : (machine tid).ReachableUnder OneClaim s) : ∀ f, (lifeOf s f).Ok := by
  refine Lib.Machine.ReachableUnder.invariant (P := fun s => ∀ f, (lifeOf s f).Ok) ?_ ?_ hr
  · intro s hinit
    subst hinit
    intro f
    constructor <;> simp [lifeOf, queuedOf, Worker.view, Pc.place]
  · intro s l t hok hc ht f
    obtain ⟨tk, ht⟩ := machine_step ht
    have hlife : lifeOf t f = lifeOf s f ∨ Life.Step (lifeOf s f) (lifeOf t f) := by
      by_cases hl : ∃ w r, l = .run w r
      · obtain ⟨w, r, rfl⟩ := hl
        obtain ⟨s', k', hran, rfl⟩ := step_run ht
        exact ran_life hok hc hran f
      · exact call_life (fun w r he => hl ⟨w, r, he⟩) hc ht f
    rcases hlife with he | hst
    · rw [he]
      exact hok f
    · exact (hok f).step hst

theorem executes_near {f : FiberId} {pc : Pc} (h : pc.executes f = true) :
    (∃ b, pc.place f = .executing b) ∨ ∃ b, pc.place f = .leaving b := by
  cases pc with
  | exec ft g =>
    left
    exact ⟨viaCb ft, by simp_all [Pc.executes, Pc.place]⟩
  | swapOut ft g =>
    right
    exact ⟨viaCb ft, by simp_all [Pc.executes, Pc.place]⟩
  | start | scan | dispatch | swapIn | writeBack | idle | exited => cases h

omit [DecidableEq W] in
/-- In an orderly life at most one worker is on the fiber, dead or alive. -/
theorem Life.Ok.exclusive {a : Life W} (h : a.Ok) {u v : W}
    (hu : (∃ b, (a.view u).place = .executing b) ∨ ∃ b, (a.view u).place = .leaving b)
    (hv : (∃ b, (a.view v).place = .executing b) ∨ ∃ b, (a.view v).place = .leaving b) : u = v := by
  have hexec : ∀ x b, (a.view x).place = .executing b → a.state.dead = false := by
    intro x b hx
    rw [h.executing x b hx]
    rfl
  rcases hu with ⟨b, hu⟩ | ⟨b, hu⟩
  · exact h.single (hexec u b hu) u v (by simp [hu])
      (by rcases hv with ⟨c, hv⟩ | ⟨c, hv⟩ <;> simp [hv])
  · rcases hv with ⟨c, hv⟩ | ⟨c, hv⟩
    · exact h.single (hexec v c hv) u v (by simp [hu]) (by simp [hv])
    · exact h.left u v b c hu hv

/-- Fibers are executed by one thread at a time, and swapIn never finds one in EXEC,
in every run in which no step gives a fiber a second claim on a worker. -/
theorem fiber_exclusion (tid : W → Int) {s : State W}
    (hr : (machine tid).ReachableUnder OneClaim s) :
    (∀ u v f, (s.worker u).pc.executes f = true → (s.worker v).pc.executes f = true → u = v) ∧
    ∀ w ft f, (s.worker w).pc = .swapIn ft f → s.shared.state f ≠ .exec := by
  have hok := reachable_lives hr
  constructor
  · intro u v f hu hv
    exact (hok f).exclusive (executes_near hu) (executes_near hv)
  · intro w ft f hpc
    refine ((hok f).entering w (viaCb ft) ?_).2
    simp [lifeOf, Worker.view, hpc, Pc.place]

/-- A fiber that is woken while it runs, yields to HOLD, and is run again. -/
theorem fiber_exclusion_run :
    ∃ s : State (Fin 2), (machine (fun w : Fin 2 => (w.val : Int) + 1)).ReachableUnder OneClaim s ∧
      (s.worker 1).pc = .swapIn ⟨.fiber 0, -1⟩ 0 ∧ s.shared.state 0 ≠ .exec := by
  have hr : (machine (fun w : Fin 2 => (w.val : Int) + 1)).ReachableUnder OneClaim _ :=
    Lib.Machine.ReachableUnder.exec (.start rfl)
      [.newFiber, .schedule (some (.fiber 0)) (-1), .run 0 .begin, .run 1 .begin,
        .run 0 .dequeue, .run 0 .dispatch, .run 0 .swapIn, .schedule (some (.fiber 0)) (-1),
        .run 0 .yieldToHold, .run 0 .release, .run 0 .writeBack, .run 1 .dequeue,
        .run 1 .dispatch]
      (.cons rfl trivial <| .cons rfl
        (by rintro f ⟨⟩; exact ⟨by decide, fun _ => ⟨rfl, by decide⟩, fun _ => by decide⟩) <|
        .cons rfl trivial <| .cons rfl trivial <| .cons rfl trivial <| .cons rfl trivial <|
        .cons rfl trivial <| .cons rfl
        (by rintro f ⟨⟩; exact ⟨by decide, fun _ => ⟨rfl, by decide⟩, fun _ => by decide⟩) <|
        .cons rfl trivial <| .cons rfl trivial <| .cons rfl trivial <| .cons rfl trivial <|
        .cons rfl trivial trivial) rfl
  exact ⟨_, hr, rfl, (fiber_exclusion _ hr).2 1 _ 0 rfl⟩

/-- A fiber scheduled twice is dequeued by both workers before either enters it. The
second then meets EXEC in swapIn, or, if the first yields to READY in between, is
let in while the first is still on the fiber's stack. -/
theorem fiber_exclusion_broken :
    (∃ s : State (Fin 2), (machine (fun w : Fin 2 => (w.val : Int) + 1)).Reachable s ∧
      (s.worker 1).pc = .swapIn ⟨.fiber 0, -1⟩ 0 ∧ s.shared.state 0 = .exec) ∧
    ∃ s : State (Fin 2), (machine (fun w : Fin 2 => (w.val : Int) + 1)).Reachable s ∧
      (s.worker 0).pc.executes 0 = true ∧ (s.worker 1).pc.executes 0 = true := by
  constructor
  · exact ⟨_, Lib.Machine.reachable_of_exec (s := ({} : State (Fin 2)))
      [.newFiber, .schedule (some (.fiber 0)) (-1), .schedule (some (.fiber 0)) (-1),
        .run 0 .begin, .run 1 .begin, .run 0 .dequeue, .run 1 .dequeue, .run 0 .dispatch,
        .run 1 .dispatch, .run 0 .swapIn] rfl rfl, rfl, rfl⟩
  · exact ⟨_, Lib.Machine.reachable_of_exec (s := ({} : State (Fin 2)))
      [.newFiber, .schedule (some (.fiber 0)) (-1), .schedule (some (.fiber 0)) (-1),
        .run 0 .begin, .run 1 .begin, .run 0 .dequeue, .run 1 .dequeue, .run 0 .dispatch,
        .run 1 .dispatch, .run 0 .swapIn, .run 0 .yieldToReady, .run 1 .swapIn] rfl rfl, rfl, rfl⟩

end HxSylar.Scheduler
