import Mathlib.Data.List.Nodup
import HxSylar.Timer
import HxSylar.Lib.Machine

namespace HxSylar.TimerManager

/-- `m_next` as a number. -/
def due (m : TimerManager) (t : TimerId) : Nat := (m.nextOf t).toNat

/-- `m_timers` read as the set it is: strictly ordered by the comparator. -/
def Ordered (m : TimerManager) (l : List TimerId) : Prop :=
  l.Pairwise (fun t u => m.before t u = true)

/-- The set against the timers: every timer with a callback is registered and, if no
callback was empty from the start (`full`), no other one is. -/
structure Consistent (full : Prop) (m : TimerManager) : Prop where
  ordered : m.Ordered m.timers
  object_of_mem : ∀ t ∈ m.timers, ∃ x, m.object t = some x ∧ (full → x.cb.isSome)
  mem_of_object : ∀ t x, m.object t = some x → x.cb.isSome → t ∈ m.timers

section Order
variable {m : TimerManager} {t u v : Nat} {l : List TimerId}

theorem before_iff :
    m.before t u = true ↔ m.due t < m.due u ∨ m.due t = m.due u ∧ t < u := by
  simp only [before, Timer.comparator, due, UInt64.lt_iff_toNat_lt]
  split
  · simp only [true_iff]
    omega
  · split
    · simp only [Bool.false_eq_true, false_iff]
      omega
    · have he : (m.nextOf t).toNat = (m.nextOf u).toNat := by omega
      simp only [decide_eq_true_eq]
      exact ⟨fun h => .inr ⟨he, h⟩, fun h => (h.resolve_left (by omega)).2⟩

theorem before_trans (h : m.before t u = true) (h' : m.before u v = true) :
    m.before t v = true := by
  rw [before_iff] at *
  omega

theorem before_irrefl : ¬m.before t t = true := by
  rw [before_iff]
  omega

theorem before_total (h : t ≠ u) : m.before t u = true ∨ m.before u t = true := by
  rw [before_iff, before_iff]
  omega

theorem Ordered.nodup (h : m.Ordered l) : l.Nodup := by
  apply List.Pairwise.imp ?_ h
  intro t u hb he
  subst he
  exact before_irrefl hb

theorem Ordered.due_le (h : m.Ordered l) : l.Pairwise (fun t u => m.due t ≤ m.due u) := by
  apply List.Pairwise.imp ?_ h
  intro t u hb
  rw [before_iff] at hb
  omega

/-- No timer of the set is due before the first one. -/
theorem Ordered.head_le {t u : TimerId} (h : m.Ordered (t :: l)) (hu : u ∈ t :: l) :
    m.nextOf t ≤ m.nextOf u := by
  rw [UInt64.le_iff_toNat_le]
  rcases List.mem_cons.mp hu with rfl | hu
  · exact Nat.le_refl _
  · exact (List.pairwise_cons.mp h.due_le).1 u hu

/-- The order looks at nothing but the deadlines of the members. -/
theorem Ordered.congr {m' : TimerManager} (h : m.Ordered l)
    (hl : ∀ t ∈ l, m'.nextOf t = m.nextOf t) : m'.Ordered l := by
  apply List.Pairwise.imp_of_mem ?_ h
  intro t u ht hu hb
  rw [before_iff] at *
  simpa only [due, hl t ht, hl u hu] using hb

theorem setInsert_congr {m' : TimerManager} (h : ∀ u, m'.nextOf u = m.nextOf u) :
    m'.setInsert t l = m.setInsert t l := by
  have hb : ∀ u v, m'.before u v = m.before u v := by
    intro u v
    simp only [before, h]
  induction l with
  | nil => rfl
  | cons v l ih => simp only [setInsert, hb, ih]

theorem mem_setInsert (hn : t ∉ l) : u ∈ m.setInsert t l ↔ u = t ∨ u ∈ l := by
  induction l with
  | nil => simp [setInsert]
  | cons v l ih =>
    have hv : t ≠ v := fun he => hn (he ▸ List.mem_cons_self)
    simp only [setInsert]
    split
    · rw [List.mem_cons]
    · rename_i hb
      have hb' := (before_total hv).resolve_left hb
      rw [if_pos hb', List.mem_cons, ih (fun hm => hn (List.mem_cons_of_mem _ hm)), List.mem_cons]
      exact or_left_comm

theorem Ordered.setInsert (h : m.Ordered l) (hn : t ∉ l) : m.Ordered (m.setInsert t l) := by
  induction l with
  | nil => simp [TimerManager.setInsert, Ordered]
  | cons v l ih =>
    have hv : t ≠ v := fun he => hn (he ▸ List.mem_cons_self)
    have hn' : t ∉ l := fun hm => hn (List.mem_cons_of_mem _ hm)
    obtain ⟨hhead, htail⟩ := List.pairwise_cons.mp h
    simp only [TimerManager.setInsert]
    split
    · rename_i hb
      apply List.Pairwise.cons ?_ h
      intro u hu
      rcases List.mem_cons.mp hu with he | hm
      · subst u
        exact hb
      · exact before_trans hb (hhead u hm)
    · rename_i hb
      have hb' := (before_total hv).resolve_left hb
      rw [if_pos hb']
      apply List.Pairwise.cons ?_ (ih htail hn')
      intro u hu
      rcases (mem_setInsert hn').mp hu with he | hm
      · subst u
        exact hb'
      · exact hhead u hm

/-- `find` meets the timer and nothing else. -/
theorem Ordered.setErase (h : m.Ordered l) (ht : t ∈ l) : m.setErase t l = some (l.erase t) := by
  induction l with
  | nil => cases ht
  | cons v l ih =>
    obtain ⟨hhead, htail⟩ := List.pairwise_cons.mp h
    simp only [TimerManager.setErase]
    by_cases hv : v = t
    · subst v
      rw [if_neg before_irrefl, if_neg before_irrefl, List.erase_cons_head]
    · have hm : t ∈ l := (List.mem_cons.mp ht).resolve_left (Ne.symm hv)
      rw [if_pos (hhead t hm), ih htail hm, Option.map_some, List.erase_cons_tail (by simp [hv])]

theorem Ordered.erase (h : m.Ordered l) (t : TimerId) : m.Ordered (l.erase t) :=
  List.Pairwise.sublist List.erase_sublist h

end Order

section Objects
variable {m : TimerManager} {t u : TimerId} {x : Timer}

@[simp] theorem setObject_timers : (m.setObject t x).timers = m.timers := rfl

@[simp] theorem setObject_same : (m.setObject t x).object t = some x := by
  simp [setObject]

theorem setObject_other (h : u ≠ t) : (m.setObject t x).object u = m.object u := by
  simp [setObject, h]

theorem nextOf_congr {m' : TimerManager} (h : m'.object u = m.object u) :
    m'.nextOf u = m.nextOf u := by
  simp only [nextOf, h]

theorem nextOf_of_object (h : m.object t = some x) : m.nextOf t = x.next := by
  simp only [nextOf, h]

theorem cbOf_of_object (h : m.object t = some x) : m.cbOf t = x.cb := by
  simp only [cbOf, h, Option.bind_some]

end Objects

namespace Consistent
variable {full : Prop} {m : TimerManager} {t : TimerId} {x : Timer}

theorem not_mem_of_none (h : m.Consistent full) (ho : m.object t = none) : t ∉ m.timers := by
  intro hm
  obtain ⟨x, hx, _⟩ := h.object_of_mem t hm
  rw [ho] at hx
  cases hx

/-- The other timers are found as before once `t` is out of the set and changed. -/
theorem erased (h : m.Consistent full) (t : TimerId) (x : Timer) :
    (m.setObject t x).Ordered (m.timers.erase t) ∧ t ∉ m.timers.erase t ∧
      ∀ u, u ≠ t → (u ∈ m.timers.erase t ↔ u ∈ m.timers) := by
  have hn : t ∉ m.timers.erase t := h.ordered.nodup.not_mem_erase
  refine ⟨?_, hn, fun u hu => List.mem_erase_of_ne hu⟩
  apply (h.ordered.erase t).congr
  intro u hu
  apply nextOf_congr
  apply setObject_other
  intro he
  subst he
  exact hn hu

/-- One timer was changed; if it has a callback it is in the set. -/
theorem update {l : List TimerId} {m' : TimerManager} (h : m.Consistent full)
    (hobj : m'.object = (m.setObject t x).object) (hl : m'.timers = l)
    (hord : (m.setObject t x).Ordered l) (hin : t ∈ l → full → x.cb.isSome)
    (hin' : x.cb.isSome → t ∈ l) (hother : ∀ u, u ≠ t → (u ∈ l ↔ u ∈ m.timers)) :
    m'.Consistent full where
  ordered := by
    rw [hl]
    apply hord.congr
    intro u _
    exact nextOf_congr (congrFun hobj u)
  object_of_mem u hu := by
    rw [hl] at hu
    rw [hobj]
    by_cases he : u = t
    · subst u
      exact ⟨x, setObject_same, hin hu⟩
    · rw [setObject_other he]
      exact h.object_of_mem u ((hother u he).mp hu)
  mem_of_object u y hy hc := by
    rw [hobj] at hy
    rw [hl]
    by_cases he : u = t
    · subst u
      rw [setObject_same] at hy
      cases hy
      exact hin' hc
    · rw [setObject_other he] at hy
      exact (hother u he).mpr (h.mem_of_object u y hy hc)

/-- Taking a timer out of the set, changing it and putting it back. -/
theorem insert (h : m.Consistent full) (hc : full → x.cb.isSome) {m' : TimerManager}
    (hobj : m'.object = (m.setObject t x).object)
    (hl : m'.timers = m'.setInsert t (m.timers.erase t)) : m'.Consistent full := by
  obtain ⟨hord, hn, hother⟩ := h.erased t x
  rw [setInsert_congr (fun u => nextOf_congr (congrFun hobj u))] at hl
  apply h.update hobj hl (hord.setInsert hn)
  · exact fun _ => hc
  · exact fun _ => (mem_setInsert hn).mpr (.inl rfl)
  · intro u hu
    rw [mem_setInsert hn, hother u hu]
    simp [hu]

end Consistent

section Operations
variable {full : Prop} {m : TimerManager} {t : TimerId} {x : Timer}

/-- On a registered timer `cancel` erases what it has found. -/
theorem cancel_eq (h : m.Consistent full) (ho : m.object t = some x) (hc : x.cb.isSome) :
    m.cancel t = some
      ({ m.setObject t { x with cb := none } with timers := m.timers.erase t }, true) := by
  simp only [cancel, ho, if_pos hc, h.ordered.setErase (h.mem_of_object t x ho hc), Option.map_some]

theorem refresh_eq (h : m.Consistent full) (ho : m.object t = some x) (hc : x.cb.isSome)
    (now : UInt64) :
    m.refresh t now = some
      ({ m.setObject t { x with next := now + x.ms } with
          timers := (m.setObject t { x with next := now + x.ms }).setInsert t (m.timers.erase t) },
        true) := by
  simp only [refresh, ho, if_pos hc, h.ordered.setErase (h.mem_of_object t x ho hc)]

/-- What `reset` does under the lock to a registered timer. -/
def resetLocked (m : TimerManager) (t : TimerId) (x : Timer) (ms : UInt64) (fromNow : Bool)
    (now : UInt64) : TimerManager × Bool :=
  let start := if fromNow then now else x.next - x.ms
  { m.setObject t { x with ms := ms, next := start + ms } with
    timers := m.timers.erase t }.insertTimer t

theorem reset_eq (h : m.Consistent full) (ho : m.object t = some x) (hc : x.cb.isSome) {ms : UInt64}
    {fromNow : Bool} (now : UInt64) (he : ¬(ms == x.ms && !fromNow) = true) :
    m.reset t ms fromNow now = some
      ((m.resetLocked t x ms fromNow now).1, true, (m.resetLocked t x ms fromNow now).2) := by
  simp only [reset, ho, if_neg he, if_pos hc, h.ordered.setErase (h.mem_of_object t x ho hc),
    resetLocked]

theorem addTimer_consistent (h : m.Consistent full) {ms now : UInt64} {cb : Option Callback}
    (hc : full → cb.isSome) {recurring : Bool} {r : TimerManager × Bool}
    (ha : m.addTimer t ms cb recurring now = some r) :
    r.1.Consistent full := by
  simp only [addTimer] at ha
  split at ha
  · cases ha
  · rename_i ho
    cases ha
    refine h.insert (t := t) (x := ⟨recurring, ms, now + ms, cb⟩) hc ?_ ?_
    · rfl
    · rw [List.erase_of_not_mem (h.not_mem_of_none ho)]
      exact setInsert_congr (fun _ => rfl)

theorem cancel_consistent (h : m.Consistent full) {r : TimerManager × Bool}
    (hr : m.cancel t = some r) : r.1.Consistent full := by
  cases ho : m.object t with
  | none => simp [cancel, ho] at hr
  | some x =>
    by_cases hc : x.cb.isSome
    · rw [cancel_eq h ho hc] at hr
      cases hr
      obtain ⟨hord, hn, hother⟩ := h.erased t { x with cb := none }
      refine h.update (t := t) (x := { x with cb := none }) ?_ ?_ hord ?_ ?_ hother
      · rfl
      · rfl
      · exact fun hm => absurd hm hn
      · exact fun hs => Bool.noConfusion hs
    · simp only [cancel, ho, if_neg hc] at hr
      cases hr
      exact h

theorem refresh_consistent (h : m.Consistent full) {now : UInt64} {r : TimerManager × Bool}
    (hr : m.refresh t now = some r) : r.1.Consistent full := by
  cases ho : m.object t with
  | none => simp [refresh, ho] at hr
  | some x =>
    by_cases hc : x.cb.isSome
    · rw [refresh_eq h ho hc] at hr
      cases hr
      refine h.insert (t := t) (x := { x with next := now + x.ms }) (fun _ => hc) ?_ ?_
      · rfl
      · exact setInsert_congr (fun _ => rfl)
    · simp only [refresh, ho, if_neg hc] at hr
      cases hr
      exact h

theorem resetLocked_consistent (h : m.Consistent full) (hc : x.cb.isSome) (ms : UInt64)
    (fromNow : Bool) (now : UInt64) : (m.resetLocked t x ms fromNow now).1.Consistent full := by
  refine h.insert (t := t)
    (x := { x with ms := ms, next := (if fromNow then now else x.next - x.ms) + ms })
    (fun _ => hc) ?_ ?_
  · rfl
  · exact setInsert_congr (fun _ => rfl)

theorem reset_consistent (h : m.Consistent full) {ms now : UInt64} {fromNow : Bool}
    {r : TimerManager × Bool × Bool} (hr : m.reset t ms fromNow now = some r) :
    r.1.Consistent full := by
  cases ho : m.object t with
  | none => simp [reset, ho] at hr
  | some x =>
    by_cases he : (ms == x.ms && !fromNow) = true
    · simp only [reset, ho, if_pos he] at hr
      cases hr
      exact h
    · by_cases hc : x.cb.isSome
      · rw [reset_eq h ho hc now he] at hr
        cases hr
        exact resetLocked_consistent h hc ms fromNow now
      · simp only [reset, ho, if_neg he, if_neg hc] at hr
        cases hr
        exact h

theorem getNextTimer_fields (m : TimerManager) (now : UInt64) :
    (m.getNextTimer now).1 = { m with tickled := false } := by
  simp only [getNextTimer]
  split <;> rfl

theorem getNextTimer_consistent (h : m.Consistent full) (now : UInt64) :
    (m.getNextTimer now).1.Consistent full := by
  rw [getNextTimer_fields]
  exact ⟨h.ordered, h.object_of_mem, h.mem_of_object⟩

end Operations

section Expiry
variable {m : TimerManager}

/-- The timers that are due at `now`: those whose `m_next` has come, or all of them
if the clock is seen to have been set back. -/
def expired (m : TimerManager) (now : UInt64) : List TimerId :=
  if (m.detectClockRollover now).2 then m.timers
  else m.timers.filter (fun t => m.nextOf t ≤ now)

theorem takeWhile_equal {l : List TimerId} {now : UInt64} (h : m.Ordered l)
    (hge : ∀ t ∈ l, now ≤ m.nextOf t) :
    l.takeWhile (fun t => m.nextOf t = now) = l.filter (fun t => m.nextOf t ≤ now) := by
  induction l with
  | nil => rfl
  | cons v l ih =>
    have htail := (List.pairwise_cons.mp h).2
    have hv := hge v List.mem_cons_self
    by_cases he : m.nextOf v = now
    · rw [List.takeWhile_cons_of_pos (by simpa using he),
        List.filter_cons_of_pos (by simp [he]),
        ih htail (fun t ht => hge t (List.mem_cons_of_mem _ ht))]
    · have hlt : now < m.nextOf v := UInt64.lt_of_le_of_ne hv (Ne.symm he)
      rw [List.takeWhile_cons_of_neg (by simpa using he), eq_comm, List.filter_eq_nil_iff]
      intro t ht
      rw [decide_eq_true_eq, UInt64.not_le]
      exact UInt64.lt_of_lt_of_le hlt (h.head_le ht)

/-- `lower_bound` on a timer allocated anywhere and the walk over equal deadlines cut
off exactly what is due. -/
theorem cut_eq_filter {l : List TimerId} (h : m.Ordered l) (now : UInt64) (addr : TimerId) :
    let earlier := l.takeWhile (fun t => Timer.comparator (m.nextOf t, t) (now, addr))
    earlier ++ (l.drop earlier.length).takeWhile (fun t => m.nextOf t = now) =
      l.filter (fun t => m.nextOf t ≤ now) := by
  induction l with
  | nil => rfl
  | cons v l ih =>
    have htail := (List.pairwise_cons.mp h).2
    by_cases hp : Timer.comparator (m.nextOf v, v) (now, addr) = true
    · have hle : m.nextOf v ≤ now := by
        simp only [Timer.comparator] at hp
        split at hp
        · rename_i hlt
          exact UInt64.le_of_lt hlt
        · split at hp
          · cases hp
          · rename_i hgt
            exact UInt64.not_lt.mp hgt
      have hrest := ih htail
      simp only at hrest
      simp only [List.takeWhile_cons, hp, ↓reduceIte, List.length_cons, List.drop_succ_cons,
        List.cons_append, hrest]
      rw [List.filter_cons_of_pos (by simpa using hle)]
    · have hnil : (v :: l).takeWhile (fun t => Timer.comparator (m.nextOf t, t) (now, addr)) = [] := by
        rw [List.takeWhile_cons, if_neg hp]
      simp only [hnil, List.length_nil, List.drop_zero, List.nil_append]
      apply takeWhile_equal h
      have hv : now ≤ m.nextOf v := by
        apply UInt64.not_lt.mp
        intro hlt
        apply hp
        simp only [Timer.comparator, if_pos hlt]
      intro t ht
      exact UInt64.le_trans hv (h.head_le ht)

theorem filter_split {l : List TimerId} (h : m.Ordered l) (now : UInt64) :
    l = l.filter (fun t => m.nextOf t ≤ now) ++
      l.drop (l.filter (fun t => m.nextOf t ≤ now)).length := by
  induction l with
  | nil => rfl
  | cons v l ih =>
    have htail := (List.pairwise_cons.mp h).2
    by_cases hv : m.nextOf v ≤ now
    · rw [List.filter_cons_of_pos (by simpa using hv), List.length_cons, List.drop_succ_cons,
        List.cons_append, ← ih htail]
    · have hnil : (v :: l).filter (fun t => m.nextOf t ≤ now) = [] := by
        rw [List.filter_eq_nil_iff]
        intro t ht
        rw [decide_eq_true_eq]
        exact fun hle => hv (UInt64.le_trans (h.head_le ht) hle)
      rw [hnil, List.nil_append, List.length_nil, List.drop_zero]

/-- The due timers are the first ones of the set. -/
theorem expired_split (h : m.Ordered m.timers) (now : UInt64) :
    m.timers = m.expired now ++ m.timers.drop (m.expired now).length := by
  rw [expired]
  split
  · simp
  · exact filter_split h now

/-- `listExpiredCb` takes the due timers out of the set and runs its loop over them. -/
theorem listExpiredCb_eq (h : m.Ordered m.timers) (hne : m.timers ≠ []) (now : UInt64)
    (addr : TimerId) :
    m.listExpiredCb now addr = expireAll
      { m with
        previouseTime := now
        timers := m.timers.drop (m.expired now).length } now (m.expired now) := by
  have hcut := cut_eq_filter h now addr
  have hnext : ∀ t, nextOf { m with previouseTime := now } t = m.nextOf t := fun _ => rfl
  simp only at hcut
  simp only [listExpiredCb, expired, detectClockRollover, hnext]
  split
  · rename_i he
    exact absurd he hne
  · rename_i first rest hl
    by_cases hroll : (decide (now < m.previouseTime) &&
        decide (now < m.previouseTime - 60 * 60 * 1000)) = true
    · simp only [hroll]
      simp
    · rw [Bool.not_eq_true] at hroll
      simp only [hroll]
      by_cases hlt : now < m.nextOf first
      · -- nothing is due and the early return is taken
        have hnil : m.timers.filter (fun t => m.nextOf t ≤ now) = [] := by
          rw [List.filter_eq_nil_iff]
          intro t ht
          rw [decide_eq_true_eq, UInt64.not_le]
          rw [hl] at h ht
          rcases List.mem_cons.mp ht with hf | hm
          · subst t
            exact hlt
          · have hb := before_iff.mp ((List.pairwise_cons.mp h).1 t hm)
            rw [UInt64.lt_iff_toNat_lt] at *
            simp only [due] at hb
            omega
        simp [hlt, hnil, expireAll]
      · simp only [Bool.not_false, Bool.true_and, decide_eq_true_eq, if_neg hlt, Bool.false_eq_true,
          ↓reduceIte, hcut, List.drop_drop]
        rw [← hcut, List.length_append]

/-- A timer after the loop body: due again if it recurs, else without its callback. -/
def fired (x : Timer) (now : UInt64) : Timer :=
  if x.recurring then { x with next := now + x.ms } else { x with cb := none }

/-- What the loop over `expired` has done. -/
structure Fired (m : TimerManager) (now : UInt64) (ts : List TimerId) (m' : TimerManager) :
    Prop where
  ordered : m'.Ordered m'.timers
  other : ∀ u, u ∉ ts → m'.object u = m.object u
  changed : ∀ t ∈ ts, ∀ x, m.object t = some x → m'.object t = some (fired x now)
  mem_iff : ∀ u, u ∈ m'.timers ↔
    u ∈ m.timers ∨ u ∈ ts ∧ ∃ x, m.object u = some x ∧ x.recurring = true
  tickled_eq : m'.tickled = m.tickled
  previouse_eq : m'.previouseTime = m.previouseTime

theorem expireOne_fired {t : TimerId} {x : Timer} (h : m.Ordered m.timers) (ht : t ∉ m.timers)
    (ho : m.object t = some x) (now : UInt64) : Fired m now [t] (m.expireOne now t) := by
  have hframe : ∀ y, (m.setObject t y).Ordered m.timers := by
    intro y
    apply h.congr
    intro u hu
    apply nextOf_congr
    apply setObject_other
    intro he
    subst he
    exact ht hu
  have hother : ∀ y u, u ∉ [t] → (m.setObject t y).object u = m.object u := by
    intro y u hu
    exact setObject_other (fun he => hu (List.mem_singleton.mpr he))
  simp only [expireOne, ho]
  split
  · rename_i hrec
    refine ⟨?_, hother _, ?_, ?_, rfl, rfl⟩
    · exact ((hframe _).setInsert ht).congr (fun _ _ => rfl)
    · intro u hu y hy
      obtain rfl := List.mem_singleton.mp hu
      rw [ho] at hy
      cases hy
      rw [fired, if_pos hrec]
      exact setObject_same
    · intro u
      simp only [setObject_timers, mem_setInsert ht, List.mem_singleton]
      constructor
      · intro hu
        rcases hu with he | hm
        · subst u
          exact .inr ⟨rfl, x, ho, hrec⟩
        · exact .inl hm
      · intro hu
        rcases hu with hm | ⟨he, _⟩
        · exact .inr hm
        · exact .inl he
  · rename_i hrec
    refine ⟨hframe _, hother _, ?_, ?_, rfl, rfl⟩
    · intro u hu y hy
      obtain rfl := List.mem_singleton.mp hu
      rw [ho] at hy
      cases hy
      rw [fired, if_neg hrec]
      exact setObject_same
    · intro u
      simp only [setObject_timers, List.mem_singleton]
      constructor
      · exact .inl
      · intro hu
        rcases hu with hm | ⟨he, y, hy, hr⟩
        · exact hm
        · subst u
          rw [ho] at hy
          cases hy
          exact absurd hr hrec

theorem expireAll_fired {ts : List TimerId} (h : m.Ordered m.timers) (hn : ts.Nodup)
    (hout : ∀ t ∈ ts, t ∉ m.timers) (hobj : ∀ t ∈ ts, ∃ x, m.object t = some x) (now : UInt64) :
    Fired m now ts (m.expireAll now ts).1 ∧ (m.expireAll now ts).2 = ts.map m.cbOf := by
  induction ts generalizing m with
  | nil => exact ⟨⟨h, fun _ _ => rfl, by simp, by simp [expireAll], rfl, rfl⟩, rfl⟩
  | cons t ts ih =>
    obtain ⟨htn, hn'⟩ := List.nodup_cons.mp hn
    obtain ⟨x, hx⟩ := hobj t List.mem_cons_self
    have h₁ := expireOne_fired h (hout t List.mem_cons_self) hx now
    have hsame : ∀ u ∈ ts, (m.expireOne now t).object u = m.object u := by
      intro u hu
      apply h₁.other
      intro he
      rw [List.mem_singleton] at he
      subst he
      exact htn hu
    obtain ⟨h₂, hcb⟩ := ih h₁.ordered hn'
      (fun u hu hm => by
        rcases (h₁.mem_iff u).mp hm with hm | ⟨he, _⟩
        · exact hout u (List.mem_cons_of_mem _ hu) hm
        · rw [List.mem_singleton] at he
          exact htn (he ▸ hu))
      (fun u hu => by
        rw [hsame u hu]
        exact hobj u (List.mem_cons_of_mem _ hu))
    simp only [expireAll]
    refine ⟨⟨h₂.ordered, ?_, ?_, ?_, h₂.tickled_eq.trans h₁.tickled_eq,
      h₂.previouse_eq.trans h₁.previouse_eq⟩, ?_⟩
    · intro u hu
      rw [List.mem_cons, not_or] at hu
      rw [h₂.other u hu.2, h₁.other u (by simpa using hu.1)]
    · intro u hu y hy
      by_cases hm : u ∈ ts
      · exact h₂.changed u hm y ((hsame u hm).trans hy)
      · obtain rfl := (List.mem_cons.mp hu).resolve_right hm
        rw [h₂.other u hm]
        exact h₁.changed u (List.mem_singleton.mpr rfl) y hy
    · intro u
      rw [h₂.mem_iff u, h₁.mem_iff u, List.mem_singleton, List.mem_cons]
      by_cases hm : u ∈ ts
      · rw [hsame u hm]
        have hne : u ≠ t := fun he => htn (he ▸ hm)
        simp [hm, hne]
      · simp [hm]
    · rw [hcb, List.map_cons]
      congr 1
      apply List.map_congr_left
      intro u hu
      simp only [cbOf, hsame u hu]

theorem mem_expired {now : UInt64} {t : TimerId} :
    t ∈ m.expired now ↔
      t ∈ m.timers ∧ ((m.detectClockRollover now).2 = true ∨ m.nextOf t ≤ now) := by
  rw [expired]
  split
  · rename_i h
    simp [h]
  · rename_i h
    simp [h, List.mem_filter]

theorem mem_later (h : m.Ordered m.timers) {now : UInt64} {t : TimerId} :
    t ∈ m.timers.drop (m.expired now).length ↔ t ∈ m.timers ∧ t ∉ m.expired now := by
  have hsplit := expired_split h now
  have hn := h.nodup
  rw [hsplit, List.nodup_append] at hn
  constructor
  · intro ht
    exact ⟨List.mem_of_mem_drop ht, fun he => hn.2.2 t he t ht rfl⟩
  · intro ht
    have hm := ht.1
    rw [hsplit] at hm
    exact (List.mem_append.mp hm).resolve_left ht.2

/-- `listExpiredCb` fires the due timers and returns their callbacks. -/
theorem listExpiredCb_fired {full : Prop} (h : m.Consistent full) (now : UInt64) (addr : TimerId) :
    ∃ l, Fired { m with timers := l, previouseTime := (m.listExpiredCb now addr).1.previouseTime }
        now (m.expired now) (m.listExpiredCb now addr).1 ∧
      (∀ t, t ∈ l ↔ t ∈ m.timers ∧ t ∉ m.expired now) ∧
      (m.listExpiredCb now addr).2 = (m.expired now).map m.cbOf := by
  by_cases hne : m.timers = []
  · have hexp : m.expired now = [] := by
      rw [List.eq_nil_iff_forall_not_mem]
      intro t ht
      have hm := (mem_expired.mp ht).1
      simp [hne] at hm
    have he : m.listExpiredCb now addr = (m, []) := by
      simp only [listExpiredCb, hne]
    rw [he, hexp]
    refine ⟨m.timers, ⟨h.ordered, fun _ _ => rfl, by simp, by simp, rfl, rfl⟩, by simp, rfl⟩
  · rw [listExpiredCb_eq h.ordered hne]
    have hsub : m.Ordered (m.timers.drop (m.expired now).length) :=
      List.Pairwise.sublist (List.drop_sublist _ _) h.ordered
    have hnodup : (m.expired now).Nodup := by
      have hn := h.ordered.nodup
      rw [expired_split h.ordered now] at hn
      exact (List.nodup_append.mp hn).1
    obtain ⟨hf, hcb⟩ := expireAll_fired
      (m := { m with previouseTime := now, timers := m.timers.drop (m.expired now).length })
      hsub hnodup
      (fun t ht hm => ((mem_later h.ordered).mp hm).2 ht)
      (fun t ht => by
        obtain ⟨x, hx, _⟩ := h.object_of_mem t (mem_expired.mp ht).1
        exact ⟨x, hx⟩) now
    refine ⟨_, ?_, fun t => mem_later h.ordered, hcb⟩
    rw [hf.previouse_eq]
    exact hf

theorem listExpiredCb_consistent {full : Prop} (h : m.Consistent full) (now : UInt64)
    (addr : TimerId) : (m.listExpiredCb now addr).1.Consistent full := by
  obtain ⟨l, hf, hl, _⟩ := listExpiredCb_fired h now addr
  refine ⟨hf.ordered, ?_, ?_⟩
  · intro t ht
    rcases (hf.mem_iff t).mp ht with hm | ⟨hm, x, hx, hrec⟩
    · obtain ⟨hm, hn⟩ := (hl t).mp hm
      rw [hf.other t hn]
      exact h.object_of_mem t hm
    · obtain ⟨y, hy, hfull⟩ := h.object_of_mem t (mem_expired.mp hm).1
      obtain rfl := Option.some.inj (hx.symm.trans hy)
      refine ⟨_, hf.changed t hm x hx, ?_⟩
      rw [fired, if_pos hrec]
      exact hfull
  · intro t x hx hc
    by_cases hm : t ∈ m.expired now
    · obtain ⟨y, hy, _⟩ := h.object_of_mem t (mem_expired.mp hm).1
      rw [hf.changed t hm y hy] at hx
      obtain rfl := Option.some.inj hx
      apply (hf.mem_iff t).mpr
      refine .inr ⟨hm, y, hy, ?_⟩
      by_cases hrec : y.recurring = true
      · exact hrec
      · rw [fired, if_neg hrec] at hc
        cases hc
    · rw [hf.other t hm] at hx
      apply (hf.mem_iff t).mpr
      exact .inl ((hl t).mpr ⟨h.mem_of_object t x hx hc, hm⟩)

end Expiry

/-- One call of the public interface at the clock value it reads. -/
inductive Call
  | addTimer (t : TimerId) (ms : UInt64) (cb : Option Callback) (recurring : Bool) (now : UInt64)
  | cancel (t : TimerId)
  | refresh (t : TimerId) (now : UInt64)
  | reset (t : TimerId) (ms : UInt64) (fromNow : Bool) (now : UInt64)
  | getNextTimer (now : UInt64)
  | listExpiredCb (now : UInt64) (addr : TimerId)
  deriving DecidableEq, Repr

def Call.run (m : TimerManager) : Call → Option TimerManager
  | addTimer t ms cb recurring now => (m.addTimer t ms cb recurring now).map Prod.fst
  | cancel t => (m.cancel t).map Prod.fst
  | refresh t now => (m.refresh t now).map Prod.fst
  | reset t ms fromNow now => (m.reset t ms fromNow now).map Prod.fst
  | getNextTimer now => some (m.getNextTimer now).1
  | listExpiredCb now addr => some (m.listExpiredCb now addr).1

/-- An empty manager under calls in any order, each at any clock value. -/
def machine : Lib.Machine TimerManager Call where
  init m := ∃ clock, m = { previouseTime := clock }
  step := Call.run

/-- A new timer has a callback. -/
def NonEmpty (_ : TimerManager) : Call → Prop
  | .addTimer _ _ cb _ _ => cb.isSome
  | _ => True

instance (m : TimerManager) : (c : Call) → Decidable (NonEmpty m c)
  | .addTimer _ _ cb _ _ => inferInstanceAs (Decidable (cb.isSome = true))
  | .cancel _ | .refresh _ _ | .reset _ _ _ _ | .getNextTimer _ | .listExpiredCb _ _ =>
    .isTrue trivial

section Runs
variable {m : TimerManager}

theorem consistent_step {full : Prop} {m' : TimerManager} {c : Call} (h : m.Consistent full)
    (hc : full → NonEmpty m c) (hs : machine.step m c = some m') : m'.Consistent full := by
  cases c with
  | addTimer t ms cb recurring now =>
    obtain ⟨r, hr, he⟩ := Option.map_eq_some_iff.mp hs
    subst he
    exact addTimer_consistent h hc hr
  | cancel t =>
    obtain ⟨r, hr, he⟩ := Option.map_eq_some_iff.mp hs
    subst he
    exact cancel_consistent h hr
  | refresh t now =>
    obtain ⟨r, hr, he⟩ := Option.map_eq_some_iff.mp hs
    subst he
    exact refresh_consistent h hr
  | reset t ms fromNow now =>
    obtain ⟨r, hr, he⟩ := Option.map_eq_some_iff.mp hs
    subst he
    exact reset_consistent h hr
  | getNextTimer now =>
    cases hs
    exact getNextTimer_consistent h now
  | listExpiredCb now addr =>
    cases hs
    exact listExpiredCb_consistent h now addr

theorem consistent_init {full : Prop} (h : machine.init m) : m.Consistent full := by
  obtain ⟨clock, he⟩ := h
  subst he
  exact ⟨.nil, by simp, by simp⟩

theorem consistent_reachable (hr : machine.Reachable m) : m.Consistent False := by
  apply Lib.Machine.Reachable.invariant (fun _ hi => consistent_init hi) ?_ hr
  intro m c m' h hs
  exact consistent_step h False.elim hs

/-- In every run whose timers all start with a callback, the set is strictly ordered,
holds every timer with a callback once and no other, and `cancel` finds what it
erases. -/
theorem set_invariant (hr : machine.ReachableUnder NonEmpty m) :
    m.Ordered m.timers ∧ m.timers.Nodup ∧
    (∀ t ∈ m.timers, ∃ x, m.object t = some x) ∧
    (∀ t x, m.object t = some x → m.timers.count t = if x.cb.isSome then 1 else 0) ∧
    (∀ t x, m.object t = some x → x.cb.isSome → m.setErase t m.timers ≠ none) := by
  have h : m.Consistent True := by
    apply Lib.Machine.ReachableUnder.invariant (fun _ hi => consistent_init hi) ?_ hr
    intro m c m' h ho hs
    exact consistent_step h (fun _ => ho) hs
  refine ⟨h.ordered, h.ordered.nodup, ?_, ?_, ?_⟩
  · intro t ht
    obtain ⟨x, hx, _⟩ := h.object_of_mem t ht
    exact ⟨x, hx⟩
  · intro t x hx
    split
    · rename_i hc
      exact List.count_eq_one_of_mem h.ordered.nodup (h.mem_of_object t x hx hc)
    · rename_i hc
      apply List.count_eq_zero_of_not_mem
      intro hm
      obtain ⟨y, hy, hfull⟩ := h.object_of_mem t hm
      obtain rfl := Option.some.inj (hx.symm.trans hy)
      exact hc (hfull trivial)
  · intro t x hx hc he
    rw [h.ordered.setErase (h.mem_of_object t x hx hc)] at he
    cases he

/-- A recurring timer is fired and inserted again behind a later one-shot timer; both
are still found. -/
theorem set_invariant_after_firing :
    ∃ m, machine.ReachableUnder NonEmpty m ∧ m.timers = [1, 0] ∧ m.setErase 0 m.timers ≠ none := by
  obtain ⟨m, hr, hp⟩ := Lib.Machine.exists_of_execUnder machine NonEmpty
    (s := { previouseTime := 100 }) (fun m => m.timers = [1, 0] ∧ ((m.object 0).bind Timer.cb).isSome)
    [.addTimer 0 10 (some 1) true 100, .addTimer 1 15 (some 2) false 100,
      .getNextTimer 101, .listExpiredCb 110 7] ⟨100, rfl⟩ (by decide)
  obtain ⟨c, hc⟩ := Option.isSome_iff_exists.mp hp.2
  obtain ⟨x, hx, hcb⟩ := Option.bind_eq_some_iff.mp hc
  exact ⟨m, hr, hp.1, (set_invariant hr).2.2.2.2 0 x hx (by rw [hcb]; rfl)⟩

/-- Expiry is exact, wherever `now_timer` is allocated: the callbacks of the due timers,
each once and in the order of their deadlines; every other timer is left as it was;
a due timer is registered again from `now` on if it recurs and else loses its
callback. -/
theorem expiry_exact (hr : machine.Reachable m) (now : UInt64) (addr : TimerId) :
    (∀ t, t ∈ m.expired now ↔
      t ∈ m.timers ∧ ((m.detectClockRollover now).2 = true ∨ m.nextOf t ≤ now)) ∧
    (m.expired now).Nodup ∧ (m.expired now).Pairwise (fun t u => m.nextOf t ≤ m.nextOf u) ∧
    (m.listExpiredCb now addr).2 = (m.expired now).map m.cbOf ∧
    (m.listExpiredCb now addr).1.timers.Nodup ∧
    (∀ t, t ∉ m.expired now → (m.listExpiredCb now addr).1.object t = m.object t ∧
      (t ∈ (m.listExpiredCb now addr).1.timers ↔ t ∈ m.timers)) ∧
    (∀ t ∈ m.expired now, ∃ x, m.object t = some x ∧
      (m.listExpiredCb now addr).1.object t = some
        (if x.recurring then { x with next := now + x.ms } else { x with cb := none }) ∧
      (t ∈ (m.listExpiredCb now addr).1.timers ↔ x.recurring = true)) := by
  have h := consistent_reachable hr
  obtain ⟨l, hf, hl, hcb⟩ := listExpiredCb_fired h now addr
  have hsplit := expired_split h.ordered now
  have hsub : m.Ordered (m.expired now) := by
    have ho := h.ordered
    rw [hsplit] at ho
    exact (List.pairwise_append.mp ho).1
  refine ⟨fun t => mem_expired, hsub.nodup, ?_, hcb, hf.ordered.nodup, ?_, ?_⟩
  · apply List.Pairwise.imp ?_ hsub.due_le
    intro t u hle
    exact UInt64.le_iff_toNat_le.mpr hle
  · intro t ht
    refine ⟨hf.other t ht, ?_⟩
    rw [hf.mem_iff t, hl t]
    simp [ht]
  · intro t ht
    obtain ⟨x, hx, _⟩ := h.object_of_mem t (mem_expired.mp ht).1
    refine ⟨x, hx, hf.changed t ht x hx, ?_⟩
    rw [hf.mem_iff t, hl t]
    constructor
    · intro hm
      rcases hm with hm | ⟨_, y, hy, hrec⟩
      · exact absurd ht hm.2
      · obtain rfl := Option.some.inj (hx.symm.trans hy)
        exact hrec
    · intro hrec
      exact .inr ⟨ht, x, hx, hrec⟩

/-- Two timers due at the same time, one on either side of `now_timer`. -/
theorem expiry_exact_at_tie :
    ∃ m, machine.Reachable m ∧ m.expired 110 = [0, 1] ∧
      (m.listExpiredCb 110 1).2 = [0, 1].map m.cbOf := by
  obtain ⟨m, hr, hp⟩ := Lib.Machine.exists_of_exec machine
    (s := { previouseTime := 100 }) (fun m => m.expired 110 = [0, 1])
    [.addTimer 1 10 (some 2) false 100, .addTimer 0 10 (some 1) true 100,
      .addTimer 2 90 (some 3) false 100] ⟨100, rfl⟩ (by decide)
  have h := (expiry_exact hr 110 1).2.2.2.1
  rw [hp] at h
  exact ⟨m, hr, hp, h⟩

end Runs

end HxSylar.TimerManager
