import HxSylar.ResponseMachine

namespace HxSylar
open Lib

/-- A byte of `token`. -/
def isToken (b : UInt8) : Bool :=
  (ResponseMachine.onToken 0 []).any (fun r => r.1 ≤ b && b ≤ r.2.1)

/-- A space that does not end a line. -/
def isLineSpace (b : UInt8) : Bool := b == 9 || b == 11 || b == 12 || b == 32

def isLineEnd (b : UInt8) : Bool := b == 10 || b == 13

namespace ResponseMachine

/-- The words that begin a word. -/
def heads (word : Text) : List Text := word.inits.drop 1

/-- The states of the names that the machine knows. -/
def nameWords : List (Text × Nat) :=
  (heads (text "connection")).zip (List.range' 25 10) ++
    ((heads (text "content-length")).drop 3).zip (List.range' 101 11) ++
    (heads (text "transfer-encoding")).zip (List.range' 44 17)

/-- The states of `chunked` behind `Transfer-Encoding`. -/
def chunkedWords : List (Text × Nat) := (heads (text "chunked")).zip (List.range' 81 7)

/-- The states of `close` behind `Connection`. -/
def closeWords : List (Text × Nat) := (heads (text "close")).zip (List.range' 96 5)

/-- The bytes that `toLower` takes to the same one. -/
def cases (c : UInt8) : List UInt8 := if 97 ≤ c && c ≤ 122 then [c, c - 32] else [c]

theorem mem_cases (b : UInt8) : b ∈ cases (toLower b) := by
  apply forall_byte (p := fun b => b ∈ cases (toLower b))
  decide +kernel

/-- What the ranges of a state take, they take wherever they lead to. -/
theorem cover_token {b : UInt8} (hb : isToken b = true) :
    ∃ r ∈ onToken 21 [], r.1 ≤ b ∧ b ≤ r.2.1 := by
  have hmem : ∀ r ∈ onToken 0 [], (r.1, r.2.1, 21, []) ∈ onToken 21 [] := by decide +kernel
  obtain ⟨r, hr, hin⟩ := List.any_eq_true.mp hb
  rw [Bool.and_eq_true, decide_eq_true_iff, decide_eq_true_iff] at hin
  exact ⟨_, hmem r hr, hin⟩

theorem cover_any (b : UInt8) : ∃ r ∈ onAny 23 [], r.1 ≤ b ∧ b ≤ r.2.1 :=
  ⟨_, List.mem_singleton_self _, UInt8.zero_le, UInt8.le_iff_toNat_le.mpr (by have := b.toNat_lt; simp; omega)⟩

theorem nameSpelling :
    Table.Spelling responseMachine (fun b => isToken b = true) toLower 21 nameWords := by
  apply Table.Spelling.of_rows mem_cases (fun _ => cover_token)
  · apply forall_byte (p := fun b => isToken b = true → Table.ofRows rows 21 b = some (21, []))
    decide +kernel
  · decide +kernel
  · decide +kernel
  · decide +kernel
  · decide +kernel

/-- The bytes of a value. -/
def inLine (b : UInt8) : Bool := !isLineEnd b

theorem value_stays (b : UInt8) (hb : inLine b = true) : responseMachine 23 b = some (23, []) := by
  revert hb
  apply forall_byte (p := fun b => inLine b = true → Table.ofRows rows 23 b = some (23, []))
  decide +kernel

theorem chunkedSpelling :
    Table.Spelling responseMachine (fun b => inLine b = true) toLower 23 chunkedWords := by
  apply Table.Spelling.of_rows mem_cases (fun b _ => cover_any b) value_stays
  · decide +kernel
  · decide +kernel
  · decide +kernel
  · decide +kernel

theorem closeSpelling :
    Table.Spelling responseMachine (fun b => inLine b = true) toLower 23 closeWords := by
  apply Table.Spelling.of_rows mem_cases (fun b _ => cover_any b) value_stays
  · decide +kernel
  · decide +kernel
  · decide +kernel
  · decide +kernel

-- The states at the start of a line and behind the names, by what was read before.

/-- `pending` is what the line before leaves to the first byte of the next one. -/
def lineState (pending : Bool) : Nat := if pending then 43 else 20

def pendingActs (pending : Bool) : List ResponseAct :=
  if pending then [.writeConnectionClose] else []

theorem pendingActs_stops (pending : Bool) :
    (pendingActs pending).any ResponseAct.stops = false := by
  cases pending <;> rfl

/-- Where the colon behind a name leads to, in lower case. -/
def colonState (name : Text) : Nat :=
  if name = text "connection" then 35
  else if name = text "transfer-encoding" then 61
  else if name = text "content-length" then 112
  else 22

/-- Where the first byte of a value leads to. -/
def valueState (colon : Nat) (b : UInt8) : Nat :=
  if colon = 35 ∧ toLower b = 99 then 96
  else if colon = 61 ∧ toLower b = 99 then 81
  else if colon = 112 ∧ isDigit b = true then 119
  else 23

theorem line_start (pending : Bool) {b : UInt8} (hb : isToken b = true) :
    responseMachine (lineState pending) b =
      some (if toLower b = 99 then 25 else if toLower b = 116 then 44 else 21,
        pendingActs pending ++ [.startField]) := by
  revert hb
  apply forall_byte (p := fun b => isToken b = true → responseMachine (lineState pending) b =
    some (if toLower b = 99 then 25 else if toLower b = 116 then 44 else 21,
      pendingActs pending ++ [ResponseAct.startField]))
  cases pending <;> decide +kernel

theorem leads_first (b : UInt8) : Table.Spelling.Leads 21 nameWords [b]
    (if b = 99 then 25 else if b = 116 then 44 else 21) := by
  have hfirst : ∀ e ∈ nameWords, e.1.length = 1 → e.1 = [99] ∨ e.1 = [116] := by decide +kernel
  split
  · rename_i hb
    rw [hb]
    exact .inl (by decide +kernel)
  · rename_i hc
    split
    · rename_i hb
      rw [hb]
      exact .inl (by decide +kernel)
    · rename_i ht
      refine .inr ⟨rfl, fun e he heq => ?_⟩
      rcases hfirst e he (by rw [heq]; rfl) with h | h
      · exact hc (List.singleton_inj.mp (heq.symm.trans h))
      · exact ht (List.singleton_inj.mp (heq.symm.trans h))

theorem colon_step {name : Text} {c : Nat} (h : Table.Spelling.Leads 21 nameWords name c) :
    responseMachine c 58 = some (colonState name, [.writeField]) := by
  have hwords : ∀ e ∈ nameWords, Table.ofRows rows e.2 58 = some (colonState e.1, [.writeField]) := by
    decide +kernel
  have hknown : (text "connection", 34) ∈ nameWords ∧ (text "transfer-encoding", 60) ∈ nameWords ∧
      (text "content-length", 111) ∈ nameWords := by decide +kernel
  rcases h with h | ⟨rfl, h⟩
  · exact hwords _ h
  · rw [colonState, if_neg (fun heq => h _ hknown.1 heq.symm),
      if_neg (fun heq => h _ hknown.2.1 heq.symm), if_neg (fun heq => h _ hknown.2.2 heq.symm)]
    rfl

theorem colonState_mem (name : Text) : colonState name ∈ [22, 35, 61, 112] := by
  rw [colonState]
  split
  · simp
  · split
    · simp
    · split <;> simp

theorem blank_step {colon : Nat} (hcolon : colon ∈ [22, 35, 61, 112]) {b : UInt8}
    (hb : isLineSpace b = true) : responseMachine colon b = some (colon, [.mark]) := by
  revert colon hb
  apply forall_byte (p := fun b => ∀ colon ∈ [22, 35, 61, 112], isLineSpace b = true →
    responseMachine colon b = some (colon, [.mark]))
  decide +kernel

theorem value_start {colon : Nat} (hcolon : colon ∈ [22, 35, 61, 112]) {b : UInt8}
    (hb : isLineSpace b = false) (hline : inLine b = true) :
    responseMachine colon b = some (valueState colon b, [.mark]) := by
  revert colon hb hline
  apply forall_byte (p := fun b => ∀ colon ∈ [22, 35, 61, 112], isLineSpace b = false →
    inLine b = true → responseMachine colon b = some (valueState colon b, [.mark]))
  decide +kernel

/-- `Connection: close`. -/
def saysClose (name value : Text) : Bool :=
  name.map toLower == text "connection" && value.map toLower == text "close"

/-- `Transfer-Encoding: chunked`. -/
def saysChunked (name value : Text) : Bool :=
  name.map toLower == text "transfer-encoding" && value.map toLower == text "chunked"

/-- `Content-Length` with a number. -/
def saysLength (name value : Text) : Bool :=
  name.map toLower == text "content-length" && value.all isDigit

/-- Where the carriage return behind a value leads to. -/
def crState (name value : Text) : Nat :=
  if saysClose name value then 88 else if saysChunked name value then 71 else 24

def crActs (name value : Text) : List ResponseAct :=
  if saysLength name value then [.writeContentLen, .writeValue] else [.writeValue]

def lfActs (name value : Text) : List ResponseAct :=
  if saysChunked name value then [.transChunked] else []

theorem crActs_stops (name value : Text) : (crActs name value).any ResponseAct.stops = false := by
  rw [crActs]
  split <;> rfl

theorem lfActs_stops (name value : Text) : (lfActs name value).any ResponseAct.stops = false := by
  rw [lfActs]
  split <;> rfl

theorem line_feed (name value : Text) :
    responseMachine (crState name value) 10 =
      some (lineState (saysClose name value), lfActs name value) := by
  rw [crState, lfActs]
  cases hclose : saysClose name value with
  | true =>
    have hchunked : saysChunked name value = false := by
      rw [saysClose, Bool.and_eq_true, beq_iff_eq] at hclose
      rw [saysChunked, hclose.1]
      rfl
    rw [hchunked]
    decide +kernel
  | false => cases saysChunked name value <;> decide +kernel

/-- The end of a value that might have been a known word. -/
theorem word_end {words : List (Text × Nat)} (word : Text) (cr : Nat)
    (hwords : ∀ e ∈ words, responseMachine e.2 13 =
      some (if e.1 = word then cr else 24, [.writeValue]))
    (hword : ∃ e ∈ words, e.1 = word) {w : Text} {c : Nat}
    (h : Table.Spelling.Leads 23 words w c) :
    responseMachine c 13 = some (if w = word then cr else 24, [.writeValue]) := by
  rcases h with h | ⟨rfl, h⟩
  · exact hwords _ h
  · obtain ⟨e, he, hword⟩ := hword
    rw [if_neg (fun heq => h e he (hword.trans heq.symm))]
    rfl

theorem leads_value {colon first : Nat} {words : List (Text × Nat)}
    (hfirst : ([99], first) ∈ words) (hone : ∀ e ∈ words, e.1.length = 1 → e.1 = [99]) {b : UInt8}
    (hb : valueState colon b = if toLower b = 99 then first else 23) :
    Table.Spelling.Leads 23 words [toLower b] (valueState colon b) := by
  rw [hb]
  split
  · rename_i hb
    rw [hb]
    exact .inl hfirst
  · rename_i hne
    refine .inr ⟨rfl, fun e he heq => hne ?_⟩
    exact List.singleton_inj.mp (heq.symm.trans (hone e he (by rw [heq]; rfl)))

section Lines
variable {σ : Type*} {act : Nat → ResponseAct → σ → σ} {pos : Nat} {s : σ}

theorem name_passes {name : Text} (hne : name ≠ []) (htoken : ∀ b ∈ name, isToken b = true)
    (pending : Bool) :
    ∃ c, Table.Spelling.Leads 21 nameWords (name.map toLower) c ∧
      Table.Passes responseMachine ResponseAct.stops act (lineState pending) pos name s c
        (Table.apply act pos (pendingActs pending ++ [.startField]) s) := by
  obtain ⟨b, rest, rfl⟩ := List.exists_cons_of_ne_nil hne
  obtain ⟨c, hc, hpass⟩ := nameSpelling.passes (List.cons_ne_nil b []) (leads_first (toLower b))
    (fun b' hb' => htoken b' (List.mem_cons_of_mem _ hb'))
  refine ⟨c, hc, Table.Passes.cons (line_start pending (htoken b List.mem_cons_self)) ?_ hpass⟩
  cases pending <;> rfl

/-- A value behind a name whose one known value is spelled. -/
theorem word_passes (first : Nat) {colon : Nat} {words : List (Text × Nat)} {b : UInt8}
    {rest : Text}
    (hspelling : Table.Spelling responseMachine (fun b => inLine b = true) toLower 23 words)
    (hfirst : ([99], first) ∈ words) (hone : ∀ e ∈ words, e.1.length = 1 → e.1 = [99])
    (hb : valueState colon b = if toLower b = 99 then first else 23)
    (hstart : responseMachine colon b = some (valueState colon b, [.mark]))
    (hrest : ∀ b ∈ rest, inLine b = true) :
    ∃ c, Table.Passes responseMachine ResponseAct.stops act colon pos (b :: rest) s c
        (act pos .mark s) ∧
      Table.Spelling.Leads 23 words ((b :: rest).map toLower) c := by
  obtain ⟨c, hc, hpass⟩ :=
    hspelling.passes (List.cons_ne_nil b []) (leads_value hfirst hone hb) hrest
  exact ⟨c, Table.Passes.cons hstart rfl hpass, hc⟩

/-- A value behind `Content-Length` stays with the digits as long as it can. -/
theorem digits_step (w : Text) (c : Nat) (hc : c = if w.all isDigit = true then 119 else 23)
    (b : UInt8) (hb : inLine b = true) :
    ∃ c', responseMachine c b = some (c', []) ∧
      c' = if (w ++ [b]).all isDigit = true then 119 else 23 := by
  refine ⟨_, ?_, rfl⟩
  rw [hc, List.all_append, List.all_cons, List.all_nil, Bool.and_true]
  cases w.all isDigit with
  | false => exact value_stays b hb
  | true =>
    revert hb
    apply forall_byte (p := fun b => inLine b = true → responseMachine 119 b =
      some (if isDigit b = true then 119 else 23, []))
    decide +kernel

theorem length_passes {b : UInt8} {rest : Text}
    (hstart : responseMachine 112 b = some (valueState 112 b, [.mark]))
    (hrest : ∀ b ∈ rest, inLine b = true) :
    Table.Passes responseMachine ResponseAct.stops act 112 pos (b :: rest) s
      (if (b :: rest).all isDigit = true then 119 else 23) (act pos .mark s) := by
  have hfirst : valueState 112 b = if [b].all isDigit = true then 119 else 23 := by
    simp [valueState]
  obtain ⟨c, hc, hpass⟩ := Table.Passes.within (p := fun b => inLine b = true) digits_step hfirst
    hrest
  rw [← List.singleton_append, ← hc]
  exact Table.Passes.cons hstart rfl hpass

/-- What a value that is not empty leads to, and the carriage return behind it. -/
theorem value_passes {name value : Text} {b : UInt8} {rest : Text} (hvalue : value = b :: rest)
    (hblank : isLineSpace b = false) (hline : ∀ b ∈ value, inLine b = true) :
    ∃ c, Table.Passes responseMachine ResponseAct.stops act (colonState (name.map toLower)) pos
        value s c (act pos .mark s) ∧
      responseMachine c 13 = some (crState name value, crActs name value) := by
  have hrest : ∀ b' ∈ rest, inLine b' = true :=
    fun b' hb' => hline b' (hvalue ▸ List.mem_cons_of_mem _ hb')
  have hstart := value_start (colonState_mem (name.map toLower)) hblank
    (hline b (hvalue ▸ List.mem_cons_self))
  subst hvalue
  by_cases hconnection : name.map toLower = text "connection"
  · have hcolon : colonState (name.map toLower) = 35 := if_pos hconnection
    rw [hcolon] at hstart ⊢
    obtain ⟨c, hpass, hc⟩ := word_passes 96 closeSpelling (by decide +kernel) (by decide +kernel)
      (by simp [valueState]) hstart hrest
    refine ⟨c, hpass, ?_⟩
    rw [word_end (text "close") 88 (by decide +kernel) (by decide +kernel) hc, crState, crActs,
      saysClose, saysChunked, saysLength, hconnection]
    simp [text, byte]
  by_cases hencoding : name.map toLower = text "transfer-encoding"
  · have hcolon : colonState (name.map toLower) = 61 := by
      rw [colonState, if_neg hconnection, if_pos hencoding]
    rw [hcolon] at hstart ⊢
    obtain ⟨c, hpass, hc⟩ := word_passes 81 chunkedSpelling (by decide +kernel) (by decide +kernel)
      (by simp [valueState]) hstart hrest
    refine ⟨c, hpass, ?_⟩
    rw [word_end (text "chunked") 71 (by decide +kernel) (by decide +kernel) hc, crState, crActs,
      saysClose, saysChunked, saysLength, hencoding]
    simp [text, byte]
  have hclose : saysClose name (b :: rest) = false := by
    rw [saysClose, beq_false_of_ne hconnection, Bool.false_and]
  have hchunked : saysChunked name (b :: rest) = false := by
    rw [saysChunked, beq_false_of_ne hencoding, Bool.false_and]
  rw [crState, crActs, hclose, hchunked, saysLength]
  by_cases hlength : name.map toLower = text "content-length"
  · have hcolon : colonState (name.map toLower) = 112 := by
      rw [colonState, if_neg hconnection, if_neg hencoding, if_pos hlength]
    rw [hcolon] at hstart ⊢
    refine ⟨_, length_passes hstart hrest, ?_⟩
    rw [hlength, beq_self_eq_true, Bool.true_and]
    cases (b :: rest).all isDigit <;> decide +kernel
  · have hcolon : colonState (name.map toLower) = 22 := by
      rw [colonState, if_neg hconnection, if_neg hencoding, if_neg hlength]
    rw [hcolon] at hstart ⊢
    refine ⟨23, Table.Passes.cons hstart rfl (Table.Passes.loop value_stays hrest), ?_⟩
    rw [beq_false_of_ne hlength, Bool.false_and]
    decide +kernel

end Lines

/-- Blanks in front of a value move the mark only. -/
theorem blanks_pass {buffer : Text} {colon pos : Nat} (hcolon : colon ∈ [22, 35, 61, 112])
    {blanks : Text} (hblank : ∀ b ∈ blanks, isLineSpace b = true) (p : HttpResponseParser) :
    ∃ mark, Table.Passes responseMachine ResponseAct.stops (HttpResponseParser.act buffer) colon pos
      blanks p colon { p with mark := mark } := by
  induction blanks generalizing pos p with
  | nil => exact ⟨p.mark, Table.Passes.nil⟩
  | cons b blanks ih =>
    obtain ⟨mark, hpass⟩ := ih (fun b' hb' => hblank b' (List.mem_cons_of_mem _ hb'))
      { p with mark := pos }
    exact ⟨mark, Table.Passes.cons (blank_step hcolon (hblank b List.mem_cons_self)) rfl hpass⟩

end ResponseMachine
end HxSylar
