import HxSylar.HttpBuffer
import HxSylar.Proofs.HttpStream

namespace HxSylar.HttpBuffer
open Lib

namespace Buffer
variable {size : Nat} (m : Buffer size)

theorem store_eq {offset : Nat} {r : Text} (h : offset + r.length ≤ size) :
    (m.store offset r).1 = m.1.take offset ++ r ++ m.1.drop (offset + r.length) := by
  have hroom : r.take (m.1.length - offset) = r := by
    apply List.take_of_length_le
    rw [m.2]
    omega
  change overwrite m.1 offset r = _
  rw [overwrite, hroom]

theorem length_front {offset : Nat} {r : Text} (h : offset + r.length ≤ size) :
    (m.1.take offset ++ r).length = offset + r.length := by
  rw [List.length_append, List.length_take, m.2]
  omega

theorem take_store {offset : Nat} {r : Text} (h : offset + r.length ≤ size) :
    (m.store offset r).1.take (offset + r.length) = m.1.take offset ++ r := by
  rw [store_eq m h]
  exact List.take_left' (length_front m h)

/-- What lies behind the stored bytes stays. -/
theorem getElem?_store {offset : Nat} {r : Text} (h : offset + r.length ≤ size) {i : Nat}
    (hi : offset + r.length ≤ i) : (m.store offset r).1[i]? = m.1[i]? := by
  have hfront := length_front m h
  rw [store_eq m h, List.getElem?_append_right (by omega), hfront, List.getElem?_drop,
    Nat.add_sub_cancel' hi]

theorem take_memmove {start len : Nat} (h : start + len ≤ size) :
    (m.memmove start len).1.take len = (m.1.take (start + len)).drop start := by
  have hlength : (m.1.substr start len).length = len := by
    rw [Text.substr, List.length_take, List.length_drop, m.2]
    omega
  have htake : (m.memmove start len).1.take (0 + (m.1.substr start len).length) = _ :=
    take_store m (by omega)
  rw [hlength, Nat.zero_add, List.take_zero, List.nil_append] at htake
  rw [htake, Text.substr, List.drop_take, Nat.add_sub_cancel_left]

end Buffer

/-- An action marks places up to its own. -/
theorem act_marks {buffer : Text} {pos n : Nat} (a : ResponseAct) {p : HttpResponseParser}
    (hpos : pos < n) (h : p.mark < n ∧ p.fieldLen ≤ n ∧ p.fieldStart < n) :
    (p.act buffer pos a).mark < n ∧ (p.act buffer pos a).fieldLen ≤ n ∧
      (p.act buffer pos a).fieldStart < n := by
  cases a with
  | mark => exact ⟨hpos, h.2⟩
  | startField => exact ⟨h.1, h.2.1, hpos⟩
  | writeField => exact ⟨h.1, Nat.le_trans (Nat.sub_le _ _) (Nat.le_of_lt hpos), h.2.2⟩
  | writeValue =>
    simp only [HttpResponseParser.act, HttpResponseParser.onResponseHttpField]
    split
    · exact h
    · exact h
  | httpVersion =>
    simp only [HttpResponseParser.act, HttpResponseParser.onResponseVersion]
    split
    · exact h
    · split
      · exact h
      · exact h
  | chunkSize =>
    simp only [HttpResponseParser.act]
    split
    · exact h
    · exact h
  | _ => exact h

namespace ClientParser
variable {T : ResponseTable} {p : ClientParser} {data : Text}

/-- Without `body_start` it is the parser of the reading loops. -/
theorem execute_forget : HttpResponseParser.execute T p.toHttpResponseParser data false =
    ((p.execute T data).1.toHttpResponseParser, (p.execute T data).2) := by
  have hact : ∀ pos a (q : ClientParser), (act data pos a q).toHttpResponseParser =
      HttpResponseParser.act data pos a q.toHttpResponseParser := fun _ _ _ => rfl
  have hrun : T.run ResponseAct.stops (HttpResponseParser.act data) p.cs 0 data
      { p.toHttpResponseParser with mark := 0, fieldLen := 0, fieldStart := 0 } = _ :=
    Table.run_map hact p.cs 0 data { p with mark := 0, fieldLen := 0, fieldStart := 0 }
  simp only [HttpResponseParser.execute, Bool.false_eq_true, if_false]
  rw [hrun]
  rfl

/-- What the machine marks lies in its text. -/
theorem execute_marks (hdata : data ≠ []) :
    (p.execute T data).1.mark < data.length ∧ (p.execute T data).1.fieldLen ≤ data.length ∧
      (p.execute T data).1.fieldStart < data.length := by
  have hpos : 0 < data.length := List.length_pos_iff.mpr hdata
  refine Table.run_keeps_below (P := fun q : ClientParser =>
    q.mark < data.length ∧ q.fieldLen ≤ data.length ∧ q.fieldStart < data.length) ?_
    (Nat.le_of_eq (Nat.zero_add data.length)) ?_
  · intro pos hlt a q hq
    exact act_marks a hlt hq
  · exact ⟨hpos, Nat.zero_le _, hpos⟩

theorem execute_nread_le : (p.execute T data).2 ≤ data.length := by
  have hle : (p.execute T data).2 ≤ 0 + data.length := Table.run_n_le _ _ _ _ _
  rwa [Nat.zero_add] at hle

theorem execute_bodyStart : (p.execute T data).1.bodyStart =
    if T.stopsIn ResponseAct.stops p.cs data then (p.execute T data).2 else p.bodyStart :=
  Table.run_stop_set (g := bodyStart) (fun _ _ _ => rfl) p.cs 0 data
    { p with mark := 0, fieldLen := 0, fieldStart := 0 }

end ClientParser

namespace ParserCall
variable {size : Nat} (T : ResponseTable) (c : ParserCall size)

/-- The assertions of `httpclient_parser_execute` at its entry and its exit
(httpclient_parser.cc:105-112, 3804-3819), with the memory they read. `off` is zero. -/
structure Safe : Prop where
  inside : c.len < size
  terminated : c.buffer.1[c.len]? = some 0
  nread : (c.result T).2 ≤ c.len
  bodyStart : (c.result T).1.bodyStart ≤ c.len
  returned : c.returned T ≠ -1

/-- What the call needs of the state before the read: behind the bytes that arrive, the buffer
goes on with a null byte; and a header that was complete before does not end behind them, unless
another one is complete now. -/
structure Allowed : Prop where
  terminated : c.before.1[c.offset + c.received.length]? = some 0
  bodyStart : c.parser.bodyStart ≤ c.offset + c.received.length ∨
    T.stopsIn ResponseAct.stops c.parser.cs (c.before.1.take c.offset ++ c.received) = true

instance : Decidable (c.Allowed T) :=
  decidable_of_iff (_ ∧ _) ⟨fun h => ⟨h.1, h.2⟩, fun h => ⟨h.1, h.2⟩⟩

/-- What the loops see to. -/
structure Fits : Prop where
  received : c.received ≠ []
  room : c.len ≤ size

variable {T c}

theorem Fits.data (h : c.Fits) : c.buffer.1.take c.len = c.before.1.take c.offset ++ c.received :=
  Buffer.take_store c.before h.room

theorem Fits.length_data (h : c.Fits) : (c.before.1.take c.offset ++ c.received).length = c.len :=
  Buffer.length_front c.before h.room

theorem Fits.data_ne_nil (h : c.Fits) : c.before.1.take c.offset ++ c.received ≠ [] :=
  List.append_ne_nil_of_right_ne_nil _ h.received

theorem Fits.nread_le (h : c.Fits) : (c.result T).2 ≤ c.len := by
  rw [result, h.data, ← h.length_data]
  exact ClientParser.execute_nread_le

/-- The checks at the exit never fail. -/
theorem Fits.returned_eq (h : c.Fits) : c.returned T = (c.result T).2 := by
  have hmarks := ClientParser.execute_marks (T := T) (p := c.parser) h.data_ne_nil
  rw [h.length_data, ← h.data] at hmarks
  rw [returned]
  exact if_pos hmarks

/-- The byte behind the data is the one that was there before the read. -/
theorem Fits.behind (h : c.Fits) :
    c.buffer.1[c.len]? = c.before.1[c.offset + c.received.length]? :=
  Buffer.getElem?_store c.before h.room (Nat.le_refl _)

theorem Fits.safe_iff (h : c.Fits) : c.Safe T ↔ c.Allowed T := by
  have hbyte := h.behind
  have hstart : (c.result T).1.bodyStart ≤ c.len ↔ c.parser.bodyStart ≤ c.len ∨
      T.stopsIn ResponseAct.stops c.parser.cs (c.before.1.take c.offset ++ c.received) = true := by
    have hnread := h.nread_le (T := T)
    rw [result, h.data] at hnread ⊢
    rw [ClientParser.execute_bodyStart]
    split
    · rename_i hstops
      exact ⟨fun _ => .inr hstops, fun _ => hnread⟩
    · rename_i hstops
      exact ⟨.inl, fun hor => hor.resolve_right hstops⟩
  constructor
  · intro hsafe
    exact ⟨hbyte ▸ hsafe.terminated, hstart.mp hsafe.bodyStart⟩
  · intro hallowed
    have hterminated := hbyte.trans hallowed.terminated
    refine ⟨?_, hterminated, h.nread_le, hstart.mpr hallowed.bodyStart, ?_⟩
    · obtain ⟨hlt, -⟩ := List.getElem?_eq_some_iff.mp hterminated
      rwa [c.buffer.2] at hlt
    · rw [h.returned_eq]
      omega

/-- A call comes back exactly if it is safe. -/
theorem outcome_cases (T : ResponseTable) (c : ParserCall size) :
    c.Safe T ∧ c.outcome T = .ok (c.result T) ∨ ¬c.Safe T ∧ ∃ a, c.outcome T = .error a := by
  cases hbyte : c.buffer.1[c.len]? with
  | none =>
    refine .inr ⟨?_, .outside, by simp only [outcome, hbyte]⟩
    intro hsafe
    rw [hsafe.terminated] at hbyte
    cases hbyte
  | some pe =>
    by_cases hpe : pe = 0
    · obtain ⟨hinside, -⟩ := List.getElem?_eq_some_iff.mp hbyte
      rw [c.buffer.2] at hinside
      have houtcome : c.outcome T =
          if c.len < (c.result T).2 ∨ c.len < (c.result T).1.bodyStart then .error .assertion
          else if c.returned T = -1 then .error .outside else .ok (c.result T) := by
        simp only [outcome, hbyte, hpe, ne_eq, not_true_eq_false, if_false]
      rw [houtcome]
      split
      · rename_i hexit
        refine .inr ⟨?_, .assertion, rfl⟩
        intro hsafe
        have hnread := hsafe.nread
        have hstart := hsafe.bodyStart
        omega
      · rename_i hexit
        split
        · rename_i hreturned
          exact .inr ⟨fun hsafe => hsafe.returned hreturned, .outside, rfl⟩
        · rename_i hreturned
          exact .inl ⟨⟨hinside, hpe ▸ hbyte, by omega, by omega, hreturned⟩, rfl⟩
    · refine .inr ⟨?_, .assertion, ?_⟩
      · intro hsafe
        rw [hsafe.terminated] at hbyte
        exact hpe (Option.some.inj hbyte).symm
      · simp only [outcome, hbyte, ne_eq, hpe, not_false_eq_true, if_true]

end ParserCall

/-- A run that makes calls that fit. If all of them are safe it ends as `P` says, else the program
ends. -/
structure Checked {size : Nat} {α : Type} (T : ResponseTable)
    (run : List (ParserCall size) × Except Abort α) (P : α → Prop) : Prop where
  calls : ∀ c ∈ run.1, c.Fits
  ends : (∀ c ∈ run.1, c.Safe T) → ∃ x, run.2 = .ok x ∧ P x
  aborts : ∀ c ∈ run.1, ¬c.Safe T → ∃ a, run.2 = .error a

namespace Checked
variable {size : Nat} {α β : Type} {T : ResponseTable} {P : α → Prop} {Q : β → Prop}
  {calls : List (ParserCall size)}

theorem none {x : α} (h : P x) : Checked T (([] : List (ParserCall size)), .ok x) P where
  calls _ hc := absurd hc List.not_mem_nil
  ends _ := ⟨x, rfl, h⟩
  aborts _ hc := absurd hc List.not_mem_nil

theorem call {c : ParserCall size} (h : c.Fits) :
    Checked T ([c], c.outcome T) (fun x => x = c.result T) := by
  refine ⟨?_, ?_, ?_⟩
  · intro d hd
    rwa [List.mem_singleton.mp hd]
  · intro hsafe
    rcases c.outcome_cases T with ⟨_, hok⟩ | ⟨hfails, _⟩
    · exact ⟨_, hok, rfl⟩
    · exact absurd (hsafe c List.mem_cons_self) hfails
  · intro d hd hfails
    rw [List.mem_singleton.mp hd] at hfails
    rcases c.outcome_cases T with ⟨hsafe, _⟩ | ⟨_, herror⟩
    · exact absurd hsafe hfails
    · exact herror

/-- Behind an abort nothing more is done. -/
theorem abort {a : Abort} (h : Checked T (calls, .error a) P) : Checked T (calls, .error a) Q where
  calls := h.calls
  ends hsafe := by
    obtain ⟨_, hok, _⟩ := h.ends hsafe
    cases hok
  aborts _ _ _ := ⟨a, rfl⟩

/-- A run that came to its end made safe calls. -/
theorem safe {x : α} (h : Checked T (calls, .ok x) P) {c : ParserCall size} (hc : c ∈ calls) :
    c.Safe T := by
  by_contra hfails
  obtain ⟨_, herror⟩ := h.aborts c hc hfails
  cases herror

theorem result {x : α} (h : Checked T (calls, .ok x) P) : P x := by
  obtain ⟨y, hy, hP⟩ := h.ends (fun c hc => h.safe hc)
  cases hy
  exact hP

/-- What is computed behind the calls. -/
theorem map {x : α} (h : Checked T (calls, .ok x) P) {y : β} (hy : Q y) :
    Checked T (calls, .ok y) Q where
  calls := h.calls
  ends _ := ⟨y, rfl, hy⟩
  aborts _ hc hfails := absurd (h.safe hc) hfails

theorem append {x : α} (h : Checked T (calls, .ok x) P)
    {more : List (ParserCall size) × Except Abort β} (hmore : Checked T more Q) :
    Checked T (calls ++ more.1, more.2) Q where
  calls := List.forall_mem_append.mpr ⟨h.calls, hmore.calls⟩
  ends hsafe := hmore.ends (List.forall_mem_append.mp hsafe).2
  aborts c hc hfails := by
    rcases List.mem_append.mp hc with hc | hc
    · exact absurd (h.safe hc) hfails
    · exact hmore.aborts c hc hfails

/-- Whether a run ends well is a matter of its calls. -/
theorem ok_iff {run : List (ParserCall size) × Except Abort α} {y : α}
    (h : Checked T run (fun x => x = y)) {x : α} :
    run.2 = .ok x ↔ (∀ c ∈ run.1, c.Safe T) ∧ x = y := by
  obtain ⟨calls, r⟩ := run
  constructor
  · rintro rfl
    exact ⟨fun c hc => h.safe hc, h.result⟩
  · rintro ⟨hsafe, rfl⟩
    obtain ⟨x', hx', rfl⟩ := h.ends hsafe
    exact hx'

end Checked

section Loops
variable {size : Nat} {T : ResponseTable}

/-- An end of a loop as the reading loops without memory have it. -/
def BufferEnd.forget : BufferEnd size → HeaderEnd HttpResponseParser
  | .finished p mem len src => .finished p.toHttpResponseParser (mem.1.take len) src
  | .null p src => .null p.toHttpResponseParser src
  | .stuck => .stuck

def BufferEnd.Fits : BufferEnd size → Prop
  | .finished _ _ len _ => len ≤ size
  | .null _ _ | .stuck => True

/-- An end within the buffer that is, without memory, the end `e`. -/
structure BufferEnd.Refines (b : BufferEnd size) (e : HeaderEnd HttpResponseParser) : Prop where
  forget : b.forget = e
  fits : b.Fits

theorem header_hasError (chunk : Bool) (p : HttpResponseParser) :
    (HttpResponseParser.header T chunk).hasError p = p.hasError := rfl

theorem header_isFinished (chunk : Bool) (p : HttpResponseParser) :
    (HttpResponseParser.header T chunk).isFinished p = p.isFinished := rfl

theorem header_execute (p : ClientParser) (chunk : Bool) (data : Text) :
    (HttpResponseParser.header T chunk).execute p.toHttpResponseParser data =
      (((if chunk then p.init else p).execute T data).1.toHttpResponseParser,
        ((if chunk then p.init else p).execute T data).2) := by
  cases chunk with
  | false => exact ClientParser.execute_forget
  | true => exact ClientParser.execute_forget (p := p.init)

/-- What a call computes, without `body_start`. -/
theorem ParserCall.Fits.execute {c : ParserCall size} (h : c.Fits) :
    HttpResponseParser.execute T c.parser.toHttpResponseParser
        (c.before.1.take c.offset ++ c.received) false =
      ((c.result T).1.toHttpResponseParser, (c.result T).2) := by
  rw [ClientParser.execute_forget, result, h.data]

/-- What a call that fits leaves in the buffer is what it did not take. -/
theorem ParserCall.Fits.left {c : ParserCall size} (h : c.Fits) :
    (c.buffer.memmove (c.result T).2 (c.len - (c.result T).2)).1.take (c.len - (c.result T).2) =
      (c.before.1.take c.offset ++ c.received).drop (c.result T).2 := by
  have hnread := h.nread_le (T := T)
  have hroom := h.room
  rw [Buffer.take_memmove _ (by omega), Nat.add_sub_cancel' hnread, h.data]

theorem recvHeader_refined (chunk : Bool) (fuel : Nat) (p : ClientParser) (mem : Buffer size)
    {offset : Nat} (src : Source) (hoffset : offset ≤ size) :
    Checked T (recvHeader T chunk fuel p mem offset src) (fun b => b.Refines
      (HxSylar.recvHeader (HttpResponseParser.header T chunk) size fuel p.toHttpResponseParser
        (mem.1.take offset) src)) := by
  induction fuel generalizing p mem offset src with
  | zero => exact .none ⟨rfl, trivial⟩
  | succ fuel ih =>
    have hlen : (mem.1.take offset).length = offset := by
      rw [List.length_take, mem.2]
      omega
    have hle := src.read_length (size - offset)
    by_cases hread : (src.read (size - offset)).1 = []
    · simp only [recvHeader, HxSylar.recvHeader, hlen, if_pos hread]
      exact .none ⟨rfl, trivial⟩
    · rw [HxSylar.recvHeader_round (by rwa [hlen]), hlen]
      simp only [recvHeader, if_neg hread]
      generalize src.read (size - offset) = s at hle hread ⊢
      obtain ⟨r, src'⟩ := s
      simp only at hle hread ⊢
      obtain ⟨c, hc⟩ : ∃ c : ParserCall size, c = ⟨if chunk then p.init else p, mem, offset, r⟩ :=
        ⟨_, rfl⟩
      have hfits : c.Fits := by
        subst hc
        refine ⟨hread, ?_⟩
        change offset + r.length ≤ size
        omega
      have hexec : (HttpResponseParser.header T chunk).execute p.toHttpResponseParser
          (mem.1.take offset ++ r) = ((c.result T).1.toHttpResponseParser, (c.result T).2) := by
        rw [header_execute, ParserCall.result, hfits.data]
        subst hc
        rfl
      have hleft : (c.buffer.memmove (c.result T).2 (c.len - (c.result T).2)).1.take
          (c.len - (c.result T).2) = (mem.1.take offset ++ r).drop (c.result T).2 := by
        rw [hfits.left]
        subst hc
        rfl
      have hlength : ((mem.1.take offset ++ r).drop (c.result T).2).length =
          c.len - (c.result T).2 := by
        rw [← hleft, List.length_take, Subtype.prop (c.buffer.memmove _ _)]
        have hroom := hfits.room
        omega
      have hroom : c.len - (c.result T).2 ≤ size := Nat.le_trans (Nat.sub_le _ _) hfits.room
      have hcall := Checked.call (T := T) hfits
      rw [← hc, congrArg Prod.fst hexec, congrArg Prod.snd hexec, hlength, header_hasError,
        header_isFinished, ← hleft]
      generalize c.outcome T = outcome at hcall
      cases outcome with
      | error a => exact hcall.abort
      | ok x =>
        obtain rfl := hcall.result
        simp only
        split
        · exact hcall.map ⟨rfl, trivial⟩
        · split
          · exact hcall.map ⟨rfl, trivial⟩
          · split
            · exact hcall.map ⟨rfl, hroom⟩
            · exact hcall.append (ih (c.result T).1
                (c.buffer.memmove (c.result T).2 (c.len - (c.result T).2)) src' hroom)

/-- The rest of a chunk goes through the buffer as it arrives. -/
theorem recvRest_refined (fuel left : Nat) (body : Text) (mem : Buffer size) (src : Source) :
    (recvRest fuel left body mem src).2 = HttpConnection.recvRest size fuel left body src := by
  induction fuel generalizing left body mem src with
  | zero => rfl
  | succ fuel ih =>
    simp only [recvRest, HttpConnection.recvRest]
    split
    · rfl
    · split
      · rfl
      · have hle := src.read_length (min size left)
        have htake : (mem.store 0 (src.read (min size left)).1).1.take
            (0 + (src.read (min size left)).1.length) = _ := Buffer.take_store mem (by omega)
        rw [Nat.zero_add, List.take_zero, List.nil_append] at htake
        rw [ih, htake]

theorem recvChunks_refined (fuel : Nat) (p : ClientParser) (mem : Buffer size) {len : Nat}
    (body : Text) (src : Source) (hlen : len ≤ size) :
    Checked T (recvChunks T fuel p mem len body src) (fun r => r = HttpConnection.recvChunks T size
      fuel p.toHttpResponseParser (mem.1.take len) body src) := by
  induction fuel generalizing p mem len body src with
  | zero => exact .none rfl
  | succ fuel ih =>
    have hcalls := recvHeader_refined (T := T) true (src.size + 1) p mem src hlen
    simp only [recvChunks, HttpConnection.recvChunks]
    generalize recvHeader T true (src.size + 1) p mem len src = run at hcalls
    obtain ⟨calls, e⟩ := run
    cases e with
    | error a => exact hcalls.abort
    | ok e =>
      obtain ⟨hforget, hfits⟩ := hcalls.result
      rw [← hforget]
      cases e with
      | null p src => exact hcalls.map rfl
      | stuck => exact hcalls.map rfl
      | finished p mem len src =>
        have hlength : (mem.1.take len).length = len := by
          rw [List.length_take, mem.2]
          exact Nat.min_eq_left hfits
        simp only [BufferEnd.forget, hlength]
        split
        · rename_i hle
          split
          · exact hcalls.map rfl
          · rename_i hneg
            have hn : p.contentLen.toNat ≤ len := by omega
            have hbody : (mem.1.take len).take p.contentLen.toNat =
                mem.1.take p.contentLen.toNat := by
              rw [List.take_take, Nat.min_eq_left hn]
            have hleft : (mem.memmove p.contentLen.toNat (len - p.contentLen.toNat)).1.take
                (len - p.contentLen.toNat) = (mem.1.take len).drop p.contentLen.toNat := by
              rw [Buffer.take_memmove _ (by rw [Nat.add_sub_cancel' hn]; exact hfits),
                Nat.add_sub_cancel' hn]
            rw [hbody, ← hleft]
            split
            · exact hcalls.map rfl
            · exact hcalls.append (ih p (mem.memmove p.contentLen.toNat (len - p.contentLen.toNat))
                (body ++ mem.1.take p.contentLen.toNat) src
                (Nat.le_trans (Nat.sub_le len p.contentLen.toNat) hfits))
        · rw [← recvRest_refined _ _ _ mem]
          generalize recvRest (src.size + 1) p.contentLen.toNat (body ++ mem.1.take len) mem src =
            rest
          obtain ⟨mem', e⟩ := rest
          cases e with
          | null src => exact hcalls.map rfl
          | stuck => exact hcalls.map rfl
          | data body src =>
            simp only
            split
            · exact hcalls.map rfl
            · exact hcalls.append (ih p mem' body src (Nat.zero_le size))

/-- If its calls are safe, the model with memory returns what the one without it returns, whatever
the memory holds. -/
theorem recvResponse_refined (garbage : Buffer size) (src : Source) :
    Checked T (recvResponse T garbage src)
      (fun r => r = HttpConnection.recvResponse T size src) := by
  have hcalls := recvHeader_refined (T := T) false (src.size + 1) {} garbage src (Nat.zero_le size)
  rw [List.take_zero] at hcalls
  simp only [recvResponse, HttpConnection.recvResponse]
  generalize recvHeader T false (src.size + 1) {} garbage 0 src = run at hcalls
  obtain ⟨calls, e⟩ := run
  cases e with
  | error a => exact hcalls.abort
  | ok e =>
    obtain ⟨hforget, hfits⟩ := hcalls.result
    rw [← hforget]
    cases e with
    | null p src => exact hcalls.map rfl
    | stuck => exact hcalls.map rfl
    | finished p mem len src =>
      simp only [BufferEnd.forget, HttpConnection.recvBody]
      split
      · exact hcalls.append (recvChunks_refined (T := T) (src.size + 1) p mem [] src hfits)
      · exact hcalls.map rfl

/-- A call of `recvResponse` ends the program unless every read leaves a null byte behind what
arrived, and no header that was complete before ends behind it. -/
theorem recvResponse_ok_iff (garbage : Buffer size) (src : Source)
    {r : Received HttpResponse × Source} :
    (recvResponse T garbage src).2 = .ok r ↔
      (∀ c ∈ (recvResponse T garbage src).1, c.Allowed T) ∧
        HttpConnection.recvResponse T size src = r := by
  have hchecked := recvResponse_refined (T := T) garbage src
  rw [hchecked.ok_iff, eq_comm]
  refine and_congr_left' (forall₂_congr ?_)
  intro c hc
  exact (hchecked.calls c hc).safe_iff

end Loops

/-- The parser is called as it demands if and only if every read leaves a null byte behind what
arrived, and no header that was complete before ends behind it. -/
theorem recvResponse_safe_iff (T : ResponseTable) {size : Nat} (garbage : Buffer size)
    (src : Source) :
    (∀ c ∈ (recvResponse T garbage src).1, c.Safe T) ↔
      ∀ c ∈ (recvResponse T garbage src).1, c.Allowed T := by
  have hfits := (recvResponse_refined (T := T) garbage src).calls
  constructor
  · intro hsafe c hc
    exact (hfits c hc).safe_iff.mp (hsafe c hc)
  · intro hallowed c hc
    exact (hfits c hc).safe_iff.mpr (hallowed c hc)

section First
variable {size : Nat} {T : ResponseTable} {src : Source}

theorem call_mem_recvHeader (chunk : Bool) (fuel : Nat) (p : ClientParser) (mem : Buffer size)
    {offset : Nat} (hread : (src.read (size - offset)).1 ≠ []) :
    ⟨if chunk then p.init else p, mem, offset, (src.read (size - offset)).1⟩ ∈
      (recvHeader T chunk (fuel + 1) p mem offset src).1 := by
  simp only [recvHeader, if_neg hread]
  generalize (⟨if chunk then p.init else p, mem, offset, (src.read (size - offset)).1⟩ :
    ParserCall size) = c
  split
  · exact List.mem_singleton_self _
  · split
    · exact List.mem_singleton_self _
    · split
      · exact List.mem_singleton_self _
      · split
        · exact List.mem_singleton_self _
        · exact List.mem_cons_self

/-- The first bytes that arrive are given to the parser. -/
theorem first_call_mem (garbage : Buffer size) (hread : (src.read size).1 ≠ []) :
    ⟨{}, garbage, 0, (src.read size).1⟩ ∈ (recvResponse T garbage src).1 := by
  have hmem : ⟨{}, garbage, 0, (src.read size).1⟩ ∈
      (recvHeader T false (src.size + 1) {} garbage 0 src).1 :=
    call_mem_recvHeader false src.size {} garbage hread
  simp only [recvResponse]
  generalize recvHeader T false (src.size + 1) {} garbage 0 src = run at hmem ⊢
  obtain ⟨calls, e⟩ := run
  cases e with
  | error a => exact hmem
  | ok e =>
    cases e with
    | finished p mem len src =>
      simp only
      split
      · exact List.mem_append_left _ hmem
      · exact hmem
    | _ => exact hmem

end First

/-- One byte arrives in memory that is not zero. -/
theorem recvResponse_unterminated :
    ∃ c ∈ (recvResponse responseMachine ⟨List.replicate 4096 7, List.length_replicate⟩
      ⟨[[72]], []⟩).1, ¬c.Safe responseMachine := by
  refine ⟨⟨{}, ⟨List.replicate 4096 7, List.length_replicate⟩, 0, [72]⟩, ?_, ?_⟩
  · exact first_call_mem _ (List.cons_ne_nil _ _)
  · intro hsafe
    have hbyte := hsafe.terminated
    rw [ParserCall.Fits.behind ⟨List.cons_ne_nil _ _, by decide⟩, List.getElem?_replicate,
      if_pos (by decide)] at hbyte
    cases hbyte

end HxSylar.HttpBuffer
