import HxSylar.Proofs.HttpStream

namespace HxSylar
open Lib

/-- The parser that a reading loop leaves. -/
def HeaderEnd.parser {P : Type*} : HeaderEnd P → Option P
  | .finished p _ _ => some p
  | .null p _ => some p
  | .stuck => none

/-- The parser after the loop has read the pieces one by one. -/
def feed {P : Type*} (H : HeaderParser P) (bufferSize : Nat) (p : P) (pieces : List Text) :
    Option P :=
  (recvHeader H bufferSize (Source.size ⟨pieces, []⟩ + 1) p [] ⟨pieces, []⟩).parser

section Round
variable {P : Type*} {H : HeaderParser P} {bufferSize fuel : Nat} {p : P} {piece : Text}
  {pieces : List Text} {asked : List Nat}

theorem read_piece (hroom : piece.length ≤ bufferSize) :
    Source.read ⟨piece :: pieces, asked⟩ (bufferSize - ([] : Text).length) =
      (piece, ⟨pieces, bufferSize :: asked⟩) := by
  simp only [Source.read, List.length_nil, Nat.sub_zero, if_pos hroom]

/-- A piece in which the parser finds an error ends the loop. -/
theorem recvHeader_error (hpiece : piece ≠ []) (hroom : piece.length ≤ bufferSize)
    (herror : H.hasError (H.execute p piece).1 = true) :
    recvHeader H bufferSize (fuel + 1) p [] ⟨piece :: pieces, asked⟩ =
      .null (H.execute p piece).1 ⟨pieces, bufferSize :: asked⟩ := by
  rw [recvHeader_round (by rw [read_piece hroom]; exact hpiece), read_piece hroom]
  simp only [List.nil_append, herror, ↓reduceIte]

/-- A piece that is taken whole leaves the buffer empty, and the loop goes on or ends. -/
theorem recvHeader_piece (hpiece : piece ≠ []) (hroom : piece.length ≤ bufferSize)
    (herror : H.hasError (H.execute p piece).1 = false)
    (hwhole : (H.execute p piece).2 = piece.length) :
    recvHeader H bufferSize (fuel + 1) p [] ⟨piece :: pieces, asked⟩ =
      if H.isFinished (H.execute p piece).1 then
        .finished (H.execute p piece).1 [] ⟨pieces, bufferSize :: asked⟩
      else
        recvHeader H bufferSize fuel (H.execute p piece).1 [] ⟨pieces, bufferSize :: asked⟩ := by
  have hpos := List.length_pos_iff.mpr hpiece
  have hempty : ¬([] : Text).length = bufferSize := by
    rw [List.length_nil]
    omega
  rw [recvHeader_round (by rw [read_piece hroom]; exact hpiece), read_piece hroom]
  simp only [List.nil_append, herror, hwhole, List.drop_length, if_neg hempty, Bool.false_eq_true,
    ↓reduceIte]

theorem recvHeader_last (hpiece : piece ≠ []) (hroom : piece.length ≤ bufferSize)
    (herror : H.hasError (H.execute p piece).1 = false)
    (hwhole : (H.execute p piece).2 = piece.length)
    (hfinished : H.isFinished (H.execute p piece).1 = true) :
    recvHeader H bufferSize (fuel + 1) p [] ⟨piece :: pieces, asked⟩ =
      .finished (H.execute p piece).1 [] ⟨pieces, bufferSize :: asked⟩ := by
  rw [recvHeader_piece hpiece hroom herror hwhole, if_pos hfinished]

theorem recvHeader_next (hpiece : piece ≠ []) (hroom : piece.length ≤ bufferSize)
    (herror : H.hasError (H.execute p piece).1 = false)
    (hwhole : (H.execute p piece).2 = piece.length)
    (hfinished : H.isFinished (H.execute p piece).1 = false) :
    recvHeader H bufferSize (fuel + 1) p [] ⟨piece :: pieces, asked⟩ =
      recvHeader H bufferSize fuel (H.execute p piece).1 [] ⟨pieces, bufferSize :: asked⟩ := by
  rw [recvHeader_piece hpiece hroom herror hwhole, if_neg (by simp [hfinished])]

end Round

/-- Which of the offsets were set in the present buffer. -/
structure Fresh where
  mark : Bool := false
  fieldStart : Bool := false
  fieldLen : Bool := false
  deriving DecidableEq, Repr

/-- An element that goes into the response has to be read with offsets of the present buffer. -/
def ResponseAct.track (_pos : Nat) (a : ResponseAct) (f : Option Fresh) : Option Fresh :=
  f.bind fun f => match a with
    | .mark => some { f with mark := true }
    | .startField => some { f with fieldStart := true, fieldLen := false }
    | .writeField => if f.fieldStart then some { f with fieldLen := true } else none
    | .writeValue => if f.mark && f.fieldLen then some f else none
    | .reasonPhrase | .statusCode | .httpVersion => if f.mark then some f else none
    | .writeContentLen | .writeConnectionClose | .chunkSize | .transChunked | .done => some f

/-- No element goes over the end of a piece. -/
def Contained (T : ResponseTable) : Nat → List Text → Prop
  | _, [] => True
  | cs, piece :: pieces =>
    let r := T.run ResponseAct.stops ResponseAct.track cs 0 piece (some {})
    r.out ≠ none ∧ Contained T r.cs pieces

/-- What the generated machine has of its states (httpclient_parser.cc). State 17 is that of the
status code. -/
structure ResponseLaws (T : ResponseTable) : Prop where
  live : ∀ {cs b cs' as}, T cs b = some (cs', as) → cs' ≠ 0
  last : ∀ {cs b as}, T cs b = some (120, as) → as.any ResponseAct.stops = true
  digit : ∀ {cs b as}, T cs b = some (17, as) →
    isDigit b = true ∧ ((cs = 17 ∧ as = []) ∨ as = [.mark])
  status : ∀ {cs b cs' as}, T cs b = some (cs', as) → .statusCode ∈ as →
    cs = 17 ∧ b = 32 ∧ as = [.statusCode]

/-- A version that `on_response_version` takes. -/
def knownVersion (value : Text) : Bool :=
  value.agree (text "HTTP/1.1") value.length || value.agree (text "HTTP/1.0") value.length

/-- The marked offset, and whether all versions reported so far are known. -/
def ResponseAct.checkVersion (block : Text) (pos : Nat) (a : ResponseAct) (r : Nat × Bool) :
    Nat × Bool :=
  match a with
  | .mark => (pos, r.2)
  | .httpVersion => (r.1, r.2 && knownVersion (block.substr r.1 (pos - r.1)))
  | _ => r

/-- The header of a response: the machine takes it whole, and its version is a known one. -/
structure ResponseBlock (T : ResponseTable) (block : Text) : Prop where
  accepted : T.Accepts ResponseAct.stops 1 block 120
  known : (T.run ResponseAct.stops (ResponseAct.checkVersion block) 1 0 block (0, true)).out.2 =
    true

namespace HttpResponseParser

/-- The parser of the whole text and that of a piece which begins `off` bytes later. -/
structure Sync (off pos : Nat) (f : Fresh) (p q : HttpResponseParser) : Prop where
  data : p.data = q.data
  error : p.error = q.error
  mark : f.mark = true → p.mark = q.mark + off ∧ q.mark ≤ pos
  fieldStart : f.fieldStart = true → p.fieldStart = q.fieldStart + off ∧ q.fieldStart ≤ pos
  fieldLen : f.fieldLen = true →
    f.fieldStart = true ∧ p.fieldLen = q.fieldLen ∧ q.fieldStart + q.fieldLen ≤ pos

variable {off pos : Nat} {f f' : Fresh} {p q : HttpResponseParser} {pre piece post : Text}

theorem Sync.mono (h : Sync off pos f p q) : Sync off (pos + 1) f p q where
  data := h.data
  error := h.error
  mark hf := ⟨(h.mark hf).1, Nat.le_succ_of_le (h.mark hf).2⟩
  fieldStart hf := ⟨(h.fieldStart hf).1, Nat.le_succ_of_le (h.fieldStart hf).2⟩
  fieldLen hf := ⟨(h.fieldLen hf).1, (h.fieldLen hf).2.1, Nat.le_succ_of_le (h.fieldLen hf).2.2⟩

/-- The marked slices are the same. -/
theorem Sync.marked (h : Sync pre.length pos f p q) (hpos : pos < piece.length)
    (hf : f.mark = true) :
    (pre ++ piece ++ post).substr p.mark (pos + pre.length - p.mark) =
      piece.substr q.mark (pos - q.mark) := by
  obtain ⟨hmark, hle⟩ := h.mark hf
  rw [hmark, Nat.add_sub_add_right, Text.substr_piece (by omega)]

theorem Sync.field (h : Sync pre.length pos f p q) (hpos : pos < piece.length)
    (hf : f.fieldLen = true) :
    (pre ++ piece ++ post).substr p.fieldStart p.fieldLen =
      piece.substr q.fieldStart q.fieldLen := by
  obtain ⟨hstart, hlen, hle⟩ := h.fieldLen hf
  rw [(h.fieldStart hstart).1, hlen, Text.substr_piece (by omega)]

theorem Sync.onResponseHttpField (h : Sync off pos f p q) (field value : Text) :
    Sync off pos f (p.onResponseHttpField field value) (q.onResponseHttpField field value) := by
  simp only [HttpResponseParser.onResponseHttpField]
  split
  · exact h
  · exact ⟨by rw [h.data], h.error, h.mark, h.fieldStart, h.fieldLen⟩

theorem Sync.onResponseVersion (h : Sync off pos f p q) (value : Text) :
    Sync off pos f (p.onResponseVersion value) (q.onResponseVersion value) := by
  simp only [HttpResponseParser.onResponseVersion]
  split
  · exact ⟨by rw [h.data], h.error, h.mark, h.fieldStart, h.fieldLen⟩
  · split
    · exact ⟨by rw [h.data], h.error, h.mark, h.fieldStart, h.fieldLen⟩
    · exact ⟨h.data, rfl, h.mark, h.fieldStart, h.fieldLen⟩

/-- Every action but that of the status does the same to both. -/
theorem act_sync {a : ResponseAct} (ha : a ≠ .statusCode) (hpos : pos < piece.length)
    (htrack : a.track pos (some f) = some f') (h : Sync pre.length pos f p q) :
    Sync pre.length pos f' (act (pre ++ piece ++ post) (pos + pre.length) a p)
      (act piece pos a q) := by
  cases a with
  | mark =>
    cases htrack
    exact ⟨h.data, h.error, fun _ => ⟨rfl, Nat.le_refl _⟩, h.fieldStart, h.fieldLen⟩
  | startField =>
    cases htrack
    exact ⟨h.data, h.error, h.mark, fun _ => ⟨rfl, Nat.le_refl _⟩, fun hf => by cases hf⟩
  | writeField =>
    obtain ⟨hf, rfl⟩ : f.fieldStart = true ∧ { f with fieldLen := true } = f' := by
      simpa [ResponseAct.track] using htrack
    obtain ⟨hstart, hle⟩ := h.fieldStart hf
    refine ⟨h.data, h.error, h.mark, h.fieldStart, fun _ => ⟨hf, ?_, ?_⟩⟩
    · simp only [act]
      omega
    · simp only [act]
      omega
  | writeValue =>
    obtain ⟨⟨hmark, hlen⟩, rfl⟩ : (f.mark = true ∧ f.fieldLen = true) ∧ f = f' := by
      simpa [ResponseAct.track] using htrack
    simp only [act, h.marked hpos hmark, h.field hpos hlen]
    exact h.onResponseHttpField _ _
  | reasonPhrase =>
    obtain ⟨hmark, rfl⟩ : f.mark = true ∧ f = f' := by simpa [ResponseAct.track] using htrack
    simp only [act, h.marked hpos hmark]
    exact ⟨by rw [onResponseReason, onResponseReason, h.data], h.error, h.mark, h.fieldStart,
      h.fieldLen⟩
  | statusCode => exact absurd rfl ha
  | httpVersion =>
    obtain ⟨hmark, rfl⟩ : f.mark = true ∧ f = f' := by simpa [ResponseAct.track] using htrack
    simp only [act, h.marked hpos hmark]
    exact h.onResponseVersion _
  | chunkSize =>
    cases htrack
    simp only [act, onResponseLastChunk, onResponseChunk, ite_self]
    exact ⟨h.data, h.error, h.mark, h.fieldStart, h.fieldLen⟩
  | writeContentLen =>
    cases htrack
    exact ⟨h.data, h.error, h.mark, h.fieldStart, h.fieldLen⟩
  | writeConnectionClose =>
    cases htrack
    exact ⟨h.data, h.error, h.mark, h.fieldStart, h.fieldLen⟩
  | transChunked =>
    cases htrack
    exact ⟨h.data, h.error, h.mark, h.fieldStart, h.fieldLen⟩
  | done =>
    cases htrack
    exact h

/-- The status is read as far as the space behind it. -/
theorem act_status_sync (hspace : piece[pos]? = some 32) (hmark : f.mark = true)
    (hstart : q.mark < pos) (hdigits : (piece.substr q.mark (pos - q.mark)).all isDigit = true)
    (h : Sync pre.length pos f p q) :
    Sync pre.length pos f (act (pre ++ piece ++ post) (pos + pre.length) .statusCode p)
      (act piece pos .statusCode q) := by
  obtain ⟨hoff, hle⟩ := h.mark hmark
  obtain ⟨hpos, hbyte⟩ := List.getElem?_eq_some_iff.mp hspace
  have hpiece : piece.drop q.mark =
      piece.substr q.mark (pos - q.mark) ++ 32 :: piece.drop (pos + 1) := by
    rw [← hbyte, List.getElem_cons_drop, Text.substr]
    conv_lhs => rw [← List.take_append_drop (pos - q.mark) (piece.drop q.mark)]
    rw [List.drop_drop, Nat.add_sub_cancel' hle]
  have hne : piece.substr q.mark (pos - q.mark) ≠ [] := by
    rw [ne_eq, ← List.length_eq_zero_iff, Text.substr, List.length_take, List.length_drop]
    omega
  have hwhole : (pre ++ piece ++ post).drop p.mark = piece.drop q.mark ++ post := by
    rw [hoff, List.append_assoc, Nat.add_comm, ← List.drop_drop, List.drop_left,
      List.drop_append_of_le_length (by omega)]
  have hstatus : Text.atoi ((pre ++ piece ++ post).drop p.mark) = Text.atoi (piece.drop q.mark) := by
    have hstop : ¬Lib.digitValue 32 < 10 := by decide
    rw [hwhole, hpiece, List.append_assoc, List.cons_append, Text.atoi_digits hne hdigits hstop,
      Text.atoi_digits hne hdigits hstop]
  refine ⟨?_, h.error, h.mark, h.fieldStart, h.fieldLen⟩
  simp only [act, onResponseStatus, hstatus, h.data]

theorem track_none (pos : Nat) (as : List ResponseAct) :
    Table.apply ResponseAct.track pos as none = none := by
  induction as with
  | nil => rfl
  | cons a as ih => exact ih

/-- The actions of one byte. -/
theorem apply_sync {as : List ResponseAct} (hstatus : .statusCode ∉ as) (hpos : pos < piece.length)
    (htrack : Table.apply ResponseAct.track pos as (some f) = some f')
    (h : Sync pre.length pos f p q) :
    Sync pre.length pos f' (Table.apply (act (pre ++ piece ++ post)) (pos + pre.length) as p)
      (Table.apply (act piece) pos as q) := by
  induction as generalizing f p q with
  | nil =>
    cases htrack
    exact h
  | cons a as ih =>
    rw [List.mem_cons, not_or] at hstatus
    change Table.apply ResponseAct.track pos as (a.track pos (some f)) = some f' at htrack
    cases ha : a.track pos (some f) with
    | none =>
      rw [ha, track_none] at htrack
      cases htrack
    | some f₁ =>
      rw [ha] at htrack
      exact ih hstatus.2 htrack (act_sync (Ne.symm hstatus.1) hpos ha h)

/-- What holds of the parser of the whole and of that of a piece at every byte. -/
def InSync (off : Nat) (piece : Text) (cs pos : Nat) (f : Option Fresh) (p q : HttpResponseParser) :
    Prop :=
  ∀ g, f = some g → Sync off pos g p q ∧
    (cs = 17 → g.mark = true →
      q.mark < pos ∧ (piece.substr q.mark (pos - q.mark)).all isDigit = true)

theorem step_sync {T : ResponseTable} (hT : ResponseLaws T) {cs cs' : Nat} {b : UInt8}
    {as : List ResponseAct} {f : Option Fresh} (hb : piece[pos]? = some b)
    (hstep : T cs b = some (cs', as)) (h : InSync pre.length piece cs pos f p q) :
    InSync pre.length piece cs' (pos + 1) (Table.apply ResponseAct.track pos as f)
      (Table.apply (act (pre ++ piece ++ post)) (pos + pre.length) as p)
      (Table.apply (act piece) pos as q) := by
  intro g' hg'
  cases f with
  | none =>
    rw [track_none] at hg'
    cases hg'
  | some g =>
    obtain ⟨hsync, hdigits⟩ := h g rfl
    obtain ⟨hpos, _⟩ := List.getElem?_eq_some_iff.mp hb
    by_cases hstatus : .statusCode ∈ as
    · obtain ⟨rfl, rfl, rfl⟩ := hT.status hstep hstatus
      obtain ⟨hmark, rfl⟩ : g.mark = true ∧ g = g' := by
        simpa [Table.apply, ResponseAct.track] using hg'
      obtain ⟨hlt, hall⟩ := hdigits rfl hmark
      refine ⟨(act_status_sync hb hmark hlt hall hsync).mono, ?_⟩
      rintro rfl
      exact absurd (hT.digit hstep).1 (by decide)
    · refine ⟨(apply_sync hstatus hpos hg' hsync).mono, ?_⟩
      rintro rfl hmark
      obtain ⟨hdigit, ⟨rfl, rfl⟩ | rfl⟩ := hT.digit hstep
      · cases hg'
        obtain ⟨hlt, hall⟩ := hdigits rfl hmark
        refine ⟨Nat.lt_succ_of_lt hlt, ?_⟩
        rw [Table.apply, List.foldl_nil, Text.substr_succ (Nat.le_of_lt hlt) hb, List.all_append, hall]
        simp [hdigit]
      · refine ⟨Nat.lt_succ_self pos, ?_⟩
        have hone : piece.substr pos (pos + 1 - pos) = [b] := by
          rw [Text.substr_succ (Nat.le_refl _) hb]
          simp [Text.substr]
        rw [show (Table.apply (act piece) pos [.mark] q).mark = pos from rfl, hone]
        simp [hdigit]

/-- Over a piece in which every element is contained, the parser of the whole and that of the piece
record the same. -/
theorem run_sync {T : ResponseTable} (hT : ResponseLaws T) {cs : Nat}
    (hcontained : (T.run ResponseAct.stops ResponseAct.track cs 0 piece (some {})).out ≠ none)
    (hdata : p.data = q.data) (herror : p.error = q.error) :
    let p' := (T.run ResponseAct.stops (act (pre ++ piece ++ post)) cs pre.length piece p).out
    let q' := (T.run ResponseAct.stops (act piece) cs 0 piece q).out
    p'.data = q'.data ∧ p'.error = q'.error := by
  have hstart : InSync pre.length piece cs 0 (some {}) p q := by
    rintro g ⟨⟩
    refine ⟨⟨hdata, herror, ?_, ?_, ?_⟩, ?_⟩
    all_goals simp
  obtain ⟨c, n, hend⟩ : ∃ c n, InSync pre.length piece c n
      (T.run ResponseAct.stops ResponseAct.track cs 0 piece (some {})).out
      (T.run ResponseAct.stops (act (pre ++ piece ++ post)) cs (0 + pre.length) piece p).out
      (T.run ResponseAct.stops (act piece) cs 0 piece q).out :=
    Table.run_related (fun _ _ _ _ _ _ _ _ hb hstep h => step_sync hT hb hstep h) piece rfl hstart
  obtain ⟨g, hg⟩ := Option.ne_none_iff_exists'.mp hcontained
  rw [Nat.zero_add] at hend
  exact ⟨(hend g hg).1.data, (hend g hg).1.error⟩

/-- An error stays. -/
theorem act_error {buffer : Text} {a : ResponseAct} (h : p.error ≠ 0) :
    (act buffer pos a p).error ≠ 0 := by
  cases a with
  | writeValue =>
    simp only [act, onResponseHttpField]
    split <;> exact h
  | httpVersion =>
    simp only [act, onResponseVersion]
    split
    · exact h
    · split
      · exact h
      · simp
  | chunkSize =>
    simp only [act, onResponseLastChunk, onResponseChunk, ite_self]
    exact h
  | _ => exact h

/-- The parser that has read the beginning of the whole text. -/
def readTo (T : ResponseTable) (block pre : Text) : HttpResponseParser :=
  (T.run ResponseAct.stops (act block) 1 0 pre {}).out

variable {T : ResponseTable} {cs : Nat}

theorem readTo_append {block : Text} (hpre : T.after ResponseAct.stops 1 pre = some cs) (xs : Text) :
    readTo T block (pre ++ xs) =
      (T.run ResponseAct.stops (act block) cs pre.length xs (readTo T block pre)).out := by
  rw [readTo, readTo, Table.run_append xs hpre, Nat.zero_add]

theorem readTo_error {block : Text} (hpre : T.after ResponseAct.stops 1 pre = some cs) (xs : Text)
    (h : (readTo T block (pre ++ xs)).error = 0) : (readTo T block pre).error = 0 := by
  by_contra hne
  rw [readTo_append hpre] at h
  exact Table.run_keeps (P := fun r : HttpResponseParser => r.error ≠ 0)
    (fun _ _ _ hr => act_error hr) hne h

/-- Only an unknown version is an error. -/
theorem act_known {block : Text} {a : ResponseAct} {r : Nat × Bool}
    (h : p.mark = r.1 ∧ (r.2 = true → p.error = 0)) :
    (act block pos a p).mark = (a.checkVersion block pos r).1 ∧
      ((a.checkVersion block pos r).2 = true → (act block pos a p).error = 0) := by
  obtain ⟨hmark, herror⟩ := h
  cases a with
  | mark => exact ⟨rfl, herror⟩
  | writeValue =>
    simp only [act, onResponseHttpField]
    split <;> exact ⟨hmark, herror⟩
  | chunkSize =>
    simp only [act, onResponseLastChunk, onResponseChunk, ite_self]
    exact ⟨hmark, herror⟩
  | httpVersion =>
    simp only [act, onResponseVersion, ResponseAct.checkVersion, knownVersion, ← hmark]
    split
    · exact ⟨rfl, fun hok => herror (by simp_all)⟩
    · split
      · exact ⟨rfl, fun hok => herror (by simp_all)⟩
      · exact ⟨rfl, fun hok => by simp_all⟩
  | _ => exact ⟨hmark, herror⟩

theorem readTo_known {block : Text} (h : ResponseBlock T block) :
    (readTo T block block).error = 0 := by
  let R (r : Nat × Bool) (p : HttpResponseParser) : Prop :=
    p.mark = r.1 ∧ (r.2 = true → p.error = 0)
  have hstep : ∀ pos a r p, R r p → R (a.checkVersion block pos r) (act block pos a p) :=
    fun _ _ _ _ h => act_known h
  have hend : R (T.run ResponseAct.stops (ResponseAct.checkVersion block) 1 0 block (0, true)).out
      (readTo T block block) :=
    Table.run_paired (R := R) hstep block ⟨rfl, fun _ => rfl⟩
  exact hend.2 h.known

/-- `execute` on a piece does what reading on in the whole would do. -/
theorem execute_sync (hT : ResponseLaws T) (post : Text)
    (hpre : T.after ResponseAct.stops 1 pre = some q.cs)
    (hcontained : (T.run ResponseAct.stops ResponseAct.track q.cs 0 piece (some {})).out ≠ none)
    (hdata : (readTo T (pre ++ piece ++ post) pre).data = q.data)
    (herror : (readTo T (pre ++ piece ++ post) pre).error = q.error) :
    (readTo T (pre ++ piece ++ post) (pre ++ piece)).data = (execute T q piece false).1.data ∧
      (readTo T (pre ++ piece ++ post) (pre ++ piece)).error =
        (execute T q piece false).1.error := by
  rw [readTo_append hpre]
  exact run_sync hT hcontained hdata herror

/-- Behind a part of the header the machine is neither in error nor finished. -/
theorem after_open (hT : ResponseLaws T) {xs : Text} (hxs : xs ≠ []) {c : Nat}
    (h : T.after ResponseAct.stops cs xs = some c) : c ≠ 0 ∧ c ≠ 120 := by
  obtain ⟨cs', b, as, hstep, hstop⟩ := Table.after_last hxs h
  refine ⟨hT.live hstep, ?_⟩
  rintro rfl
  rw [hT.last hstep] at hstop
  cases hstop

theorem execute_after {x : Text} {c : Nat} (h : T.after ResponseAct.stops q.cs x = some c) :
    (execute T q x false).1.cs = c ∧ (execute T q x false).2 = x.length := by
  have hrun := Table.run_of_after (act x) 0 { q with mark := 0, fieldLen := 0, fieldStart := 0 } h
  exact ⟨congrArg Scan.cs hrun, (congrArg Scan.n hrun).trans (Nat.zero_add _)⟩

theorem execute_accepts {x : Text} {final : Nat} (h : T.Accepts ResponseAct.stops q.cs x final) :
    (execute T q x false).1.cs = final ∧ (execute T q x false).2 = x.length := by
  have hrun := Table.run_of_accepts (act x) []
    { q with mark := 0, fieldLen := 0, fieldStart := 0 } h
  rw [List.append_nil] at hrun
  exact ⟨congrArg Scan.cs hrun, congrArg Scan.n hrun⟩

/-- Feeding the pieces of a header in which every element is contained in one piece. -/
theorem recvHeader_contained (hT : ResponseLaws T) {bufferSize : Nat} {block : Text}
    (hroom : block.length < bufferSize) (hgood : (readTo T block block).error = 0)
    {pieces : List Text} (hpieces : ∀ x ∈ pieces, x ≠ []) {fuel : Nat} {asked : List Nat}
    (hfuel : Source.size ⟨pieces, asked⟩ < fuel) (hblock : block = pre ++ pieces.flatten)
    (hpre : T.after ResponseAct.stops 1 pre = some q.cs)
    (hdata : (readTo T block pre).data = q.data) (herror : (readTo T block pre).error = q.error)
    (haccepts : T.Accepts ResponseAct.stops q.cs pieces.flatten 120)
    (hcontained : Contained T q.cs pieces) :
    ∃ p' src', recvHeader (header T false) bufferSize fuel q [] ⟨pieces, asked⟩ =
        .finished p' [] src' ∧
      p'.cs = 120 ∧ p'.data = (readTo T block block).data ∧ p'.error = 0 := by
  induction pieces generalizing pre q fuel asked with
  | nil =>
    obtain ⟨front, last, _, _, happ, _⟩ := haccepts
    simp at happ
  | cons x xs ih =>
    obtain ⟨fuel, rfl⟩ : ∃ n, fuel = n + 1 := Nat.exists_eq_succ_of_ne_zero (by omega)
    obtain ⟨hx, hxs⟩ := List.forall_mem_cons.mp hpieces
    obtain ⟨hfirst, hrest⟩ := hcontained
    have hxroom : x.length ≤ bufferSize := by
      have hlen := congrArg List.length hblock
      simp at hlen
      omega
    rw [List.flatten_cons, ← List.append_assoc] at hblock
    obtain ⟨hdata', herror'⟩ := execute_sync hT xs.flatten hpre hfirst
      (by rw [← hblock]; exact hdata) (by rw [← hblock]; exact herror)
    rw [← hblock] at hdata' herror'
    by_cases hend : xs = []
    · subst hend
      rw [List.flatten_cons, List.flatten_nil, List.append_nil] at haccepts
      rw [List.flatten_nil, List.append_nil] at hblock
      rw [← hblock] at hdata' herror'
      obtain ⟨hcs, hn⟩ := execute_accepts haccepts
      have hok : (execute T q x false).1.hasError = false := by
        simp [hasError, hcs, ← herror', hgood]
      have hfinished : (execute T q x false).1.isFinished = true := by
        simp [isFinished, hcs]
      exact ⟨_, _, recvHeader_last hx hxroom hok hn hfinished, hcs, hdata'.symm,
        herror'.symm.trans hgood⟩
    · obtain ⟨y, ys, rfl⟩ := List.exists_cons_of_ne_nil hend
      have hmore : (y :: ys).flatten ≠ [] := by
        simp [(List.forall_mem_cons.mp hxs).1]
      obtain ⟨c, hafter, hlast⟩ := haccepts.split hmore
      obtain ⟨hcs, hn⟩ := execute_after hafter
      obtain ⟨hlive, hopen⟩ := after_open hT hx hafter
      have hpre' : T.after ResponseAct.stops 1 (pre ++ x) = some c := by
        rw [Table.after_append, hpre]
        exact hafter
      have hzero : (execute T q x false).1.error = 0 := by
        rw [← herror']
        refine readTo_error hpre' (y :: ys).flatten ?_
        rw [← hblock]
        exact hgood
      have hok : (execute T q x false).1.hasError = false := by
        simp [hasError, hcs, hlive, hzero]
      have hunfinished : (execute T q x false).1.isFinished = false := by
        simp [isFinished, hcs, hopen]
      rw [Table.run_of_after _ _ _ hafter] at hrest
      rw [recvHeader_next (H := header T false) hx hxroom hok hn hunfinished]
      refine ih hxs ?_ hblock (by rw [hpre', ← hcs]; rfl) hdata' herror' ?_ ?_
      · have hpos := List.length_pos_iff.mpr hx
        simp only [Source.size, List.map_cons, List.sum_cons] at hfuel ⊢
        omega
      · exact hcs ▸ hlast
      · exact hcs ▸ hrest

/-- The loop leaves the same response and the same finished state as one call on the whole. -/
def FedAsWhole (T : ResponseTable) (bufferSize : Nat) (pieces : List Text) : Prop :=
  ∃ p, feed (header T false) bufferSize {} pieces = some p ∧
    p.data = (execute T {} pieces.flatten false).1.data ∧
    p.isFinished = (execute T {} pieces.flatten false).1.isFinished

/-- Feeding a response in pieces is feeding it whole if no element goes over the end of a piece. -/
theorem fedAsWhole_of_contained (hT : ResponseLaws T) {bufferSize : Nat} {pieces : List Text}
    (hblock : ResponseBlock T pieces.flatten) (hpieces : ∀ x ∈ pieces, x ≠ [])
    (hroom : pieces.flatten.length < bufferSize) (hcontained : Contained T 1 pieces) :
    FedAsWhole T bufferSize pieces := by
  have hfuel : Source.size ⟨pieces, []⟩ < Source.size ⟨pieces, []⟩ + 1 := Nat.lt_succ_self _
  obtain ⟨p, src, hfeed, hcs, hdata, _⟩ := recvHeader_contained (q := {}) hT hroom
    (readTo_known hblock)
    hpieces hfuel (List.nil_append _).symm rfl rfl rfl hblock.accepted hcontained
  refine ⟨p, ?_, hdata, ?_⟩
  · rw [feed, hfeed]
    rfl
  · have hwhole := (execute_accepts (q := {}) hblock.accepted).1
    rw [isFinished, isFinished, hcs, hwhole]

end HttpResponseParser
end HxSylar
