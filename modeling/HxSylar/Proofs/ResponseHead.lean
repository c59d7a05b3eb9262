import HxSylar.HttpDump
import HxSylar.Proofs.ResponseMachine

namespace HxSylar
open Lib ResponseMachine

/-- A line of a header. An empty value is left to the names that the machine does not know, since
behind the others it reads on over the end of the line. -/
structure HeaderField where
  name : Text
  blanks : Text
  value : Text
  name_ne : name ≠ []
  name_token : ∀ b ∈ name, isToken b = true
  blanks_blank : ∀ b ∈ blanks, isLineSpace b = true
  value_inLine : ∀ b ∈ value, inLine b = true
  value_head : ∀ b ∈ value.head?, isLineSpace b = false
  value_ne : value = [] → colonState (name.map toLower) = 22

/-- What a parser keeps of a header. -/
structure Gathered where
  contentLen : Int := -1
  chunked : Bool := false
  closes : Bool := false
  data : HttpResponse := {}
  error : Int := 0
  deriving DecidableEq, Repr

namespace HeaderField

def text (f : HeaderField) : Text := f.name ++ 58 :: (f.blanks ++ (f.value ++ [13, 10]))

/-- What a line adds. -/
def gather (f : HeaderField) (g : Gathered) : Gathered :=
  { g with
    contentLen := if saysLength f.name f.value then
        Text.toInt32 (min (Text.number 10 0 f.value : Int) 9223372036854775807)
      else g.contentLen
    chunked := g.chunked || saysChunked f.name f.value
    closes := g.closes || saysClose f.name f.value
    data := g.data.setHeader f.name f.value }

end HeaderField

/-- What a parser has gathered at the start of a line. -/
def HttpResponseParser.gathered (p : HttpResponseParser) (pending : Bool) : Gathered where
  contentLen := p.contentLen
  chunked := p.chunked
  closes := p.closes || pending
  data := p.data
  error := p.error

section Line
/-- The value of a line, if there is one, and its carriage return. -/
theorem value_cr_passes (buffer : Text) (f : HeaderField) (pos : Nat) (p : HttpResponseParser) :
    Table.Passes responseMachine ResponseAct.stops (HttpResponseParser.act buffer)
      (colonState (f.name.map toLower)) pos (f.value ++ [13]) p (crState f.name f.value)
      (Table.apply (HttpResponseParser.act buffer) (pos + f.value.length) (crActs f.name f.value)
        { p with mark := pos }) := by
  cases hvalue : f.value with
  | nil =>
    have hcolon := f.value_ne hvalue
    have hclose : saysClose f.name [] = false := by
      rw [saysClose]
      exact Bool.and_false _
    have hchunked : saysChunked f.name [] = false := by
      rw [saysChunked]
      exact Bool.and_false _
    have hlength : saysLength f.name [] = false := by
      rw [saysLength, beq_false_of_ne, Bool.false_and]
      intro hname
      rw [hname] at hcolon
      revert hcolon
      decide +kernel
    rw [hcolon, crState, crActs, hclose, hchunked, hlength]
    have hcr : responseMachine 22 13 = some (24, [.mark, .writeValue]) := by decide +kernel
    exact Table.Passes.one hcr rfl
  | cons b rest =>
    have hhead := f.value_head b (by rw [hvalue]; rfl)
    obtain ⟨c, hpass, hcr⟩ := value_passes (s := p) hvalue hhead f.value_inLine
    rw [hvalue] at hpass hcr
    exact Table.Passes.append hpass (Table.Passes.one hcr (crActs_stops _ _))

/-- What the actions at the end of a line add to what was gathered before. -/
theorem gathered_value (f : HeaderField) {buffer post : Text} {pos : Nat} {p : HttpResponseParser}
    (hname : buffer.substr p.fieldStart p.fieldLen = f.name)
    (hrest : buffer.drop p.mark = f.value ++ 13 :: post) (hpos : pos = p.mark + f.value.length) :
    (Table.apply (HttpResponseParser.act buffer) (pos + 1) (lfActs f.name f.value)
      (Table.apply (HttpResponseParser.act buffer) pos (crActs f.name f.value) p)).gathered
        (saysClose f.name f.value) = f.gather (p.gathered false) := by
  have hvalue : buffer.substr p.mark (pos - p.mark) = f.value := by
    rw [hpos, Nat.add_sub_cancel_left, Text.substr, hrest, List.take_left]
  have hfield : ∀ q : HttpResponseParser, q.onResponseHttpField f.name f.value =
      { q with data := q.data.setHeader f.name f.value } :=
    fun q => if_neg (fun hlen => f.name_ne (List.length_eq_zero_iff.mp hlen))
  have hlen : saysLength f.name f.value = true →
      Text.toInt32 (Text.strtol 10 (buffer.drop p.mark)) =
        Text.toInt32 (min (Text.number 10 0 f.value : Int) 9223372036854775807) := by
    intro hclaim
    rw [saysLength, Bool.and_eq_true, beq_iff_eq] at hclaim
    have hne : f.value ≠ [] := by
      intro hnil
      have hcolon := f.value_ne hnil
      rw [hclaim.1] at hcolon
      revert hcolon
      decide +kernel
    rw [hrest]
    exact Text.atoi_digits hne hclaim.2 (by decide) post
  rw [lfActs, crActs, HeaderField.gather]
  cases hclaim : saysLength f.name f.value with
  | false =>
    cases saysChunked f.name f.value <;>
      simp [Table.apply, HttpResponseParser.act, HttpResponseParser.gathered, hname, hvalue, hfield]
  | true =>
    cases saysChunked f.name f.value <;>
      simp [Table.apply, HttpResponseParser.act, HttpResponseParser.gathered, hname, hvalue, hfield,
        hlen hclaim]

/-- The front of a line remembers where the name stands. -/
theorem front_passes (buffer : Text) (f : HeaderField) (pos : Nat) (pending : Bool)
    (p : HttpResponseParser) :
    ∃ p', Table.Passes responseMachine ResponseAct.stops (HttpResponseParser.act buffer)
        (lineState pending) pos (f.name ++ 58 :: f.blanks) p (colonState (f.name.map toLower)) p' ∧
      p'.fieldStart = pos ∧ p'.fieldLen = f.name.length ∧
      p'.gathered false = p.gathered pending := by
  obtain ⟨c, hc, hname⟩ := name_passes (s := p) f.name_ne f.name_token pending
  obtain ⟨mark, hblanks⟩ := blanks_pass (colonState_mem (f.name.map toLower)) f.blanks_blank _
  refine ⟨_, Table.Passes.append hname (Table.Passes.cons (colon_step hc) rfl hblanks), ?_⟩
  cases pending <;>
    simp [pendingActs, Table.apply, HttpResponseParser.act, HttpResponseParser.gathered]

theorem length_cr (first : Nat) (value : Text) :
    first + (value ++ [13]).length = first + value.length + 1 := by
  rw [List.length_append, List.length_singleton, Nat.add_assoc]

/-- The machine takes a line and gathers what it says. -/
theorem HeaderField.passes (f : HeaderField) (pre post : Text) (pending : Bool)
    (p : HttpResponseParser) :
    ∃ p', Table.Passes responseMachine ResponseAct.stops
        (HttpResponseParser.act (pre ++ (f.text ++ post))) (lineState pending) pre.length f.text p
        (lineState (saysClose f.name f.value)) p' ∧
      p'.gathered (saysClose f.name f.value) = f.gather (p.gathered pending) := by
  have hbuffer : pre ++ (f.text ++ post) =
      (pre ++ (f.name ++ 58 :: f.blanks)) ++ (f.value ++ 13 :: (10 :: post)) := by
    simp [HeaderField.text]
  have htext : f.text = (f.name ++ 58 :: f.blanks) ++ ((f.value ++ [13]) ++ [10]) := by
    simp [HeaderField.text]
  set buffer := pre ++ (f.text ++ post)
  obtain ⟨p', hfront, hstart, hlen, hgathered⟩ := front_passes buffer f pre.length pending p
  have hvalue := value_cr_passes buffer f (pre.length + (f.name ++ 58 :: f.blanks).length) p'
  rw [htext]
  refine ⟨_, Table.Passes.append hfront (Table.Passes.append hvalue
    (Table.Passes.one (line_feed f.name f.value) (lfActs_stops f.name f.value))), ?_⟩
  rw [length_cr, gathered_value f]
  · exact congrArg f.gather hgathered
  · rw [hstart, hlen, Text.substr, hbuffer]
    simp
  · simp only [hbuffer, ← List.length_append]
    rw [List.drop_left]
  · rfl

/-- And line by line all of them. -/
theorem fields_pass (fields : List HeaderField) (pre post : Text) (pending : Bool)
    (p : HttpResponseParser) :
    ∃ pending' p', Table.Passes responseMachine ResponseAct.stops
        (HttpResponseParser.act (pre ++ (fields.flatMap HeaderField.text ++ post)))
        (lineState pending) pre.length (fields.flatMap HeaderField.text) p (lineState pending') p' ∧
      p'.gathered pending' = fields.foldl (fun g f => f.gather g) (p.gathered pending) := by
  induction fields generalizing pre pending p with
  | nil => exact ⟨pending, p, Table.Passes.nil, rfl⟩
  | cons f fields ih =>
    obtain ⟨p₁, hpass₁, hgathered₁⟩ :=
      f.passes pre (fields.flatMap HeaderField.text ++ post) pending p
    obtain ⟨pending', p₂, hpass₂, hgathered₂⟩ :=
      ih (pre ++ f.text) (saysClose f.name f.value) p₁
    refine ⟨pending', p₂, ?_, ?_⟩
    · rw [List.append_assoc, List.length_append] at hpass₂
      rw [List.flatMap_cons, List.append_assoc]
      exact Table.Passes.append hpass₁ hpass₂
    · rw [hgathered₂, hgathered₁, List.foldl_cons]

end Line

/-- The header of a response as other programs and `dump` write it. -/
structure ResponseHead where
  version : UInt8
  status : Nat
  reason : Text
  fields : List HeaderField
  version_known : version = 0x10 ∨ version = 0x11
  status_le : status ≤ 2147483647
  reason_ne : reason ≠ []
  reason_inLine : ∀ b ∈ reason, inLine b = true

namespace ResponseHead

def startLine (h : ResponseHead) : Text :=
  versionText h.version ++ 32 :: (Text.ofNat h.status ++ 32 :: (h.reason ++ [13, 10]))

def text (h : ResponseHead) : Text :=
  h.startLine ++ (h.fields.flatMap HeaderField.text ++ [13, 10])

/-- What the start line says. -/
def started (h : ResponseHead) : HttpResponse :=
  { status := h.status, version := h.version, reason := h.reason }

/-- What the whole header says. -/
def gathered (h : ResponseHead) : Gathered :=
  h.fields.foldl (fun g f => f.gather g) { data := h.started }

end ResponseHead

section StartLine
variable {buffer : Text} {pos : Nat} {p : HttpResponseParser}

/-- The version is written in eight bytes, which are what is reported of it. -/
theorem versionText_bytes {version : UInt8} (hversion : version = 0x10 ∨ version = 0x11) :
    versionText version = [72, 84, 84, 80, 47, 49, 46, if version = 0x11 then 49 else 48] := by
  rcases hversion with rfl | rfl <;> decide +kernel

theorem version_passes {version : UInt8} (hversion : version = 0x10 ∨ version = 0x11)
    {buffer post : Text} (hbuffer : buffer = versionText version ++ post) (p : HttpResponseParser) :
    Table.Passes responseMachine ResponseAct.stops (HttpResponseParser.act buffer) 1 0
      (versionText version ++ [32]) p 16
      { p with mark := 0, data := { p.data with version := version } } := by
  rw [hbuffer, versionText_bytes hversion]
  rcases hversion with rfl | rfl
  · have hafter : responseMachine.after ResponseAct.stops 1 [72, 84, 84, 80, 47, 49, 46, 48, 32] =
        some 16 := by decide +kernel
    exact Table.Passes.of_after hafter
  · have hafter : responseMachine.after ResponseAct.stops 1 [72, 84, 84, 80, 47, 49, 46, 49, 32] =
        some 16 := by decide +kernel
    exact Table.Passes.of_after hafter

theorem digit_steps {b : UInt8} (hb : isDigit b = true) :
    responseMachine 16 b = some (17, [.mark]) ∧ responseMachine 17 b = some (17, []) := by
  revert hb
  apply forall_byte (p := fun b => isDigit b = true →
    responseMachine 16 b = some (17, [.mark]) ∧ responseMachine 17 b = some (17, []))
  decide +kernel

theorem reason_steps {b : UInt8} (hb : inLine b = true) :
    responseMachine 18 b = some (19, [.mark]) ∧ responseMachine 19 b = some (19, []) := by
  revert hb
  apply forall_byte (p := fun b => inLine b = true →
    responseMachine 18 b = some (19, [.mark]) ∧ responseMachine 19 b = some (19, []))
  decide +kernel

theorem status_passes {status : Nat} (hstatus : status ≤ 2147483647) {buffer post : Text} {pos : Nat}
    (hbuffer : buffer.drop pos = Text.ofNat status ++ 32 :: post) (p : HttpResponseParser) :
    Table.Passes responseMachine ResponseAct.stops (HttpResponseParser.act buffer) 16 pos
      (Text.ofNat status ++ [32]) p 18
      { p with mark := pos, data := { p.data with status := status } } := by
  have hdigits := List.all_eq_true.mp (Text.ofNat_all_isDigit status)
  have hatoi : Text.atoi (buffer.drop pos) = status := by
    rw [hbuffer, Text.atoi_ofNat hstatus (by decide)]
  obtain ⟨d, ds, hd⟩ := List.exists_cons_of_ne_nil (Text.ofNat_ne_nil status)
  rw [hd] at hdigits ⊢
  have hspace : responseMachine 17 32 = some (18, [.statusCode]) := by decide +kernel
  rw [← hatoi]
  exact Table.Passes.cons (digit_steps (hdigits d List.mem_cons_self)).1 rfl
    (Table.Passes.append
      (Table.Passes.loop (fun b hb => (digit_steps hb).2)
        (fun b hb => hdigits b (List.mem_cons_of_mem _ hb)))
      (Table.Passes.one hspace rfl))

theorem reason_passes {reason : Text} (hne : reason ≠ []) (hline : ∀ b ∈ reason, inLine b = true)
    {buffer post : Text} {pos : Nat} (hbuffer : buffer.drop pos = reason ++ post)
    (p : HttpResponseParser) :
    Table.Passes responseMachine ResponseAct.stops (HttpResponseParser.act buffer) 18 pos
      (reason ++ [13, 10]) p 20 { p with mark := pos, data := { p.data with reason := reason } } := by
  obtain ⟨b, rest, rfl⟩ := List.exists_cons_of_ne_nil hne
  have hcr : responseMachine 19 13 = some (24, [.reasonPhrase]) := by decide +kernel
  have hlf : responseMachine 24 10 = some (20, []) := by decide +kernel
  have hmarked : buffer.substr pos (pos + 1 + rest.length - pos) = b :: rest := by
    rw [Nat.add_assoc, Nat.add_sub_cancel_left, Text.substr, hbuffer, Nat.add_comm,
      ← List.length_cons (a := b), List.take_left]
  have hpass : Table.Passes responseMachine ResponseAct.stops (HttpResponseParser.act buffer) 18 pos
      (b :: rest ++ [13, 10]) p 20 { p with
        mark := pos
        data := { p.data with reason := buffer.substr pos (pos + 1 + rest.length - pos) } } :=
    Table.Passes.cons (reason_steps (hline b List.mem_cons_self)).1 rfl
      (Table.Passes.append
        (Table.Passes.loop (fun b hb => (reason_steps hb).2)
          (fun b hb => hline b (List.mem_cons_of_mem _ hb)))
        (Table.Passes.cons hcr rfl (Table.Passes.one hlf rfl)))
  rwa [hmarked] at hpass

theorem startLine_passes (h : ResponseHead) {buffer post : Text}
    (hbuffer : buffer = h.startLine ++ post) (p : HttpResponseParser) :
    ∃ mark, Table.Passes responseMachine ResponseAct.stops (HttpResponseParser.act buffer) 1 0
      h.startLine p 20
      { p with
        mark := mark
        data := { p.data with status := h.status, version := h.version, reason := h.reason } } := by
  have hline : h.startLine = (versionText h.version ++ [32]) ++
      ((Text.ofNat h.status ++ [32]) ++ (h.reason ++ [13, 10])) := by
    simp [ResponseHead.startLine]
  have hdrop : ∀ front back : Text, buffer = front ++ back →
      buffer.drop (0 + front.length) = back := by
    intro front back heq
    rw [heq, Nat.zero_add, List.drop_left]
  have hfront : buffer = versionText h.version ++
      (32 :: (Text.ofNat h.status ++ 32 :: (h.reason ++ [13, 10])) ++ post) := by
    simp [hbuffer, hline]
  have hversion := version_passes h.version_known hfront p
  have hstatus := hdrop (versionText h.version ++ [32])
    (Text.ofNat h.status ++ 32 :: (h.reason ++ [13, 10] ++ post)) (by simp [hbuffer, hline])
  have hreason := hdrop (versionText h.version ++ [32] ++ (Text.ofNat h.status ++ [32]))
    (h.reason ++ ([13, 10] ++ post)) (by simp [hbuffer, hline])
  rw [List.length_append, ← Nat.add_assoc] at hreason
  rw [hline]
  exact ⟨_, Table.Passes.append hversion (Table.Passes.append (status_passes h.status_le hstatus _)
    (reason_passes h.reason_ne h.reason_inLine hreason _))⟩

end StartLine

/-- The empty line behind the lines ends the scan. -/
theorem run_emptyLine (buffer : Text) (pending : Bool) (pos : Nat) (more : Text)
    (p : HttpResponseParser) :
    ∃ p', responseMachine.run ResponseAct.stops (HttpResponseParser.act buffer) (lineState pending)
        pos ([13, 10] ++ more) p = ⟨120, pos + 2, p'⟩ ∧ p'.gathered false = p.gathered pending := by
  have hcr : responseMachine (lineState pending) 13 = some (3, pendingActs pending) := by
    cases pending <;> decide +kernel
  have hlf : responseMachine 3 10 = some (120, [.done]) := by decide +kernel
  refine ⟨Table.apply (HttpResponseParser.act buffer) pos (pendingActs pending) p, ?_, ?_⟩
  · rw [List.cons_append, Table.run, hcr]
    simp only [pendingActs_stops, Bool.false_eq_true, if_false]
    rw [List.cons_append, Table.run, hlf]
    rfl
  · cases pending <;>
      simp [pendingActs, Table.apply, HttpResponseParser.act, HttpResponseParser.gathered]

theorem ResponseHead.gathered_error (h : ResponseHead) : h.gathered.error = 0 := by
  have hkeep : ∀ (fields : List HeaderField) (g : Gathered),
      (fields.foldl (fun g f => f.gather g) g).error = g.error := by
    intro fields
    induction fields with
    | nil => exact fun _ => rfl
    | cons f fields ih => exact fun g => ih (f.gather g)
  exact hkeep h.fields _

/-- The machine takes the header of a response, and nothing of what follows it, and the parser has
what it says. -/
theorem ResponseHead.execute_text (h : ResponseHead) (more : Text) :
    ∃ p, HttpResponseParser.execute responseMachine {} (h.text ++ more) false =
        (p, h.text.length) ∧
      p.isFinished = true ∧ p.hasError = false ∧ p.gathered false = h.gathered := by
  have hbuffer : h.text ++ more =
      h.startLine ++ (h.fields.flatMap HeaderField.text ++ ([13, 10] ++ more)) := by
    simp [ResponseHead.text]
  obtain ⟨mark, hline⟩ := startLine_passes h hbuffer {}
  obtain ⟨pending, p₁, hfields, hgathered₁⟩ := fields_pass h.fields h.startLine ([13, 10] ++ more)
    false { ({} : HttpResponseParser) with mark := mark, data := h.started }
  rw [← hbuffer, ← Nat.zero_add h.startLine.length] at hfields
  have hpass := Table.Passes.append hline hfields
  obtain ⟨p₂, hend, hgathered₂⟩ := run_emptyLine (h.text ++ more) pending
    (0 + (h.startLine ++ h.fields.flatMap HeaderField.text).length) more p₁
  have hrun := (hpass ([13, 10] ++ more)).trans hend
  rw [List.append_assoc, ← hbuffer] at hrun
  have hlen : 0 + (h.startLine ++ h.fields.flatMap HeaderField.text).length + 2 = h.text.length := by
    simp [ResponseHead.text, Nat.add_assoc]
  rw [hlen] at hrun
  have hgathered : p₂.gathered false = h.gathered := hgathered₂.trans hgathered₁
  refine ⟨{ p₂ with cs := 120 }, ?_, rfl, ?_, hgathered⟩
  · exact congrArg (fun r : Scan HttpResponseParser => (({ r.out with cs := r.cs } : HttpResponseParser), r.n)) hrun
  · have herror : p₂.error = 0 := (congrArg Gathered.error hgathered).trans h.gathered_error
    simp [HttpResponseParser.hasError, herror]

end HxSylar
