import HxSylar.Proofs.HttpServer

namespace HxSylar
open Lib RequestMachine

/-- Whether a byte is of the class that the ranges of a row are. -/
def inRow (row : Row) (b : UInt8) : Bool := row.any (fun e => e.1 ≤ b && b ≤ e.2.1)

/-- The bytes of the name that an XML message begins with (http11_parser.rl:228). -/
def xmlName : Row := onRange '-' '.' 0 ++ onDigit 0 ++ onUpper 0 ++ onLower 0

/-- What ends the name (http11_parser.rl:229). -/
def xmlEnd : Row := onBytes 9 13 0 ++ on ' ' 0 ++ on '/' 0 ++ on '>' 0

/-- A byte of a class or a percent escape. -/
def IsItem (row : Row) (item : Text) : Prop :=
  (∃ b, inRow row b = true ∧ item = [b]) ∨
    ∃ x y, inRow (onXdigit 0) x = true ∧ inRow (onXdigit 0) y = true ∧ item = [byte '%', x, y]

/-- What a message has in front of its body (http11_parser.rl:225-232): its path with the sign, and
what separates it. The paths of `relative_part` with an authority are left out. -/
inductive MessageHead (relaxed : Bool) : Bool → Text → Text → Prop
  | xml {name : Text} {b : UInt8} (hne : name ≠ []) (hname : ∀ c ∈ name, inRow xmlName c = true)
      (hend : inRow xmlEnd b = true) : MessageHead relaxed true (byte '<' :: name) [b]
  | segment {items : List Text}
      (hitems : ∀ item ∈ items, IsItem (onPlain relaxed 0 ++ on '@' 0) item) :
      MessageHead relaxed false (byte '@' :: items.flatten) (text " \x7b")
  | segments {first items : List Text}
      (hfirst : ∀ item ∈ first, IsItem (onPlain relaxed 0 ++ on '@' 0) item)
      (hitems : ∀ item ∈ items, IsItem (onPchar relaxed 0 ++ on '/' 0) item)
      (hauthority : first = [] → items.head? ≠ some (text "/")) :
      MessageHead relaxed false (byte '@' :: (first.flatten ++ byte '/' :: items.flatten))
        (text " \x7b")

theorem MessageHead.path_ne {relaxed xml : Bool} {path opening : Text}
    (h : MessageHead relaxed xml path opening) : path ≠ [] := by
  cases h with
  | xml | segment | segments => exact List.cons_ne_nil _ _

/-- What the body ends with, before the zero. -/
def closing (xml : Bool) : UInt8 := if xml then byte '>' else byte '}'

/-- A message: its head, a body without what ends it, and the end. -/
structure Message (relaxed : Bool) where
  xml : Bool
  path : Text
  opening : Text
  body : Text
  head : MessageHead relaxed xml path opening
  inside : ¬[closing xml, 0] <:+: body

def Message.text {relaxed : Bool} (m : Message relaxed) : Text :=
  m.path ++ (m.opening ++ (m.body ++ [closing m.xml, 0]))

section Machine
variable {relaxed xml : Bool}

/-- The state in a body, and whether its last byte may be the end. -/
def bodyState (xml closed : Bool) : Nat :=
  if xml then (if closed then 197 else 196) else if closed then 201 else 200

/-- Whether a part of a body ends with the closing byte. -/
def closes (xml : Bool) (w : Text) : Bool := w.getLast? == some (closing xml)

/-- The rows of the states in a body. -/
def bodyRow (xml closed : Bool) : Row :=
  if closed then
    onBytes 0 0 349 [if xml then .xml else .json, .done] ++
      onBytes (closing xml) (closing xml) (bodyState xml true) ++ onBytes 1 255 (bodyState xml false)
  else
    onBytes (closing xml) (closing xml) (bodyState xml true) ++ onBytes 0 255 (bodyState xml false)

/-- The rows of a JSON path, with where a byte of its class leads. -/
def pathRow (relaxed : Bool) (slash percent : Nat) (nc : Bool) (next : Nat) : Row :=
  on ' ' 199 [.requestPath] ++ on '/' slash ++ on '%' percent ++
    if nc then on '@' next ++ onPlain relaxed next else onPchar relaxed next

def xmlNameRow : Row := onRange '-' '.' 195 ++ onDigit 195 ++ onUpper 195 ++ onLower 195

/-- The rows of the states for messages without an authority, from 194 on. -/
def messageRows (relaxed : Bool) : List Row :=
  [xmlNameRow,
    xmlNameRow ++ onBytes 9 13 196 [.requestPath] ++ on ' ' 196 [.requestPath] ++
      on '/' 196 [.requestPath] ++ on '>' 196 [.requestPath],
    bodyRow true false, bodyRow true true, pathRow relaxed 208 203 true 202,
    on '\x7b' 200 [.mark], bodyRow false false, bodyRow false true,
    pathRow relaxed 205 203 true 202, onXdigit 204, onXdigit 202, pathRow relaxed 205 206 false 205,
    onXdigit 207, onXdigit 205, pathRow relaxed 209 206 false 205]

theorem rows_messageRows (relaxed : Bool) : ((rows relaxed).drop 194).take 15 = messageRows relaxed := by
  cases relaxed <;> decide +kernel

theorem message_row {i : Nat} {row : Row} (h : (messageRows relaxed)[i]? = some row) :
    (rows relaxed).getD (194 + i) [] = row := by
  rw [← rows_messageRows, List.getElem?_take] at h
  split at h
  · rw [List.getElem?_drop] at h
    rw [List.getD_eq_getElem?_getD, h, Option.getD_some]
  · cases h

theorem body_row (relaxed xml closed : Bool) :
    (rows relaxed).getD (bodyState xml closed) [] = bodyRow xml closed := by
  cases xml with
  | true =>
    cases closed with
    | false => exact message_row (i := 2) rfl
    | true => exact message_row (i := 3) rfl
  | false =>
    cases closed with
    | false => exact message_row (i := 6) rfl
    | true => exact message_row (i := 7) rfl

theorem body_step {closed : Bool} {b : UInt8} (hb : ¬(closed = true ∧ b = 0)) :
    requestMachine relaxed (bodyState xml closed) b =
      some (bodyState xml (b == closing xml), []) := by
  rw [requestMachine, Table.ofRows_row (body_row relaxed xml closed)]
  revert hb
  apply forall_byte (p := fun b => ¬(closed = true ∧ b = 0) →
    Table.ofRows [bodyRow xml closed] 0 b = some (bodyState xml (b == closing xml), []))
  cases xml <;> cases closed <;> decide +kernel

theorem body_end (relaxed xml : Bool) : requestMachine relaxed (bodyState xml true) 0 =
    some (349, [if xml then .xml else .json, .done]) := by
  rw [requestMachine, Table.ofRows_row (body_row relaxed xml true)]
  cases xml <;> rfl

theorem closes_append_one (w : Text) (b : UInt8) : closes xml (w ++ [b]) = (b == closing xml) := by
  rw [closes, List.getLast?_concat, Option.some_beq_some]

/-- The machine stays in a body until its end. -/
theorem body_passes {act : Nat → RequestAct → HttpRequestParser → HttpRequestParser} {pos : Nat}
    {w xs : Text} {s : HttpRequestParser} (hxs : ¬[closing xml, 0] <:+: w ++ xs) :
    Table.Passes (requestMachine relaxed) RequestAct.stops act (bodyState xml (closes xml w)) pos xs s
      (bodyState xml (closes xml (w ++ xs))) s := by
  induction xs generalizing w pos with
  | nil =>
    rw [List.append_nil]
    exact Table.Passes.nil
  | cons b xs ih =>
    have hb : ¬(closes xml w = true ∧ b = 0) := by
      rintro ⟨hclosed, rfl⟩
      rw [closes, beq_iff_eq, List.getLast?_eq_some_iff] at hclosed
      obtain ⟨front, rfl⟩ := hclosed
      exact hxs ⟨front, xs, by simp⟩
    rw [List.append_cons] at hxs ⊢
    have hrest : Table.Passes (requestMachine relaxed) RequestAct.stops act
        (bodyState xml (closes xml (w ++ [b]))) (pos + 1) xs s
        (bodyState xml (closes xml (w ++ [b] ++ xs))) s := ih hxs
    rw [closes_append_one] at hrest
    exact Table.Passes.cons (body_step hb) rfl hrest

section Path

/-- A transition that all bytes of a class have. -/
theorem class_step {row row' : Row} {c c' : Nat} {as : List RequestAct}
    (hrow : (rows relaxed).getD c [] = row')
    (hclass : ∀ n < 256, inRow row (UInt8.ofNat n) = true →
      Table.ofRows [row'] 0 (UInt8.ofNat n) = some (c', as)) {b : UInt8} (hb : inRow row b = true) :
    requestMachine relaxed c b = some (c', as) := by
  rw [requestMachine, Table.ofRows_row hrow]
  exact forall_byte (p := fun b => inRow row b = true → Table.ofRows [row'] 0 b = some (c', as))
    hclass b hb

/-- The machine goes from one state to another over what may stand for one character. -/
def Takes (relaxed : Bool) (row : Row) (c c' : Nat) : Prop :=
  ∀ item, IsItem row item →
    ∀ (act : Nat → RequestAct → HttpRequestParser → HttpRequestParser) (pos : Nat)
      (s : HttpRequestParser),
      Table.Passes (requestMachine relaxed) RequestAct.stops act c pos item s c' s

theorem xdigit_step {c next : Nat} (hrow : (rows relaxed).getD c [] = onXdigit next)
    (hnext : next ∈ [202, 204, 205, 207]) {b : UInt8} (hb : inRow (onXdigit 0) b = true) :
    requestMachine relaxed c b = some (next, []) := by
  have hall : ∀ next ∈ [202, 204, 205, 207], ∀ n < 256,
      inRow (onXdigit 0) (UInt8.ofNat n) = true →
        Table.ofRows [onXdigit next] 0 (UInt8.ofNat n) = some (next, []) := by decide +kernel
  exact class_step hrow (hall next hnext) hb

/-- The bytes of a class lead on at once, and a percent sign does so over two digits. -/
theorem takes_of_rows {row row' : Row} {c c' d d' : Nat} (hrow : (rows relaxed).getD c [] = row')
    (hclass : ∀ n < 256, inRow row (UInt8.ofNat n) = true →
      Table.ofRows [row'] 0 (UInt8.ofNat n) = some (c', []))
    (hpercent : Table.ofRows [row'] 0 (byte '%') = some (d, []))
    (hfirst : (rows relaxed).getD d [] = onXdigit d')
    (hsecond : (rows relaxed).getD d' [] = onXdigit c')
    (hd' : d' ∈ [202, 204, 205, 207]) (hc' : c' ∈ [202, 204, 205, 207]) :
    Takes relaxed row c c' := by
  intro item hitem act pos s
  rcases hitem with ⟨b, hb, rfl⟩ | ⟨x, y, hx, hy, rfl⟩
  · exact Table.Passes.one (class_step hrow hclass hb) rfl
  · have hsign : requestMachine relaxed c (byte '%') = some (d, []) := by
      rw [requestMachine, Table.ofRows_row hrow, hpercent]
    exact Table.Passes.cons hsign rfl (Table.Passes.cons (xdigit_step hfirst hd' hx) rfl
      (Table.Passes.one (xdigit_step hsecond hc' hy) rfl))

theorem path_rows (relaxed : Bool) :
    (rows relaxed).getD 198 [] = pathRow relaxed 208 203 true 202 ∧
      (rows relaxed).getD 202 [] = pathRow relaxed 205 203 true 202 ∧
      (rows relaxed).getD 208 [] = pathRow relaxed 209 206 false 205 ∧
      (rows relaxed).getD 205 [] = pathRow relaxed 205 206 false 205 ∧
      (rows relaxed).getD 203 [] = onXdigit 204 ∧ (rows relaxed).getD 204 [] = onXdigit 202 ∧
      (rows relaxed).getD 206 [] = onXdigit 207 ∧ (rows relaxed).getD 207 [] = onXdigit 205 :=
  ⟨message_row (i := 4) rfl, message_row (i := 8) rfl, message_row (i := 14) rfl,
    message_row (i := 11) rfl, message_row (i := 9) rfl, message_row (i := 10) rfl,
    message_row (i := 12) rfl, message_row (i := 13) rfl⟩

theorem first_takes (relaxed : Bool) : Takes relaxed (onPlain relaxed 0 ++ on '@' 0) 198 202 := by
  obtain ⟨hrow, -, -, -, hfirst, hsecond, -, -⟩ := path_rows relaxed
  exact takes_of_rows hrow (by cases relaxed <;> decide +kernel) rfl hfirst hsecond (by decide)
    (by decide)

theorem segment_takes (relaxed : Bool) : Takes relaxed (onPlain relaxed 0 ++ on '@' 0) 202 202 := by
  obtain ⟨-, hrow, -, -, hfirst, hsecond, -, -⟩ := path_rows relaxed
  exact takes_of_rows hrow (by cases relaxed <;> decide +kernel) rfl hfirst hsecond (by decide)
    (by decide)

theorem slash_takes (relaxed : Bool) : Takes relaxed (onPchar relaxed 0) 208 205 := by
  obtain ⟨-, -, hrow, -, -, -, hfirst, hsecond⟩ := path_rows relaxed
  exact takes_of_rows hrow (by cases relaxed <;> decide +kernel) rfl hfirst hsecond (by decide)
    (by decide)

theorem segments_takes (relaxed : Bool) :
    Takes relaxed (onPchar relaxed 0 ++ on '/' 0) 205 205 := by
  obtain ⟨-, -, -, hrow, -, -, hfirst, hsecond⟩ := path_rows relaxed
  exact takes_of_rows hrow (by cases relaxed <;> decide +kernel) rfl hfirst hsecond (by decide)
    (by decide)

variable {act : Nat → RequestAct → HttpRequestParser → HttpRequestParser} {pos : Nat}
  {s : HttpRequestParser}

theorem items_pass {row : Row} {c : Nat} {items : List Text} (htakes : Takes relaxed row c c)
    (hitems : ∀ item ∈ items, IsItem row item) :
    Table.Passes (requestMachine relaxed) RequestAct.stops act c pos items.flatten s c s := by
  induction items generalizing pos with
  | nil => exact Table.Passes.nil
  | cons item items ih =>
    rw [List.flatten_cons]
    exact Table.Passes.append (htakes item (hitems item List.mem_cons_self) _ _ _)
      (ih fun item h => hitems item (List.mem_cons_of_mem _ h))

/-- A path without its sign, and the state behind it, from which a space leads on. -/
theorem path_passes {path opening : Text} (head : MessageHead relaxed false path opening) :
    opening = text " \x7b" ∧ ∃ rest c, path = byte '@' :: rest ∧
      requestMachine relaxed c (byte ' ') = some (199, [.requestPath]) ∧
      ∀ (act : Nat → RequestAct → HttpRequestParser → HttpRequestParser) (pos : Nat)
        (s : HttpRequestParser),
        Table.Passes (requestMachine relaxed) RequestAct.stops act 198 pos rest s c s := by
  obtain ⟨hfirst, hsegment, hslash, hsegments, -⟩ := path_rows relaxed
  have hspace : ∀ {c slash percent : Nat} {nc : Bool} {next : Nat},
      (rows relaxed).getD c [] = pathRow relaxed slash percent nc next →
        requestMachine relaxed c (byte ' ') = some (199, [.requestPath]) := by
    intro c slash percent nc next hrow
    rw [requestMachine, Table.ofRows_row hrow]
    rfl
  have hslashes : ∀ {c slash percent : Nat} {nc : Bool} {next : Nat},
      (rows relaxed).getD c [] = pathRow relaxed slash percent nc next →
        requestMachine relaxed c (byte '/') = some (slash, []) := by
    intro c slash percent nc next hrow
    rw [requestMachine, Table.ofRows_row hrow]
    rfl
  have hnames : ∀ {items : List Text},
      (∀ item ∈ items, IsItem (onPlain relaxed 0 ++ on '@' 0) item) → items ≠ [] →
        ∀ (act : Nat → RequestAct → HttpRequestParser → HttpRequestParser) (pos : Nat)
          (s : HttpRequestParser), Table.Passes (requestMachine relaxed) RequestAct.stops act 198 pos
            items.flatten s 202 s := by
    intro items hitems hne act pos s
    obtain ⟨item, items, rfl⟩ := List.exists_cons_of_ne_nil hne
    rw [List.flatten_cons]
    exact Table.Passes.append (first_takes relaxed item (hitems item List.mem_cons_self) _ _ _)
      (items_pass (segment_takes relaxed) fun item h => hitems item (List.mem_cons_of_mem _ h))
  cases head with
  | @segment items hitems =>
    refine ⟨rfl, items.flatten, ?_⟩
    by_cases hne : items = []
    · subst hne
      exact ⟨198, rfl, hspace hfirst, fun _ _ _ => Table.Passes.nil⟩
    · exact ⟨202, rfl, hspace hsegment, hnames hitems hne⟩
  | @segments first items hnc hitems hauthority =>
    refine ⟨rfl, first.flatten ++ byte '/' :: items.flatten, ?_⟩
    by_cases hne : first = []
    · subst hne
      cases items with
      | nil =>
        exact ⟨208, rfl, hspace hslash, fun _ _ _ => Table.Passes.one (hslashes hfirst) rfl⟩
      | cons item items =>
        -- a second slash would begin an authority
        have hitem : IsItem (onPchar relaxed 0) item := by
          rcases hitems item List.mem_cons_self with ⟨b, hb, rfl⟩ | hescape
          · rw [inRow, List.any_append, Bool.or_eq_true] at hb
            rcases hb with hb | hb
            · exact .inl ⟨b, hb, rfl⟩
            · rw [on, onBytes, List.any_cons, List.any_nil, Bool.or_false, Bool.and_eq_true,
                decide_eq_true_iff, decide_eq_true_iff] at hb
              exact absurd (by rw [UInt8.le_antisymm hb.2 hb.1]; rfl) (hauthority rfl)
          · exact .inr hescape
        refine ⟨205, rfl, hspace hsegments, fun act pos s => ?_⟩
        rw [List.flatten_nil, List.nil_append, List.flatten_cons]
        exact Table.Passes.cons (hslashes hfirst) rfl
          (Table.Passes.append (slash_takes relaxed item hitem _ _ _)
            (items_pass (segments_takes relaxed) fun item h => hitems item (List.mem_cons_of_mem _ h)))
    · refine ⟨205, rfl, hspace hsegments, fun act pos s => ?_⟩
      exact Table.Passes.append (hnames hnc hne act pos s)
        (Table.Passes.cons (hslashes hsegment) rfl (items_pass (segments_takes relaxed) hitems))

end Path

theorem xmlName_row (relaxed : Bool) : (rows relaxed).getD 195 [] =
    xmlNameRow ++ onBytes 9 13 196 [.requestPath] ++ on ' ' 196 [.requestPath] ++
      on '/' 196 [.requestPath] ++ on '>' 196 [.requestPath] := message_row (i := 1) rfl

theorem xmlName_step {c : Nat} (hc : c ∈ [194, 195]) {b : UInt8} (hb : inRow xmlName b = true) :
    requestMachine relaxed c b = some (195, []) := by
  have hfirst : (rows relaxed).getD 194 [] = xmlNameRow := message_row (i := 0) rfl
  rcases List.mem_cons.mp hc with rfl | hc
  · exact class_step hfirst (by decide +kernel) hb
  · obtain rfl := List.mem_singleton.mp hc
    exact class_step (xmlName_row relaxed) (by decide +kernel) hb

/-- What the machine does with the head of a message. -/
theorem head_passes {path opening buffer rest : Text} (head : MessageHead relaxed xml path opening)
    (hbuffer : buffer = path ++ rest) (s : HttpRequestParser) :
    ∃ s', Table.Passes (requestMachine relaxed) RequestAct.stops (HttpRequestParser.act buffer) 1 0
        (path ++ opening) s (bodyState xml false) s' ∧
      s'.data = { s.data with path := path } ∧ s'.error = s.error := by
  have hpath : buffer.substr 0 (0 + path.length - 0) = path := by
    rw [hbuffer, Text.substr, List.drop_zero, Nat.zero_add, Nat.sub_zero, List.take_left]
  have hmark : requestMachine relaxed 1 (byte '<') = some (194, [.mark]) ∧
      requestMachine relaxed 1 (byte '@') = some (198, [.mark]) ∧
      requestMachine relaxed 199 (byte '\x7b') = some (200, [.mark]) := by
    cases relaxed <;> refine ⟨?_, ?_, ?_⟩ <;> decide +kernel
  obtain ⟨hxml, hjson, hbrace⟩ := hmark
  cases xml with
  | true =>
    cases head with
    | @xml name b hne hname hend =>
      obtain ⟨n, ns, rfl⟩ := List.exists_cons_of_ne_nil hne
      have hloop : Table.Passes (requestMachine relaxed) RequestAct.stops
          (HttpRequestParser.act buffer) 195 2 ns { s with mark := 0 } 195 { s with mark := 0 } :=
        Table.Passes.loop (fun _ hb => xmlName_step (by decide) hb)
          fun c hc => hname c (List.mem_cons_of_mem _ hc)
      have hall : Table.Passes (requestMachine relaxed) RequestAct.stops
          (HttpRequestParser.act buffer) 1 0 (byte '<' :: n :: ns) s 195 { s with mark := 0 } :=
        Table.Passes.cons hxml rfl (Table.Passes.cons
          (xmlName_step (by decide) (hname n List.mem_cons_self)) rfl hloop)
      have hseparator : requestMachine relaxed 195 b = some (196, [.requestPath]) :=
        class_step (xmlName_row relaxed) (by decide +kernel) hend
      refine ⟨_, Table.Passes.append hall (Table.Passes.one hseparator rfl), ?_, rfl⟩
      exact congrArg (fun path => { s.data with path := path }) hpath
  | false =>
    obtain ⟨rfl, rest, c, rfl, hspace, hpass⟩ := path_passes head
    have hall : Table.Passes (requestMachine relaxed) RequestAct.stops
        (HttpRequestParser.act buffer) 1 0 (byte '@' :: rest) s c { s with mark := 0 } :=
      Table.Passes.cons hjson rfl (hpass _ _ _)
    refine ⟨_, Table.Passes.append hall (Table.Passes.cons hspace rfl
      (Table.Passes.one hbrace rfl)), ?_, rfl⟩
    exact congrArg (fun path => { s.data with path := path }) hpath

end Machine

section Reading
variable {relaxed : Bool} {m : Message relaxed} {bufferSize : Nat}

namespace Message

/-- The closing byte alone does not end a body. -/
theorem inside_closing (m : Message relaxed) : ¬[closing m.xml, 0] <:+: m.body ++ [closing m.xml] := by
  intro h
  rcases List.infix_concat_iff.mp h with hsuffix | hinfix
  · obtain ⟨front, hfront⟩ := hsuffix
    have hlast := congrArg List.getLast? hfront
    rw [List.getLast?_concat, List.getLast?_append, List.getLast?_cons_cons,
      List.getLast?_singleton, Option.some_or, Option.some_inj] at hlast
    revert hlast
    cases m.xml <;> decide
  · exact m.inside hinfix

/-- What is left of a message behind a part of its body. -/
structure Rest (m : Message relaxed) (w rest : Text) : Prop where
  ends : w ++ rest = m.body ++ [closing m.xml, 0]
  more : rest ≠ []

variable {w rest : Text} {act : Nat → RequestAct → HttpRequestParser → HttpRequestParser} {pos : Nat}
  {s : HttpRequestParser}

/-- A part of the body that is not its end. -/
theorem Rest.passes {xs ys : Text} (h : m.Rest w (xs ++ ys)) (hys : ys ≠ []) :
    m.Rest (w ++ xs) ys ∧ Table.Passes (requestMachine relaxed) RequestAct.stops act
      (bodyState m.xml (closes m.xml w)) pos xs s (bodyState m.xml (closes m.xml (w ++ xs))) s := by
  have hends := h.ends
  rw [← List.append_assoc] at hends
  refine ⟨⟨hends, hys⟩, body_passes fun hin => m.inside_closing ?_⟩
  obtain ⟨zs, z, rfl⟩ := (List.eq_nil_or_concat ys).resolve_left hys
  have hfront : w ++ xs ++ zs = m.body ++ [closing m.xml] := by
    rw [List.concat_eq_append, ← List.append_assoc, List.append_cons m.body] at hends
    exact (List.append_inj' hends rfl).1
  rw [← hfront]
  exact hin.trans (List.prefix_append _ _).isInfix

/-- The end of a message. The actions there do nothing to the request. -/
theorem Rest.run {buffer more : Text} (h : m.Rest w rest) :
    Table.run (requestMachine relaxed) RequestAct.stops (HttpRequestParser.act buffer)
      (bodyState m.xml (closes m.xml w)) pos (rest ++ more) s = ⟨349, pos + rest.length, s⟩ := by
  obtain ⟨front, z, rfl⟩ := (List.eq_nil_or_concat rest).resolve_left h.more
  have hends := h.ends
  rw [List.concat_eq_append, ← List.append_assoc, List.append_cons m.body] at hends
  obtain ⟨hfront, hz⟩ := List.append_inj' hends rfl
  obtain rfl := List.singleton_inj.mp hz
  rw [List.concat_eq_append] at h ⊢
  have hpass : Table.Passes (requestMachine relaxed) RequestAct.stops (HttpRequestParser.act buffer)
      (bodyState m.xml (closes m.xml w)) pos front s (bodyState m.xml (closes m.xml (w ++ front))) s :=
    (h.passes (List.cons_ne_nil _ _)).2
  rw [List.append_assoc, hpass, hfront, closes_append_one, beq_self_eq_true, List.singleton_append,
    Table.run, body_end, List.length_append, ← Nat.add_assoc]
  cases m.xml <;> rfl

end Message

open HttpRequestParser

/-- A parser that reads `front` and is in the body of a message then. -/
def Enters (m : Message relaxed) (p : HttpRequestParser) (front w : Text) : Prop :=
  p.cs ≠ 0 ∧ ∀ buffer post, buffer = front ++ post → ∃ s,
    Table.Passes (requestMachine relaxed) RequestAct.stops (act buffer) p.cs 0 front
      { p with mark := 0, fieldLen := 0, fieldStart := 0 } (bodyState m.xml (closes m.xml w)) s ∧
    s.data = { path := m.path } ∧ s.error = 0

theorem bodyState_live (xml closed : Bool) : 0 < bodyState xml closed ∧ bodyState xml closed < 348 := by
  cases xml <;> cases closed <;> decide

/-- A buffer that ends inside of the body. -/
theorem Enters.execute_part {p : HttpRequestParser} {front w xs ys : Text} (h : Enters m p front w)
    (hbuffer : front ++ xs ≠ []) (hrest : m.Rest w (xs ++ ys)) (hys : ys ≠ []) :
    let e := execute (requestMachine relaxed) p (front ++ xs)
    hasError e.1 = false ∧ isFinished e.1 = false ∧ e.2 = (front ++ xs).length ∧
      Enters m e.1 [] (w ++ xs) := by
  obtain ⟨s, hfront, hdata, herror⟩ := h.2 _ xs rfl
  have hxs : Table.Passes (requestMachine relaxed) RequestAct.stops (act (front ++ xs))
      (bodyState m.xml (closes m.xml w)) (0 + front.length) xs s
      (bodyState m.xml (closes m.xml (w ++ xs))) s := (hrest.passes hys).2
  have hrun := (hfront.append hxs) []
  rw [List.append_nil, Table.run, Nat.zero_add] at hrun
  have hlive := bodyState_live m.xml (closes m.xml (w ++ xs))
  dsimp only
  rw [execute, if_neg hbuffer, hrun]
  dsimp only
  rw [if_neg h.1, hasError, herror]
  dsimp only
  refine ⟨?_, decide_eq_false (by rw [Nat.not_le]; exact hlive.2), rfl, Nat.ne_of_gt hlive.1, ?_⟩
  · rw [Bool.or_eq_false_iff, beq_eq_false_iff_ne]
    exact ⟨rfl, Nat.ne_of_gt hlive.1⟩
  · intro buffer post _
    exact ⟨_, Table.Passes.nil, hdata, rfl⟩

/-- A buffer that has the end of the message. -/
theorem Enters.execute_end {p : HttpRequestParser} {front w rest more : Text}
    (h : Enters m p front w) (hrest : m.Rest w rest) :
    let e := execute (requestMachine relaxed) p (front ++ (rest ++ more))
    hasError e.1 = false ∧ isFinished e.1 = true ∧ e.2 = front.length + rest.length ∧
      e.1.data = { path := m.path } := by
  obtain ⟨s, hfront, hdata, herror⟩ := h.2 _ (rest ++ more) rfl
  have hrun := hfront (rest ++ more)
  rw [hrest.run, Nat.zero_add] at hrun
  have hbuffer : front ++ (rest ++ more) ≠ [] :=
    List.append_ne_nil_of_right_ne_nil _ (List.append_ne_nil_of_left_ne_nil hrest.more _)
  dsimp only
  rw [execute, if_neg hbuffer, hrun]
  dsimp only
  rw [if_neg h.1, hasError, herror]
  exact ⟨rfl, rfl, rfl, hdata⟩

/-- The loop reads on to the end of the message, in whatever pieces its body arrives. -/
theorem recvHeader_message {fuel : Nat} {p : HttpRequestParser} {front w rest more : Text}
    {src : Source} (hfuel : src.size < fuel) (hproper : src.Proper) (hroom : 0 < bufferSize)
    (h : Enters m p front w) (hrest : m.Rest w rest)
    (hsrc : src.pieces.flatten = front ++ (rest ++ more))
    (hread : front.length ≤ (src.read bufferSize).1.length) :
    ∃ p' data' src', recvHeader (HttpRequestParser.header (requestMachine relaxed)) bufferSize fuel p
        [] src = .finished p' data' src' ∧ p'.data = { path := m.path } := by
  induction fuel generalizing p front w rest src with
  | zero => omega
  | succ fuel ih =>
    have hpieces : src.pieces ≠ [] := by
      intro hnil
      rw [hnil, List.flatten_nil] at hsrc
      exact List.append_ne_nil_of_right_ne_nil _
        (List.append_ne_nil_of_left_ne_nil hrest.more _) hsrc.symm
    have hne : (src.read bufferSize).1 ≠ [] := by
      rwa [ne_eq, hproper.read_eq_nil_iff hroom]
    have hnext := Source.read_lt hne
    have hlength := src.read_length bufferSize
    have hflatten := src.read_flatten bufferSize
    have hstill := hproper.read bufferSize
    rw [recvHeader_round (by rwa [List.length_nil, Nat.sub_zero])]
    simp only [List.nil_append, List.length_nil, Nat.sub_zero]
    generalize (src.read bufferSize).1 = r at *
    generalize (src.read bufferSize).2 = src' at *
    have hprefix : front <+: r := List.prefix_of_prefix_length_le ⟨_, hsrc.symm⟩ ⟨_, hflatten⟩ hread
    obtain ⟨xs, rfl⟩ := hprefix
    rw [hsrc, List.append_assoc, List.append_cancel_left_eq] at hflatten
    by_cases hend : rest.length ≤ xs.length
    · -- the message ends in this buffer
      obtain ⟨ys, rfl⟩ := List.prefix_of_prefix_length_le ⟨_, rfl⟩ ⟨_, hflatten⟩ hend
      have hexecute :
          let e := execute (requestMachine relaxed) p (front ++ (rest ++ ys))
          hasError e.1 = false ∧ isFinished e.1 = true ∧ e.2 = front.length + rest.length ∧
            e.1.data = { path := m.path } := h.execute_end hrest
      obtain ⟨herror, hfinished, hn, hdata⟩ := hexecute
      have hkeeps : ((front ++ (rest ++ ys)).drop (execute (requestMachine relaxed) p
          (front ++ (rest ++ ys))).2).length ≠ bufferSize := by
        have hpos := List.length_pos_iff.mpr hrest.more
        rw [hn, List.length_drop]
        simp only [List.length_append] at hlength ⊢
        omega
      exact ⟨_, _, _, (if_neg (ne_true_of_eq_false herror)).trans
        ((if_neg hkeeps).trans (if_pos hfinished)), hdata⟩
    · obtain ⟨ys, rfl⟩ := List.prefix_of_prefix_length_le ⟨_, hflatten⟩ ⟨_, rfl⟩ (by omega)
      have hys : ys ≠ [] := by
        rintro rfl
        exact hend (by rw [List.append_nil])
      rw [List.append_assoc, List.append_cancel_left_eq] at hflatten
      obtain ⟨herror, hfinished, hn, henters⟩ := h.execute_part hne hrest hys
      have hempty : (front ++ xs).drop (execute (requestMachine relaxed) p (front ++ xs)).2 = [] := by
        rw [hn, List.drop_length]
      have hkeeps : ((front ++ xs).drop (execute (requestMachine relaxed) p
          (front ++ xs)).2).length ≠ bufferSize := by
        rw [hempty]
        exact Nat.ne_of_lt hroom
      have hrest' : m.Rest (w ++ xs) ys := by
        refine ⟨?_, hys⟩
        rw [List.append_assoc]
        exact hrest.ends
      obtain ⟨p', data', src'', hrecv, hdata⟩ := ih (Nat.lt_of_lt_of_le hnext (Nat.lt_succ_iff.mp hfuel))
        hstill henters hrest' hflatten (Nat.zero_le _)
      refine ⟨p', data', src'', ?_, hdata⟩
      rw [← hempty] at hrecv
      exact (if_neg (ne_true_of_eq_false herror)).trans ((if_neg hkeeps).trans
        ((if_neg (ne_true_of_eq_false hfinished)).trans hrecv))

/-- A message is read with its path, whatever its body and however it arrives, if its head comes with
the first read. -/
theorem recvRequest_message {more : Text} {src : Source} (hproper : src.Proper)
    (hsrc : src.pieces.flatten = m.text ++ more)
    (hread : (m.path ++ m.opening).length ≤ (src.read bufferSize).1.length) :
    ∃ src', HttpSession.recvRequest (requestMachine relaxed) bufferSize src =
      (.message { path := m.path }, src') := by
  have hpath := m.head.path_ne
  have hroom : 0 < bufferSize := by
    have hpos := List.length_pos_iff.mpr hpath
    have hlength := src.read_length bufferSize
    rw [List.length_append] at hread
    omega
  have henters : Enters m {} (m.path ++ m.opening) [] := by
    refine ⟨Nat.one_ne_zero, fun buffer post hbuffer => ?_⟩
    rw [List.append_assoc] at hbuffer
    obtain ⟨s, hpass, hdata, herror⟩ := head_passes m.head hbuffer {}
    exact ⟨s, hpass, hdata, herror⟩
  have hrest : m.Rest [] (m.body ++ [closing m.xml, 0]) :=
    ⟨rfl, List.append_ne_nil_of_right_ne_nil _ (List.cons_ne_nil _ _)⟩
  have hflatten : src.pieces.flatten =
      (m.path ++ m.opening) ++ ((m.body ++ [closing m.xml, 0]) ++ more) := by
    rw [hsrc, Message.text]
    simp only [List.append_assoc]
  obtain ⟨p, data, src', hheader, hdata⟩ :=
    recvHeader_message (Nat.lt_succ_self _) hproper hroom henters hrest hflatten hread
  refine ⟨src', ?_⟩
  have hnone : p.getContentLength = 0 := by
    rw [getContentLength, hdata]
    rfl
  rw [HttpSession.recvRequest, hheader]
  dsimp only
  rw [hnone, recvContent, if_pos rfl, hdata]

end Reading

namespace HttpServer
variable {σ κ ω : Type*}

/-- What a server does answer: a message of XML or JSON gets one answer, the one that the servlet of
its path makes of a request that has nothing but the path, and then the session is closed. -/
theorem handleClient_message {relaxed : Bool} (m : Message relaxed) {bufferSize : Nat}
    (websocket : Bool) {server : HttpServer σ κ ω} {dispatch : ServletDispatch σ κ}
    (hdispatch : server.dispatch = some dispatch) (hkeeps : KeepsClose server) {src : Source}
    {more : Text} (hproper : src.Proper) (hsrc : src.pieces.flatten = m.text ++ more)
    (hread : (m.path ++ m.opening).length ≤ (src.read bufferSize).1.length) (w : ω) (fuel : Nat) :
    let request : HttpRequest := { path := m.path }
    let answer := server.handle dispatch request (server.reply websocket request) w
    handleClient (requestMachine relaxed) bufferSize websocket server (fuel + 1) src w =
      ⟨[(answer.1, answer.2.1)], answer.2.2, .closed⟩ := by
  intro request answer
  obtain ⟨src', hmessage⟩ := recvRequest_message hproper hsrc hread
  have hclose : answer.1.close = true := hkeeps dispatch hdispatch request _ w rfl
  exact handleClient_last hmessage hdispatch hclose fuel

/-- `<a />` and its zero. -/
def emptyTag : Message false where
  xml := true
  path := Lib.text "<a"
  opening := Lib.text " "
  body := Lib.text "/"
  head := .xml (List.cons_ne_nil _ _) (by decide +kernel) (by decide +kernel)
  inside := by decide +kernel

theorem emptyTag_arrives : Source.Proper ⟨[Lib.text "<a />\x00"], []⟩ ∧
    [Lib.text "<a />\x00"].flatten = emptyTag.text ++ [] ∧
    (emptyTag.path ++ emptyTag.opening).length ≤
      (Source.read ⟨[Lib.text "<a />\x00"], []⟩ 4096).1.length := by
  refine ⟨fun p hp => ?_, by decide +kernel, by decide +kernel⟩
  rw [List.mem_singleton.mp hp]
  decide +kernel

/-- A server whose dispatch is as its constructor leaves it. -/
def bareServer : HttpServer Empty Empty Unit where
  isKeepalive := true
  dispatch := some {}
  servlet := Empty.elim
  callback := Empty.elim

theorem bareServer_keepsClose : KeepsClose bareServer := by
  intro dispatch hdispatch request reply w hclose
  cases hdispatch
  exact hclose

theorem handleClient_emptyTag :
    handleClient (requestMachine false) 4096 false bareServer 1 ⟨[Lib.text "<a />\x00"], []⟩ () =
      (let request : HttpRequest := { path := Lib.text "<a" }
      let answer := NotFoundServlet.handle request (bareServer.reply false request) ()
      ⟨[(answer.1, answer.2.1)], (), .closed⟩) := by
  obtain ⟨hproper, hsrc, hread⟩ := emptyTag_arrives
  exact handleClient_message emptyTag false rfl bareServer_keepsClose hproper hsrc hread () 0

end HttpServer
end HxSylar
