import HxSylar.Proofs.HttpFragments
import HxSylar.RequestMachine
import HxSylar.ResponseMachine

namespace HxSylar
open Lib

/-- How far the machine is with a request: at its method, behind it with the offsets set since
then, or at an element that is read from an older offset. -/
inductive RequestStage
  | method
  | behind (mark query : Bool)
  | stale
  deriving DecidableEq, Repr

namespace RequestStage

/-- The stage behind an element that is recorded. -/
def reads (fresh : Bool) (s : RequestStage) : RequestStage := if fresh then s else .stale

def next (a : RequestAct) : RequestStage → RequestStage
  | .stale => .stale
  | .method => match a with
    | .requestMethod => .behind false false
    | .requestPath | .fragment | .queryString => .stale
    | _ => .method
  | .behind mark query => match a with
    | .requestMethod => .behind false false
    | .mark => .behind true query
    | .startQuery => .behind mark true
    | .requestPath | .fragment => reads mark (.behind mark query)
    | .queryString => reads query (.behind mark query)
    | _ => .behind mark query

theorem next_ne_method {a : RequestAct} {s : RequestStage} (h : s ≠ .method) :
    s.next a ≠ .method := by
  cases s with
  | method => exact absurd rfl h
  | stale => simp [next]
  | behind mark query =>
    cases a <;> simp only [next, reads] <;> repeat' split
    all_goals simp

theorem next_requestMethod (s : RequestStage) : s.next .requestMethod ≠ .method := by
  cases s <;> simp [next]

theorem apply_ne_method (pos : Nat) {as : List RequestAct} (h : .requestMethod ∈ as)
    (s : RequestStage) : Table.apply (fun _ => next) pos as s ≠ .method := by
  induction as generalizing s with
  | nil => cases h
  | cons a as ih =>
    rcases List.mem_cons.mp h with rfl | h
    · exact Table.apply_keeps (P := fun s : RequestStage => s ≠ .method)
        (fun _ a _ hs => next_ne_method (a := a) hs) pos as (next_requestMethod s)
    · exact ih h _

end RequestStage

/-- The stage behind a text. -/
def RequestTable.stage (T : RequestTable) (cs : Nat) (t : Text) (s : RequestStage) : RequestStage :=
  (T.run RequestAct.stops (fun _ => RequestStage.next) cs 0 t s).out

/-- What the generated machine has of its states (http11_parser.cc). -/
structure RequestLaws (T : RequestTable) : Prop where
  live : ∀ {cs b cs' as}, T cs b = some (cs', as) → cs' ≠ 0
  last : ∀ {cs b cs' as}, T cs b = some (cs', as) →
    (348 ≤ cs' ↔ as.any RequestAct.stops = true)

/-- The header of a request: the machine reports the method at `b`, and no later element is read
from an offset that was set before. -/
structure RequestBlock (T : RequestTable) (front : Text) (b : UInt8) (back : Text) : Prop where
  accepted : ∃ final, T.Accepts RequestAct.stops 1 (front ++ b :: back) final
  before : T.stage 1 front .method = .method
  reported : ∀ {c}, T.after RequestAct.stops 1 front = some c →
    ∃ c' as, T c b = some (c', as) ∧ .requestMethod ∈ as
  fresh : T.stage 1 (front ++ b :: back) .method ≠ .stale

namespace RequestTable
variable {T : RequestTable} {cs c : Nat}

theorem stage_append {xs : Text} (h : T.after RequestAct.stops cs xs = some c) (ys : Text)
    (s : RequestStage) : stage T cs (xs ++ ys) s = stage T c ys (stage T cs xs s) := by
  rw [stage, stage, stage, Table.run_append ys h]
  exact Table.run_out_shift _ _ _ _ _

/-- The stage of the method is not entered again. -/
theorem stage_ne_method {pos : Nat} {xs : Text} {s : RequestStage} (h : s ≠ .method) :
    (T.run RequestAct.stops (fun _ => RequestStage.next) cs pos xs s).out ≠ .method :=
  Table.run_keeps (P := fun s : RequestStage => s ≠ .method)
    (fun _ _ _ hs => RequestStage.next_ne_method hs) h

/-- It is left where the method is reported. -/
theorem stage_reported {b : UInt8} {xs : Text} {s : RequestStage} {as : List RequestAct}
    (hstep : T cs b = some (c, as)) (hmethod : .requestMethod ∈ as) :
    stage T cs (b :: xs) s ≠ .method := by
  have hleft := RequestStage.apply_ne_method 0 hmethod s
  simp only [stage, Table.run, hstep]
  split
  · exact hleft
  · exact stage_ne_method hleft

/-- What is before the report, is so in both of its parts. -/
theorem stage_method_split {xs ys : Text} (h : T.after RequestAct.stops cs xs = some c)
    (hmethod : stage T cs (xs ++ ys) .method = .method) :
    stage T cs xs .method = .method ∧ stage T c ys .method = .method := by
  rw [stage_append h] at hmethod
  have hxs : stage T cs xs .method = .method := by
    by_contra hne
    exact stage_ne_method hne hmethod
  exact ⟨hxs, by rwa [hxs] at hmethod⟩

theorem stage_stale {xs : Text} : stage T cs xs .stale = .stale :=
  Table.run_keeps (P := fun s : RequestStage => s = .stale) (fun _ _ _ hs => by rw [hs]; rfl) rfl

end RequestTable

namespace HttpRequestParser

/-- What the stage says of a parser on its own. -/
def AtStage (q : HttpRequestParser) : RequestStage → Prop
  | .method => q.data = {} ∧ q.error = 0
  | .behind _ _ => q.error = 1000
  | .stale => True

theorem AtStage.congr {q q' : HttpRequestParser} {s : RequestStage} (h : AtStage q s)
    (hdata : q'.data = q.data) (herror : q'.error = q.error) : AtStage q' s := by
  cases s with
  | method => exact ⟨hdata.trans h.1, herror.trans h.2⟩
  | behind mark query => exact herror.trans h
  | stale => trivial

theorem act_atStage {buffer : Text} {pos : Nat} {a : RequestAct} {q : HttpRequestParser}
    {s : RequestStage} (h : AtStage q s) : AtStage (act buffer pos a q) (s.next a) := by
  cases s with
  | stale => trivial
  | method =>
    cases a <;> first | exact h | rfl | trivial
  | behind mark query =>
    cases a <;> simp only [RequestStage.next, RequestStage.reads] <;>
      first | exact h | rfl | (split <;> first | exact h | trivial)

theorem run_atStage (T : RequestTable) (buffer : Text) (cs : Nat) (xs : Text)
    {q : HttpRequestParser} {s : RequestStage} (h : AtStage q s) :
    AtStage (T.run RequestAct.stops (act buffer) cs 0 xs q).out (T.stage cs xs s) := by
  refine Table.run_paired (R := fun s q => AtStage q s) ?_ xs h
  exact fun _ _ _ _ h => act_atStage h

/-- The parser of the whole text and that of its last piece, which begins `off` bytes later. -/
def InSync (off : Nat) (p q : HttpRequestParser) : RequestStage → Prop
  | .method => p.data = q.data
  | .behind mark query => p.data = q.data ∧ (mark = true → p.mark = q.mark + off) ∧
      (query = true → p.queryStart = q.queryStart + off)
  | .stale => True

variable {pre piece : Text} {pos : Nat} {p q : HttpRequestParser}

theorem act_inSync {a : RequestAct} {s : RequestStage} (h : InSync pre.length p q s) :
    InSync pre.length (act (pre ++ piece) (pos + pre.length) a p) (act piece pos a q)
      (s.next a) := by
  have hslice : ∀ i n, (pre ++ piece).substr (i + pre.length) n = piece.substr i n := by
    intro i n
    rw [Text.substr, Text.substr, Nat.add_comm, ← List.drop_drop, List.drop_left]
  cases s with
  | stale => trivial
  | method =>
    cases a with
    | requestMethod => exact ⟨h, by simp, by simp⟩
    | requestPath => trivial
    | fragment => trivial
    | queryString => trivial
    | _ => exact h
  | behind mark query =>
    obtain ⟨hdata, hmark, hquery⟩ := h
    cases a with
    | mark => exact ⟨hdata, fun _ => rfl, hquery⟩
    | startQuery => exact ⟨hdata, hmark, fun _ => rfl⟩
    | requestMethod => exact ⟨hdata, by simp, by simp⟩
    | requestPath =>
      cases mark with
      | false => trivial
      | true =>
        refine ⟨?_, hmark, hquery⟩
        simp only [act, onRequestPath, hmark rfl, Nat.add_sub_add_right, hslice, hdata]
    | fragment =>
      cases mark with
      | false => trivial
      | true =>
        refine ⟨?_, hmark, hquery⟩
        simp only [act, onRequestFragment, hmark rfl, Nat.add_sub_add_right, hslice, hdata]
    | queryString =>
      cases query with
      | false => trivial
      | true =>
        refine ⟨?_, hmark, hquery⟩
        simp only [act, onRequestQuery, hquery rfl, Nat.add_sub_add_right, hslice, hdata]
    | _ => exact ⟨hdata, hmark, hquery⟩

theorem run_inSync (T : RequestTable) (cs : Nat) (piece : Text) {s : RequestStage}
    (h : InSync pre.length p q s) :
    InSync pre.length
      (T.run RequestAct.stops (act (pre ++ piece)) cs pre.length piece p).out
      (T.run RequestAct.stops (act piece) cs 0 piece q).out (T.stage cs piece s) :=
  Table.run_matched (R := fun s p q => InSync pre.length p q s)
    (fun _ _ _ _ _ h => act_inSync h) piece h

variable {T : RequestTable}

theorem execute_after {x : Text} {c : Nat} (hx : x ≠ []) (hq : q.cs ≠ 0)
    (h : T.after RequestAct.stops q.cs x = some c) :
    (execute T q x).1.cs = c ∧ (execute T q x).2 = x.length := by
  have hrun := Table.run_of_after (act x) 0 { q with mark := 0, fieldLen := 0, fieldStart := 0 } h
  rw [execute, if_neg hx]
  simp only [if_neg hq]
  exact ⟨congrArg Scan.cs hrun, (congrArg Scan.n hrun).trans (Nat.zero_add _)⟩

theorem execute_accepts {x : Text} {final : Nat} (hx : x ≠ []) (hq : q.cs ≠ 0)
    (h : T.Accepts RequestAct.stops q.cs x final) : (execute T q x).1.cs = final := by
  have hrun := Table.run_of_accepts (act x) []
    { q with mark := 0, fieldLen := 0, fieldStart := 0 } h
  rw [List.append_nil] at hrun
  rw [execute, if_neg hx]
  simp only [if_neg hq]
  exact congrArg Scan.cs hrun

theorem execute_atStage {x : Text} {s : RequestStage} (hx : x ≠ []) (h : AtStage q s) :
    AtStage (execute T q x).1 (T.stage q.cs x s) := by
  have hreset : AtStage { q with mark := 0, fieldLen := 0, fieldStart := 0 } s := h.congr rfl rfl
  have hrun := run_atStage T x q.cs x hreset
  rw [execute, if_neg hx]
  exact hrun.congr rfl rfl

/-- Behind a part of the header the machine is neither in error nor finished. -/
theorem after_open (hT : RequestLaws T) {cs c : Nat} {xs : Text} (hxs : xs ≠ [])
    (h : T.after RequestAct.stops cs xs = some c) : c ≠ 0 ∧ c < 348 := by
  obtain ⟨cs', b, as, hstep, hstop⟩ := Table.after_last hxs h
  refine ⟨hT.live hstep, ?_⟩
  by_contra hle
  rw [(hT.last hstep).mp (by omega)] at hstop
  cases hstop

/-- Feeding the pieces that lie before the end of the method. -/
theorem recvHeader_method (hT : RequestLaws T) {bufferSize : Nat} {ps rest : List Text}
    (hps : ∀ x ∈ ps, x ≠ [] ∧ x.length ≤ bufferSize) {fuel c : Nat} {asked : List Nat}
    (hfuel : Source.size ⟨ps ++ rest, asked⟩ < fuel) (hq : q.cs ≠ 0) (hstage : AtStage q .method)
    (hafter : T.after RequestAct.stops q.cs ps.flatten = some c)
    (hmethod : T.stage q.cs ps.flatten .method = .method) :
    ∃ q' fuel' asked', recvHeader (header T) bufferSize fuel q [] ⟨ps ++ rest, asked⟩ =
        recvHeader (header T) bufferSize fuel' q' [] ⟨rest, asked'⟩ ∧
      Source.size ⟨rest, asked'⟩ < fuel' ∧ q'.cs = c ∧ c ≠ 0 ∧ AtStage q' .method := by
  induction ps generalizing q fuel asked with
  | nil =>
    cases hafter
    exact ⟨q, fuel, asked, rfl, hfuel, rfl, hq, hstage⟩
  | cons x xs ih =>
    obtain ⟨fuel, rfl⟩ : ∃ n, fuel = n + 1 := Nat.exists_eq_succ_of_ne_zero (by omega)
    obtain ⟨⟨hx, hroom⟩, hxs⟩ := List.forall_mem_cons.mp hps
    rw [List.flatten_cons, Table.after_append] at hafter
    obtain ⟨c₁, hfirst, hlater⟩ := Option.bind_eq_some_iff.mp hafter
    rw [List.flatten_cons] at hmethod
    obtain ⟨hstage₁, hmethod⟩ := RequestTable.stage_method_split hfirst hmethod
    obtain ⟨hcs, hn⟩ := execute_after hx hq hfirst
    obtain ⟨hlive, hopen⟩ := after_open hT hx hfirst
    have hstage' := execute_atStage (T := T) hx hstage
    rw [hstage₁] at hstage'
    have hok : (execute T q x).1.hasError = false := by
      simp [hasError, hcs, hlive, hstage'.2]
    have hunfinished : (execute T q x).1.isFinished = false := by
      simp [isFinished, hcs]
      omega
    rw [List.cons_append, recvHeader_next (H := header T) hx hroom hok hn hunfinished]
    refine ih hxs ?_ ?_ hstage' ?_ ?_
    · have hpos := List.length_pos_iff.mpr hx
      simp only [Source.size, List.cons_append, List.map_cons, List.sum_cons] at hfuel ⊢
      omega
    · exact hcs ▸ hlive
    · exact hcs ▸ hlater
    · exact hcs ▸ hmethod

/-- The piece in which the method is reported ends the loop. -/
theorem recvHeader_reported (hT : RequestLaws T) {bufferSize : Nat} {x₁ x₂ : Text} {b : UInt8}
    {ps rest : List Text} (hblock : RequestBlock T (ps.flatten ++ x₁) b (x₂ ++ rest.flatten))
    (hpieces : ∀ x ∈ ps ++ (x₁ ++ b :: x₂) :: rest, x ≠ [] ∧ x.length ≤ bufferSize) :
    ∃ q src', recvHeader (header T) bufferSize (Source.size ⟨ps ++ (x₁ ++ b :: x₂) :: rest, []⟩ + 1)
        {} [] ⟨ps ++ (x₁ ++ b :: x₂) :: rest, []⟩ = .null (execute T q (x₁ ++ b :: x₂)).1 src' ∧
      T.after RequestAct.stops 1 ps.flatten = some q.cs ∧ q.cs ≠ 0 ∧ AtStage q .method ∧
      T.stage q.cs (x₁ ++ b :: x₂) .method ≠ .stale := by
  obtain ⟨final, haccepts⟩ := hblock.accepted
  obtain ⟨c₁, hfront, _⟩ := haccepts.split (List.cons_ne_nil _ _)
  obtain ⟨c', as, hstep, hmethod⟩ := hblock.reported hfront
  rw [Table.after_append] at hfront
  obtain ⟨c, hps, hx₁⟩ := Option.bind_eq_some_iff.mp hfront
  obtain ⟨hstage, hbefore⟩ := RequestTable.stage_method_split hps hblock.before
  obtain ⟨q, fuel, asked, hfeed, hfuel, hcs, hlive, hq⟩ := recvHeader_method (q := {}) hT
    (fun x hx => hpieces x (List.mem_append_left _ hx))
    (show Source.size ⟨ps ++ (x₁ ++ b :: x₂) :: rest, []⟩ < _ + 1 from Nat.lt_succ_self _)
    (by decide) ⟨rfl, rfl⟩ hps hstage
  subst hcs
  have hne : T.stage q.cs (x₁ ++ b :: x₂) .method ≠ .method := by
    rw [RequestTable.stage_append hx₁]
    exact RequestTable.stage_reported hstep hmethod
  have hfresh : T.stage q.cs (x₁ ++ b :: x₂) .method ≠ .stale := by
    intro hstale
    have hwhole := hblock.fresh
    have happ : ps.flatten ++ x₁ ++ b :: (x₂ ++ rest.flatten) =
        ps.flatten ++ (x₁ ++ b :: x₂ ++ rest.flatten) := by simp
    rw [happ] at haccepts hwhole
    rw [RequestTable.stage_append hps, hstage] at hwhole
    by_cases hrest : rest.flatten = []
    · rw [hrest, List.append_nil] at hwhole
      exact hwhole hstale
    · obtain ⟨c₂, hps', hlater⟩ := haccepts.split (by simp)
      obtain rfl := Option.some.inj (hps.symm.trans hps')
      obtain ⟨c₃, hx, _⟩ := hlater.split hrest
      rw [RequestTable.stage_append hx, hstale] at hwhole
      exact hwhole RequestTable.stage_stale
  obtain ⟨hx, hroom⟩ := hpieces (x₁ ++ b :: x₂) (by simp)
  have hstage' := execute_atStage (T := T) hx hq
  have herror : (execute T q (x₁ ++ b :: x₂)).1.hasError = true := by
    cases hs : T.stage q.cs (x₁ ++ b :: x₂) .method with
    | method => exact absurd hs hne
    | stale => exact absurd hs hfresh
    | behind mark query =>
      rw [hs] at hstage'
      have h1000 : (execute T q (x₁ ++ b :: x₂)).1.error = 1000 := hstage'
      simp [hasError, h1000]
  obtain ⟨fuel, rfl⟩ : ∃ n, fuel = n + 1 := Nat.exists_eq_succ_of_ne_zero (by omega)
  refine ⟨q, _, hfeed.trans (recvHeader_error (H := header T) hx hroom herror), hps, hlive, hq,
    hfresh⟩

/-- One call on the whole records what the call on its last piece does, when the method is reported
in that piece. -/
theorem execute_whole_data {pre x : Text} (hx : x ≠ []) (hq : AtStage q .method)
    (hpre : T.after RequestAct.stops 1 pre = some q.cs)
    (hmethod : T.stage 1 pre .method = .method) (hfresh : T.stage q.cs x .method ≠ .stale) :
    (execute T {} (pre ++ x)).1.data = (execute T q x).1.data := by
  have hwhole := run_atStage T (pre ++ x) 1 (q := {}) (s := .method) pre ⟨rfl, rfl⟩
  rw [hmethod] at hwhole
  have hstart : InSync pre.length (T.run RequestAct.stops (act (pre ++ x)) 1 0 pre {}).out
      { q with mark := 0, fieldLen := 0, fieldStart := 0 } .method := hwhole.1.trans hq.1.symm
  have hend := run_inSync T q.cs x hstart
  rw [execute, execute, if_neg hx, if_neg (by simp [hx])]
  simp only [Table.run_append x hpre, Nat.zero_add]
  cases hs : T.stage q.cs x .method with
  | stale => exact absurd hs hfresh
  | method =>
    rw [hs] at hend
    exact hend
  | behind mark query =>
    rw [hs] at hend
    exact hend.1

/-- The loop leaves the same request and the same finished state as one call on the whole. -/
def FedAsWhole (T : RequestTable) (bufferSize : Nat) (pieces : List Text) : Prop :=
  ∃ p, feed (header T) bufferSize {} pieces = some p ∧
    p.data = (execute T {} pieces.flatten).1.data ∧
    p.isFinished = (execute T {} pieces.flatten).1.isFinished

theorem isFinished_of_accepts (hT : RequestLaws T) {x : Text} {final : Nat} (hx : x ≠ [])
    (hq : q.cs ≠ 0) (h : T.Accepts RequestAct.stops q.cs x final) :
    (execute T q x).1.isFinished = true := by
  have hcs := execute_accepts hx hq h
  obtain ⟨_, _, _, as, _, _, hstep, hstop⟩ := h
  simp [isFinished, hcs, (hT.last hstep).mpr hstop]

/-- Feeding a request in pieces is feeding it whole exactly if the piece that reports its method
is the last one. -/
theorem fedAsWhole_iff (hT : RequestLaws T) {bufferSize : Nat} {front back : Text} {b : UInt8}
    (hblock : RequestBlock T front b back) {pieces : List Text} (hpieces : ∀ x ∈ pieces, x ≠ [])
    (hflat : pieces.flatten = front ++ b :: back)
    (hroom : (front ++ b :: back).length < bufferSize) :
    FedAsWhole T bufferSize pieces ↔ pieces.dropLast.flatten.length ≤ front.length := by
  obtain ⟨ps, x, rest, x₁, x₂, rfl, hx, rfl, rfl⟩ := Source.exists_piece hflat
  have hpieces' : ∀ y ∈ ps ++ x :: rest, y ≠ [] ∧ y.length ≤ bufferSize := by
    intro y hy
    have hle := (List.sublist_flatten_of_mem hy).length_le
    rw [hflat] at hle
    exact ⟨hpieces y hy, by omega⟩
  have hxne := hpieces x (by simp)
  subst hx
  obtain ⟨q, src', hfeed, hps, hlive, hq, hfresh⟩ := recvHeader_reported hT hblock hpieces'
  have hfed : feed (header T) bufferSize {} (ps ++ (x₁ ++ b :: x₂) :: rest) =
      some (execute T q (x₁ ++ b :: x₂)).1 := by
    rw [feed, hfeed]
    rfl
  obtain ⟨final, haccepts⟩ := hblock.accepted
  have hfinished := isFinished_of_accepts (q := {}) hT (by simp) (by decide) haccepts
  rw [← hflat] at haccepts hfinished
  rw [List.flatten_append, List.flatten_cons] at haccepts
  obtain ⟨c, hps', haccepts⟩ := haccepts.split (by simp)
  obtain rfl := Option.some.inj (hps.symm.trans hps')
  cases rest with
  | nil =>
    rw [List.flatten_nil, List.append_nil] at haccepts
    refine iff_of_true ⟨_, hfed, ?_, ?_⟩ (by simp)
    · have hstage := (RequestTable.stage_method_split hps hblock.before).1
      rw [List.flatten_append, List.flatten_singleton, execute_whole_data hxne hq hps hstage hfresh]
    · rw [hfinished, isFinished_of_accepts hT hxne hlive haccepts]
  | cons y ys =>
    obtain ⟨c, hafter, _⟩ := haccepts.split (by simp [hpieces y (by simp)])
    obtain ⟨hcs, _⟩ := execute_after hxne hlive hafter
    obtain ⟨_, hopen⟩ := after_open hT hxne hafter
    refine iff_of_false ?_ ?_
    · rintro ⟨p, hp, _, hsame⟩
      rw [hfed] at hp
      cases hp
      rw [hfinished] at hsame
      simp [isFinished, hcs] at hsame
      omega
    · simp only [List.dropLast_append_cons, List.dropLast_cons_cons, List.flatten_append,
        List.flatten_cons, List.length_append, List.length_cons]
      omega

end HttpRequestParser

/-- Feeding a header in pieces is feeding it whole: for a request exactly if its method is reported
in the last piece, for a response if no element goes over the end of a piece. The calls of the parser
of responses are taken to go on where the assertion on the null byte behind a piece fails. -/
theorem fed_as_whole {bufferSize : Nat} {pieces : List Text} (hpieces : ∀ x ∈ pieces, x ≠ [])
    (hroom : pieces.flatten.length < bufferSize) {T : RequestTable} (hT : RequestLaws T)
    {R : ResponseTable} (hR : ResponseLaws R) :
    (∀ front b back, RequestBlock T front b back → pieces.flatten = front ++ b :: back →
      (HttpRequestParser.FedAsWhole T bufferSize pieces ↔
        pieces.dropLast.flatten.length ≤ front.length)) ∧
    (ResponseBlock R pieces.flatten → Contained R 1 pieces →
      HttpResponseParser.FedAsWhole R bufferSize pieces) := by
  constructor
  · intro front b back hblock hflat
    rw [hflat] at hroom
    exact HttpRequestParser.fedAsWhole_iff hT hblock hpieces hflat hroom
  · intro hblock hcontained
    exact HttpResponseParser.fedAsWhole_of_contained hR hblock hpieces hroom hcontained

theorem requestMachine_laws (relaxed : Bool) : RequestLaws (requestMachine relaxed) := by
  have hall : ∀ {cs b cs' as}, requestMachine relaxed cs b = some (cs', as) →
      cs' ≠ 0 ∧ (decide (348 ≤ cs') == as.any RequestAct.stops) = true := by
    intro cs b cs' as h
    obtain ⟨lo, hi, hchecked, -⟩ := Table.all_of_ofRows h
      (P := fun _ e => e.2.2.1 != 0 && (decide (348 ≤ e.2.2.1) == e.2.2.2.any RequestAct.stops))
      (by cases relaxed <;> decide +kernel)
    rwa [Bool.and_eq_true, bne_iff_ne] at hchecked
  constructor
  case live => exact fun h => (hall h).1
  case last =>
    intro cs b cs' as h
    have hlast := (hall h).2
    rw [beq_iff_eq] at hlast
    rw [← hlast, decide_eq_true_iff]

theorem responseMachine_laws : ResponseLaws responseMachine where
  live h := by
    obtain ⟨lo, hi, hlive, -⟩ := Table.all_of_ofRows h (P := fun _ e => e.2.2.1 != 0)
      (by decide +kernel)
    simpa using hlive
  last h := by
    obtain ⟨lo, hi, hlast, -⟩ := Table.all_of_ofRows h
      (P := fun _ e => e.2.2.1 != 120 || e.2.2.2.any ResponseAct.stops) (by decide +kernel)
    simpa using hlast
  digit h := by
    obtain ⟨lo, hi, hdigit, hlo, hhi⟩ := Table.all_of_ofRows h
      (P := fun cs e => e.2.2.1 != 17 || (48 ≤ e.1 && e.2.1 ≤ 57 &&
        ((cs == 17 && e.2.2.2 == []) || e.2.2.2 == [.mark]))) (by decide +kernel)
    simp only [bne_self_eq_false, Bool.false_or, Bool.and_eq_true, decide_eq_true_iff,
      Bool.or_eq_true, beq_iff_eq] at hdigit
    obtain ⟨⟨hfrom, hto⟩, has⟩ := hdigit
    refine ⟨?_, has⟩
    rw [isDigit, Bool.and_eq_true, decide_eq_true_iff, decide_eq_true_iff]
    exact ⟨UInt8.le_trans hfrom hlo, UInt8.le_trans hhi hto⟩
  status h hmem := by
    obtain ⟨lo, hi, hstatus, hlo, hhi⟩ := Table.all_of_ofRows h
      (P := fun cs e => !e.2.2.2.contains .statusCode ||
        (cs == 17 && e.1 == 32 && e.2.1 == 32 && e.2.2.2 == [.statusCode])) (by decide +kernel)
    simp [hmem] at hstatus
    obtain ⟨⟨⟨hcs, rfl⟩, rfl⟩, has⟩ := hstatus
    exact ⟨hcs, UInt8.le_antisymm hhi hlo, has⟩

/-- A request, cut behind the first letter of its method, and a response, cut behind its first
line. -/
def cutRequest : List Text := [text "G", text "ET /a HTTP/1.1\r\nA: b\r\n\r\n"]

def cutResponse : List Text := [text "HTTP/1.1 200 OK\r\n", text "Content-Length: 1\r\n\r\n"]

theorem cutRequest_block : RequestBlock (requestMachine false) (text "GET") 32
    (text "/a HTTP/1.1\r\nA: b\r\n\r\n") where
  accepted := ⟨348, text "GET /a HTTP/1.1\r\nA: b\r\n\r", 10, 18, [.done], by decide +kernel,
    by decide +kernel, by decide +kernel, by decide +kernel⟩
  before := by decide +kernel
  reported h := by
    have hafter : (requestMachine false).after RequestAct.stops 1 (text "GET") = some 176 := by
      decide +kernel
    obtain rfl := Option.some.inj (h.symm.trans hafter)
    exact ⟨3, [.requestMethod], by decide +kernel, by decide +kernel⟩
  fresh := by decide +kernel

theorem cutResponse_block : ResponseBlock responseMachine cutResponse.flatten where
  accepted := ⟨text "HTTP/1.1 200 OK\r\nContent-Length: 1\r\n\r", 10, 3, [.done], by decide +kernel,
    by decide +kernel, by decide +kernel, by decide +kernel⟩
  known := by decide +kernel

theorem fed_as_whole_cut :
    HttpRequestParser.FedAsWhole (requestMachine false) 4096 cutRequest ∧
      HttpResponseParser.FedAsWhole responseMachine 4096 cutResponse := by
  constructor
  · have hroom : cutRequest.flatten.length < 4096 := by decide +kernel
    have hiff := (fed_as_whole (by decide +kernel) hroom (requestMachine_laws false)
      responseMachine_laws).1 _ _ _ cutRequest_block (by decide +kernel)
    exact hiff.mpr (by decide +kernel)
  · have hroom : cutResponse.flatten.length < 4096 := by decide +kernel
    exact (fed_as_whole (by decide +kernel) hroom (requestMachine_laws false)
      responseMachine_laws).2 cutResponse_block ⟨by decide +kernel, by decide +kernel, trivial⟩

/-- The same response, cut in its reason. -/
def cutReason : List Text := [text "HTTP/1.1 200 O", text "K\r\nContent-Length: 1\r\n\r\n"]

/-- Only the second letter of the reason is recorded. -/
theorem not_fed_as_whole :
    ¬∀ (T : ResponseTable) (bufferSize : Nat) (pieces : List Text), ResponseLaws T →
      ResponseBlock T pieces.flatten → (∀ x ∈ pieces, x ≠ []) →
      pieces.flatten.length < bufferSize → HttpResponseParser.FedAsWhole T bufferSize pieces := by
  intro hall
  have hblock : ResponseBlock responseMachine cutReason.flatten := by
    rw [show cutReason.flatten = cutResponse.flatten by decide +kernel]
    exact cutResponse_block
  have hpiecewise : (feed (HttpResponseParser.header responseMachine false) 4096 {} cutReason).map
      (fun p => p.data.reason) = some (text "K") := by decide +kernel
  have hwhole : (HttpResponseParser.execute responseMachine {} cutReason.flatten
      false).1.data.reason = text "OK" := by decide +kernel
  obtain ⟨p, hp, hdata, _⟩ := hall responseMachine 4096 cutReason responseMachine_laws hblock
    (by decide +kernel) (by decide +kernel)
  rw [hp, Option.map_some, hdata, hwhole] at hpiecewise
  exact absurd hpiecewise (by decide +kernel)

def cutVersion : List Text := [text "HTTP/1.1", text " 200 OK\r\nContent-Length: 1\r\n\r\n"]

/-- An element that goes over the end of a piece can be recorded as in the whole by accident: here
nothing of the version is compared, and the default is the right one. -/
example : ¬Contained responseMachine 1 cutVersion ∧
    HttpResponseParser.FedAsWhole responseMachine 4096 cutVersion := by
  constructor
  · rintro ⟨_, hsecond, _⟩
    exact hsecond (by decide +kernel)
  · exact ⟨_, rfl, by decide +kernel, by decide +kernel⟩

end HxSylar
