import HxSylar.Env
import Mathlib.Data.List.Lex
import Mathlib.Data.UInt

namespace HxSylar.Env
open Lib

/-- An argument that starts with a dash. -/
def Dashed (arg : Text) : Prop := arg.head? = some (byte '-')

instance decidableDashed (arg : Text) : Decidable (Dashed arg) :=
  inferInstanceAs (Decidable (arg.head? = some (byte '-')))

/-- What the arguments are to be: options, each with a value behind it or without one. -/
structure WellFormed (args : List Text) : Prop where
  no_lone_dash : [byte '-'] ∉ args
  values_follow : ∀ i arg, args[i]? = some arg → ¬Dashed arg →
    ∃ j option, i = j + 1 ∧ args[j]? = some option ∧ Dashed option

/-- The value of an option, given the arguments behind it. -/
def optionValue : List Text → Text
  | [] => []
  | arg :: _ => if Dashed arg then [] else arg

/-- The options from left to right, the name without its dash. -/
def options : List Text → List (Text × Text)
  | [] => []
  | arg :: rest =>
    if Dashed arg then (arg.tail, optionValue rest) :: options rest else options rest

/-- The value of the last option of a name. -/
def lastValue (opts : List (Text × Text)) (name : Text) : Option Text :=
  (opts.reverse.find? (fun o => o.1 = name)).map Prod.snd

section Loop

/-- The arguments are well formed behind an option without a value yet, or behind none. -/
def Follows : Bool → List Text → Prop
  | _, [] => True
  | pending, arg :: rest =>
    if Dashed arg then arg ≠ [byte '-'] ∧ Follows true rest else pending = true ∧ Follows false rest

/-- The option that the loop holds, with the value it is going to get. -/
def heldOption (now_key : Option Text) (rest : List Text) : List (Text × Text) :=
  match now_key with
  | some key => [(key, optionValue rest)]
  | none => []

/-- The options put into the map one after the other. -/
def addAll (e : Env) (opts : List (Text × Text)) : Env := opts.foldl (fun e o => e.add o.1 o.2) e

theorem headD_dash_iff (arg : Text) : arg.headD 0 = byte '-' ↔ Dashed arg := by
  cases arg with
  | nil =>
    exact iff_of_false (by decide) (by simp [Dashed])
  | cons c arg => simp [Dashed]

theorem Dashed.length_iff {arg : Text} (h : Dashed arg) : 1 < arg.length ↔ arg ≠ [byte '-'] := by
  cases arg with
  | nil => cases h
  | cons c arg =>
    obtain rfl : c = byte '-' := Option.some.inj h
    cases arg with
    | nil => simp
    | cons c' arg => simp

theorem flush_eq_addAll (e : Env) (now_key : Option Text) :
    e.flush now_key = e.addAll (heldOption now_key []) := by
  cases now_key with
  | none => rfl
  | some key => rfl

/-- The loop goes through where the arguments are well formed, and has then added every option. -/
theorem initLoop_eq (e : Env) (now_key : Option Text) (args : List Text) :
    ((initLoop e now_key args).1 = true ↔ Follows now_key.isSome args) ∧
    ((initLoop e now_key args).1 = true →
      (initLoop e now_key args).2 = e.addAll (heldOption now_key args ++ options args)) := by
  induction args generalizing e now_key with
  | nil =>
    refine ⟨iff_of_true rfl trivial, fun _ => ?_⟩
    rw [initLoop, flush_eq_addAll, options, List.append_nil]
  | cons arg rest ih =>
    by_cases hdash : Dashed arg
    · -- the option held so far has no value, and this one is held instead
      have hheld : heldOption now_key (arg :: rest) = heldOption now_key [] := by
        cases now_key with
        | none => rfl
        | some key => simp [heldOption, optionValue, hdash]
      unfold initLoop
      rw [if_pos ((headD_dash_iff arg).mpr hdash), Follows, if_pos hdash]
      by_cases hname : 1 < arg.length
      · rw [if_pos hname]
        obtain ⟨hiff, hmap⟩ := ih (e.flush now_key) (some (arg.drop 1))
        refine ⟨hiff.trans (iff_and_self.mpr fun _ => hdash.length_iff.mp hname), fun htrue => ?_⟩
        rw [hmap htrue, flush_eq_addAll, hheld, options, if_pos hdash, List.drop_one]
        simp [addAll, heldOption]
      · rw [if_neg hname]
        refine ⟨iff_of_false Bool.false_ne_true ?_, fun h => absurd h Bool.false_ne_true⟩
        exact fun hfollows => hname (hdash.length_iff.mpr hfollows.1)
    · unfold initLoop
      rw [if_neg (fun h => hdash ((headD_dash_iff arg).mp h)), Follows, if_neg hdash]
      cases now_key with
      | none =>
        exact ⟨iff_of_false Bool.false_ne_true (fun h => Bool.false_ne_true h.1),
          fun h => absurd h Bool.false_ne_true⟩
      | some key =>
        obtain ⟨hiff, hmap⟩ := ih (e.add key arg) none
        refine ⟨hiff.trans (iff_and_self.mpr fun _ => rfl), fun htrue => ?_⟩
        rw [hmap htrue, options, if_neg hdash]
        simp [addAll, heldOption, optionValue, hdash]

/-- Every argument that is no option has one before it, or is the first one behind a pending
option. -/
def ValuesFollow (pending : Bool) (args : List Text) : Prop :=
  ∀ i arg, args[i]? = some arg → ¬Dashed arg →
    (i = 0 ∧ pending = true) ∨ ∃ j option, i = j + 1 ∧ args[j]? = some option ∧ Dashed option

theorem valuesFollow_cons (pending : Bool) (first : Text) (rest : List Text) :
    ValuesFollow pending (first :: rest) ↔
      (Dashed first ∨ pending = true) ∧ ValuesFollow (decide (Dashed first)) rest := by
  constructor
  · intro hvalues
    constructor
    · by_cases hdash : Dashed first
      · exact .inl hdash
      · rcases hvalues 0 first rfl hdash with ⟨-, hpending⟩ | ⟨j, option, hj, -, -⟩
        · exact .inr hpending
        · cases hj
    · intro i arg hi harg
      rcases hvalues (i + 1) arg hi harg with ⟨h, -⟩ | ⟨j, option, hij, hj, hoption⟩
      · cases h
      · obtain rfl := Nat.succ.inj hij
        cases i with
        | zero =>
          obtain rfl : first = option := Option.some.inj hj
          exact .inl ⟨rfl, decide_eq_true hoption⟩
        | succ i => exact .inr ⟨i, option, rfl, hj, hoption⟩
  · intro ⟨hfirst, hrest⟩ i arg hi harg
    cases i with
    | zero =>
      obtain rfl : first = arg := Option.some.inj hi
      exact .inl ⟨rfl, hfirst.resolve_left harg⟩
    | succ i =>
      rcases hrest i arg hi harg with ⟨rfl, hdash⟩ | ⟨j, option, rfl, hj, hoption⟩
      · exact .inr ⟨0, first, rfl, rfl, of_decide_eq_true hdash⟩
      · exact .inr ⟨j + 1, option, rfl, hj, hoption⟩

/-- Where an argument stands decides whether it may be a value. -/
theorem follows_iff (pending : Bool) (args : List Text) :
    Follows pending args ↔ [byte '-'] ∉ args ∧ ValuesFollow pending args := by
  induction args generalizing pending with
  | nil => simp [Follows, ValuesFollow]
  | cons first rest ih =>
    rw [Follows, valuesFollow_cons, List.mem_cons, not_or]
    by_cases hdash : Dashed first
    · have hfirst : Dashed first ∨ pending = true := .inl hdash
      rw [if_pos hdash, ih, decide_eq_true hdash, and_iff_right hfirst, ne_comm, ← and_assoc]
    · have hother : [byte '-'] ≠ first := by
        rintro rfl
        exact hdash rfl
      rw [if_neg hdash, ih, decide_eq_false hdash, or_iff_right hdash, and_iff_right hother]
      exact and_left_comm

theorem wellFormed_iff (args : List Text) : WellFormed args ↔ Follows false args := by
  rw [follows_iff]
  constructor
  · intro h
    exact ⟨h.no_lone_dash, fun i arg hi harg => .inr (h.values_follow i arg hi harg)⟩
  · intro ⟨hnone, hvalues⟩
    refine ⟨hnone, fun i arg hi harg => ?_⟩
    rcases hvalues i arg hi harg with ⟨-, h⟩ | h
    · cases h
    · exact h

end Loop

section Map

theorem stringLess_compares : OrderedMap.Compares stringLess id := by
  intro s t
  rw [stringLess, decide_eq_true_iff]
  rfl

theorem find_add (e : Env) (key val key' : Text) :
    OrderedMap.find stringLess (e.add key val).args key' =
      if key = key' then some val else OrderedMap.find stringLess e.args key' := by
  split
  · rename_i heq
    exact stringLess_compares.find_assign val e.args heq
  · rename_i hne
    exact stringLess_compares.find_assign_ne val e.args hne

/-- Among the options of a name the last one counts, and a name without one is left. -/
theorem find_addAll (e : Env) (opts : List (Text × Text)) (key : Text) :
    OrderedMap.find stringLess (e.addAll opts).args key =
      (lastValue opts key).or (OrderedMap.find stringLess e.args key) := by
  induction opts using List.reverseRecOn with
  | nil => rfl
  | append_singleton opts o ih =>
    have hadd : e.addAll (opts ++ [o]) = (e.addAll opts).add o.1 o.2 := by
      rw [addAll, List.foldl_append]
      rfl
    rw [hadd, find_add, lastValue, List.reverse_append, List.reverse_singleton,
      List.singleton_append, List.find?_cons]
    by_cases hkey : o.1 = key
    · simp [hkey]
    · rw [if_neg hkey, decide_eq_false hkey]
      exact ih

/-- `init` succeeds on well-formed arguments only, and then it has read the options into the map:
an option is found with its last value, and what was there before under another name still is. -/
theorem init_spec (e : Env) (path argv0 : Text) (args : List Text) :
    ((e.init path argv0 args).1 = true ↔ WellFormed args) ∧
    ((e.init path argv0 args).1 = true → ∀ key,
      (e.init path argv0 args).2.has key = ((lastValue (options args) key).isSome || e.has key) ∧
      ∀ default_value, (e.init path argv0 args).2.get key default_value =
        (lastValue (options args) key).getD (e.get key default_value)) := by
  obtain ⟨hiff, hmap⟩ := initLoop_eq { e with
    exe := path
    cwd := path.substr 0 ((findLastOf path (byte '/')).getD path.length) ++ [byte '/']
    program := argv0 } none args
  refine ⟨hiff.trans (wellFormed_iff args).symm, fun htrue key => ?_⟩
  have hfind := congrArg (fun r : Env => OrderedMap.find stringLess r.args key) (hmap htrue)
  rw [heldOption, List.nil_append, find_addAll] at hfind
  constructor
  · rw [has, init, hfind, Option.isSome_or]
    rfl
  · intro default_value
    rw [get, init, hfind, Option.getD_or]
    rfl

/-- An option given twice, one without a value before it and one behind. -/
theorem init_spec_repeated :
    let args := [text "-d", text "-file", text "x", text "-file", [], text "-v"]
    let e := (({} : Env).init (text "/bin/server") (text "server") args).2
    e.has (text "file") = true ∧ e.get (text "file") (text "none") = [] ∧
      e.has (text "x") = false := by
  have hspec := (init_spec {} (text "/bin/server") (text "server")
    [text "-d", text "-file", text "x", text "-file", [], text "-v"]).2 (by decide)
  refine ⟨(hspec (text "file")).1.trans ?_, ((hspec (text "file")).2 (text "none")).trans ?_,
    (hspec (text "x")).1.trans ?_⟩
  · decide
  · decide
  · decide

end Map

end HxSylar.Env
