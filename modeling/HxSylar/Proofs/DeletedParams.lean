import HxSylar.Proofs.HttpParam

namespace HxSylar.ParamRequest
open Lib

/-- What the latest calls have promised of each key, up to case: of a parameter, `some none` that it
is deleted and `some (some v)` that it is set to `v`; of a cookie only that it is deleted. -/
structure Told where
  params : Text → Option (Option Text) := fun _ => none
  cookies : Text → Option Unit := fun _ => none

def Told.next (h : Told) (_ : ParamRequest) (c : Call) (_ : ParamRequest) : Told :=
  match c with
  | .setParam key val => { h with params := Function.update h.params (key.map toLower) (some (some val)) }
  | .delParam key => { h with params := Function.update h.params (key.map toLower) (some none) }
  | .setCookie key _ => { h with cookies := Function.update h.cookies (key.map toLower) none }
  | .delCookie key => { h with cookies := Function.update h.cookies (key.map toLower) (some ()) }
  | .getParam .. | .hasParam _ | .getCookie .. | .hasCookie _ => h

/-- The request beside what its calls have promised. -/
def toldMachine : Machine (ParamRequest × Told) Call := machine.observe {} Told.next

/-- A deleted key is not found, and a key that was set has its value. -/
structure Kept (p : ParamRequest × Told) : Prop where
  deleted : ∀ key, p.2.params (key.map toLower) = some none → (p.1.hasParam key).1 = none
  set : ∀ key val, p.2.params (key.map toLower) = some (some val) →
    ∀ dflt, (p.1.getParam key dflt).1 = val
  cookie : ∀ key, p.2.cookies (key.map toLower) = some () → (p.1.hasCookie key).1 = none

/-- The calls of `insert` that `PARSE_PARAM` makes. -/
def paramPairs (s : ParamSyntax) (str : Text) : Headers := s.merged [] (str.splitOn s.flag)

/-- The pairs that the next access inserts: those of the query always, those of a form body once. -/
def pendingParams (r : ParamRequest) : Headers :=
  paramPairs .form r.query ++
    if r.parserParamFlag &&& 0x2 = 0 ∧ r.isForm = true then paramPairs .form r.body else []

def pendingCookies (r : ParamRequest) : Headers :=
  if r.parserParamFlag &&& 0x4 = 0 then paramPairs .cookie (r.getHeader (text "cookie")) else []

section Views
variable {r : ParamRequest}

theorem find_append (m m' : Headers) (key : Text) :
    OrderedMap.find caseInsensitiveLess (m ++ m') key =
      (OrderedMap.find caseInsensitiveLess m key).or (OrderedMap.find caseInsensitiveLess m' key) := by
  simp only [OrderedMap.find, List.find?_append]
  cases List.find? (fun e => OrderedMap.same caseInsensitiveLess e.1 key) m <;> rfl

/-- A pair that is inserted is found where the key was not there before. -/
theorem find_foldl_insert (ps : Headers) {m : Headers}
    (hm : OrderedMap.Sorted caseInsensitiveLess m) (key : Text) :
    OrderedMap.find caseInsensitiveLess (ps.foldl (fun m p => Headers.insert m p.1 p.2) m) key =
      (OrderedMap.find caseInsensitiveLess m key).or (OrderedMap.find caseInsensitiveLess ps key) := by
  induction ps generalizing m with
  | nil => simp [OrderedMap.find]
  | cons p ps ih =>
    rw [List.foldl_cons, ih (sorted_insert hm p.1 p.2)]
    obtain ⟨k, v⟩ := p
    rw [OrderedMap.find_cons]
    by_cases hsame : k.cstr.map toLower = key.cstr.map toLower
    · rw [if_pos ((caseInsensitiveLess_compares.same_iff _ _).mpr hsame), Headers.insert,
        caseInsensitiveLess_compares.find_insert v hm hsame]
      cases OrderedMap.find caseInsensitiveLess m key <;> rfl
    · rw [if_neg (fun h => hsame ((caseInsensitiveLess_compares.same_iff _ _).mp h)), Headers.insert,
        caseInsensitiveLess_compares.find_insert_ne v m hsame]

/-- What is found under a key once the pending pairs have been inserted. -/
def seen (m pending : Headers) (key : Text) : Option Text :=
  (OrderedMap.find caseInsensitiveLess m key).or (OrderedMap.find caseInsensitiveLess pending key)

theorem seen_foldl_insert {m : Headers} (pending : Headers)
    (hm : OrderedMap.Sorted caseInsensitiveLess m) (key : Text) :
    OrderedMap.find caseInsensitiveLess (pending.foldl (fun m p => Headers.insert m p.1 p.2) m) key =
      seen m pending key :=
  find_foldl_insert pending hm key

/-- A key that was set is found, whatever is pending. -/
theorem seen_assign (m pending : Headers) (key val k : Text) :
    seen (m.assign caseInsensitiveLess key val) pending k =
      if CaseVariant key.cstr k.cstr then some val else seen m pending k := by
  unfold seen
  split
  · rename_i hsame
    rw [caseInsensitiveLess_compares.find_assign val m hsame]
    rfl
  · rename_i hother
    rw [caseInsensitiveLess_compares.find_assign_ne val m hother]

/-- A key that was erased comes back if it is pending. -/
theorem seen_erase (m pending : Headers) (key k : Text) :
    seen (m.erase caseInsensitiveLess key) pending k =
      if CaseVariant key.cstr k.cstr then OrderedMap.find caseInsensitiveLess pending key
      else seen m pending k := by
  unfold seen
  split
  · rename_i hsame
    rw [caseInsensitiveLess_compares.find_erase m hsame,
      caseInsensitiveLess_compares.find_congr pending hsame]
    rfl
  · rename_i hother
    rw [caseInsensitiveLess_compares.find_erase_ne m hother]

/-- The maps are in order. -/
structure Sound (r : ParamRequest) : Prop where
  params : OrderedMap.Sorted caseInsensitiveLess r.params
  cookies : OrderedMap.Sorted caseInsensitiveLess r.cookies

theorem flag_bits (f : UInt8) :
    ((f ||| 0x1) &&& 0x2 = f &&& 0x2) ∧ ((f ||| 0x1) &&& 0x4 = f &&& 0x4) ∧
      ((f ||| 0x2) &&& 0x2 ≠ 0) ∧ ((f ||| 0x2) &&& 0x4 = f &&& 0x4) ∧
      ((f ||| 0x4) &&& 0x4 ≠ 0) ∧ ((f ||| 0x4) &&& 0x2 = f &&& 0x2) := by
  revert f
  apply forall_byte
  decide +kernel

/-- The request after the parameters were asked for. -/
def accessed (r : ParamRequest) : ParamRequest := r.initQueryParam.initBodyParam

/-- What an access does: it inserts the pending pairs and marks the body as parsed. -/
theorem accessed_eq (r : ParamRequest) :
    ∃ flag : UInt8, flag &&& 0x2 ≠ 0 ∧ flag &&& 0x4 = r.parserParamFlag &&& 0x4 ∧
      r.accessed = { r with
        parserParamFlag := flag
        params := r.pendingParams.foldl (fun m p => Headers.insert m p.1 p.2) r.params } := by
  obtain ⟨hbody₁, hcookie₁, -⟩ := flag_bits r.parserParamFlag
  obtain ⟨-, -, hset, hcookie₂, -⟩ := flag_bits (r.parserParamFlag ||| 0x1)
  have hquery : r.initQueryParam = { r with
      params := (paramPairs .form r.query).foldl (fun m p => Headers.insert m p.1 p.2) r.params
      parserParamFlag := r.parserParamFlag ||| 0x1 } := by
    have hparse := parseParam_eq Headers.insert .form r.query r.params
    simp only [ParamSyntax.flag, ParamSyntax.trim] at hparse
    rw [initQueryParam, hparse]
    rfl
  have hform : r.initQueryParam.isForm = r.isForm := rfl
  have hbody : r.initQueryParam.body = r.body := rfl
  by_cases hdone : r.parserParamFlag &&& 0x2 = 0
  · cases hisForm : r.isForm with
    | false =>
      refine ⟨r.parserParamFlag ||| 0x1 ||| 0x2, hset, hcookie₂.trans hcookie₁, ?_⟩
      simp only [accessed, initBodyParam, hform, hisForm]
      simp [hquery, hbody₁, hdone, pendingParams, hisForm]
    | true =>
      refine ⟨r.parserParamFlag ||| 0x1 ||| 0x2, hset, hcookie₂.trans hcookie₁, ?_⟩
      have hparse := parseParam_eq Headers.insert .form r.body r.initQueryParam.params
      simp only [ParamSyntax.flag, ParamSyntax.trim] at hparse
      simp only [accessed, initBodyParam, hform, hisForm, hbody, hparse]
      simp [hquery, hbody₁, hdone, pendingParams, hisForm, paramPairs, ParamSyntax.flag]
  · refine ⟨r.parserParamFlag ||| 0x1, ?_, hcookie₁, ?_⟩
    · rw [hbody₁]
      exact hdone
    · simp [accessed, initBodyParam, hquery, hbody₁, hdone, pendingParams]

/-- What an access to the cookies does. -/
theorem initCookies_eq (r : ParamRequest) :
    ∃ flag : UInt8, flag &&& 0x4 ≠ 0 ∧ flag &&& 0x2 = r.parserParamFlag &&& 0x2 ∧
      r.initCookies = { r with
        parserParamFlag := flag
        cookies := r.pendingCookies.foldl (fun m p => Headers.insert m p.1 p.2) r.cookies } := by
  obtain ⟨-, -, -, -, hset, hbody⟩ := flag_bits r.parserParamFlag
  by_cases hdone : r.parserParamFlag &&& 0x4 = 0
  · refine ⟨r.parserParamFlag ||| 0x4, hset, hbody, ?_⟩
    by_cases hempty : r.getHeader (text "cookie") = []
    · have hnone : paramPairs .cookie [] = [] := rfl
      simp [initCookies, hdone, hempty, pendingCookies, hnone]
    · have hparse := parseParam_eq Headers.insert .cookie (r.getHeader (text "cookie")) r.cookies
      simp only [ParamSyntax.flag, ParamSyntax.trim] at hparse
      simp [initCookies, hdone, hempty, pendingCookies, hparse, paramPairs, ParamSyntax.flag]
  · exact ⟨r.parserParamFlag, hdone, rfl, by simp [initCookies, hdone, pendingCookies]⟩

/-- `hasParam` finds what is there, and else what is pending. -/
theorem hasParam_eq (h : r.Sound) (key : Text) :
    (r.hasParam key).1 = seen r.params r.pendingParams key := by
  obtain ⟨flag, -, -, heq⟩ := r.accessed_eq
  have hfind := seen_foldl_insert r.pendingParams h.params key
  rw [hasParam, ← accessed, heq]
  exact hfind

theorem getParam_eq (r : ParamRequest) (key dflt : Text) :
    (r.getParam key dflt).1 = ((r.hasParam key).1).getD dflt := rfl

theorem hasCookie_eq (h : r.Sound) (key : Text) :
    (r.hasCookie key).1 = seen r.cookies r.pendingCookies key := by
  obtain ⟨flag, -, -, heq⟩ := r.initCookies_eq
  have hfind := seen_foldl_insert r.pendingCookies h.cookies key
  rw [hasCookie, heq]
  exact hfind

end Views

section Calls
variable {r : ParamRequest}

/-- Asking for parameters changes nothing that can be asked for. -/
theorem accessed_same (h : r.Sound) : r.accessed.Sound ∧
    (∀ key, (r.accessed.hasParam key).1 = (r.hasParam key).1) ∧
    ∀ key, (r.accessed.hasCookie key).1 = (r.hasCookie key).1 := by
  obtain ⟨flag, hbody, hcookie, heq⟩ := r.accessed_eq
  have hsound : r.accessed.Sound := by
    rw [heq]
    exact ⟨sorted_foldl_insert _ h.params, h.cookies⟩
  refine ⟨hsound, ?_, ?_⟩
  · intro key
    have hparams : OrderedMap.find caseInsensitiveLess r.accessed.params key = (r.hasParam key).1 := rfl
    have hpending : r.accessed.pendingParams = paramPairs .form r.query := by
      rw [heq]
      simp [pendingParams, hbody]
    rw [hasParam_eq hsound, seen, hparams, hasParam_eq h, seen, hpending, pendingParams, find_append]
    cases OrderedMap.find caseInsensitiveLess r.params key with
    | some v => rfl
    | none => cases OrderedMap.find caseInsensitiveLess (paramPairs .form r.query) key <;> simp
  · intro key
    rw [hasCookie_eq hsound, hasCookie_eq h, heq]
    simp [pendingCookies, hcookie]

theorem initCookies_same (h : r.Sound) : r.initCookies.Sound ∧
    (∀ key, (r.initCookies.hasParam key).1 = (r.hasParam key).1) ∧
    ∀ key, (r.initCookies.hasCookie key).1 = (r.hasCookie key).1 := by
  obtain ⟨flag, hcookie, hbody, heq⟩ := r.initCookies_eq
  have hsound : r.initCookies.Sound := by
    rw [heq]
    exact ⟨h.params, sorted_foldl_insert _ h.cookies⟩
  refine ⟨hsound, ?_, ?_⟩
  · intro key
    have hform : r.initCookies.isForm = r.isForm := by rw [heq]; rfl
    rw [hasParam_eq hsound, hasParam_eq h, pendingParams, pendingParams, hform, heq]
    simp only [hbody]
  · intro key
    have hcookies : OrderedMap.find caseInsensitiveLess r.initCookies.cookies key =
        (r.hasCookie key).1 := rfl
    have hpending : r.initCookies.pendingCookies = [] := by
      rw [heq]
      simp [pendingCookies, hcookie]
    rw [hasCookie_eq hsound, seen, hcookies, hpending]
    simp [OrderedMap.find]

/-- One call: which key it changes, up to what the comparison sees of it, and to what. -/
theorem setParam_view (h : r.Sound) (key val : Text) : (r.setParam key val).Sound ∧
    (∀ k, ((r.setParam key val).hasParam k).1 =
      if CaseVariant key.cstr k.cstr then some val else (r.hasParam k).1) ∧
    ∀ k, ((r.setParam key val).hasCookie k).1 = (r.hasCookie k).1 := by
  have hsound : (r.setParam key val).Sound :=
    ⟨h.params.assign caseInsensitiveLess_compares key val, h.cookies⟩
  refine ⟨hsound, fun k => ?_, fun k => ?_⟩
  · rw [hasParam_eq hsound, hasParam_eq h]
    exact seen_assign r.params r.pendingParams key val k
  · rw [hasCookie_eq hsound, hasCookie_eq h]
    rfl

theorem delParam_view (h : r.Sound) (key : Text) : (r.delParam key).Sound ∧
    (∀ k, ((r.delParam key).hasParam k).1 =
      if CaseVariant key.cstr k.cstr then OrderedMap.find caseInsensitiveLess r.pendingParams key
      else (r.hasParam k).1) ∧
    ∀ k, ((r.delParam key).hasCookie k).1 = (r.hasCookie k).1 := by
  have hsound : (r.delParam key).Sound := ⟨h.params.erase _ key, h.cookies⟩
  refine ⟨hsound, fun k => ?_, fun k => ?_⟩
  · rw [hasParam_eq hsound, hasParam_eq h]
    exact seen_erase r.params r.pendingParams key k
  · rw [hasCookie_eq hsound, hasCookie_eq h]
    rfl

theorem setCookie_view (h : r.Sound) (key val : Text) : (r.setCookie key val).Sound ∧
    (∀ k, ((r.setCookie key val).hasParam k).1 = (r.hasParam k).1) ∧
    ∀ k, ((r.setCookie key val).hasCookie k).1 =
      if CaseVariant key.cstr k.cstr then some val else (r.hasCookie k).1 := by
  have hsound : (r.setCookie key val).Sound :=
    ⟨h.params, h.cookies.assign caseInsensitiveLess_compares key val⟩
  refine ⟨hsound, fun k => ?_, fun k => ?_⟩
  · rw [hasParam_eq hsound, hasParam_eq h]
    rfl
  · rw [hasCookie_eq hsound, hasCookie_eq h]
    exact seen_assign r.cookies r.pendingCookies key val k

theorem delCookie_view (h : r.Sound) (key : Text) : (r.delCookie key).Sound ∧
    (∀ k, ((r.delCookie key).hasParam k).1 = (r.hasParam k).1) ∧
    ∀ k, ((r.delCookie key).hasCookie k).1 =
      if CaseVariant key.cstr k.cstr then OrderedMap.find caseInsensitiveLess r.pendingCookies key
      else (r.hasCookie k).1 := by
  have hsound : (r.delCookie key).Sound := ⟨h.params, h.cookies.erase _ key⟩
  refine ⟨hsound, fun k => ?_, fun k => ?_⟩
  · rw [hasParam_eq hsound, hasParam_eq h]
    rfl
  · rw [hasCookie_eq hsound, hasCookie_eq h]
    exact seen_erase r.cookies r.pendingCookies key k

end Calls

section Runs
variable {p q : ParamRequest × Told}

/-- The comparison takes the keys for one although they differ otherwise than in case. -/
def Confused (k key : Text) : Prop := CaseVariant key.cstr k.cstr ∧ ¬CaseVariant key k

/-- What a call may do: a deleted key must not be pending, and where a null byte makes another key of
it, nothing else may have been promised of that one. -/
def Allowed (p : ParamRequest × Told) : Call → Prop
  | .setParam key val => ∀ k told, Confused k key → p.2.params (k.map toLower) = some told →
      told = some val
  | .delParam key => (∀ e ∈ p.1.pendingParams, ¬CaseVariant key.cstr e.1.cstr) ∧
      ∀ k told, Confused k key → p.2.params (k.map toLower) = some told → told = none
  | .setCookie key _ => ∀ k, Confused k key → p.2.cookies (k.map toLower) = none
  | .delCookie key => ∀ e ∈ p.1.pendingCookies, ¬CaseVariant key.cstr e.1.cstr
  | .getParam .. | .hasParam _ | .getCookie .. | .hasCookie _ => True

theorem find_eq_none {m : Headers} {key : Text} :
    OrderedMap.find caseInsensitiveLess m key = none ↔ ∀ e ∈ m, ¬CaseVariant key.cstr e.1.cstr := by
  rw [OrderedMap.find, Option.map_eq_none_iff, List.find?_eq_none]
  refine forall_congr' fun e => forall_congr' fun _ => not_congr ?_
  rw [same_iff_cstr]
  exact eq_comm

/-- Promises of what is found under a key: `due` says what for each. -/
def Fulfilled {β : Type} (promises : Text → Option β) (due : β → Option Text)
    (found : Text → Option Text) : Prop :=
  ∀ key b, promises (key.map toLower) = some b → found key = due b

/-- A call that changes what is found under one key to `now` and promises `b` of it keeps all
promises exactly if `now` is what is due and what is due for the keys confused with it. -/
theorem fulfilled_update_iff {β : Type} {promises : Text → Option β} {due : β → Option Text}
    {found found' : Text → Option Text} {key : Text} {now : Option Text} {b : Option β}
    (hfound : ∀ k, found' k = if CaseVariant key.cstr k.cstr then now else found k)
    (hkept : Fulfilled promises due found) :
    Fulfilled (Function.update promises (key.map toLower) b) due found' ↔
      (∀ c, b = some c → now = due c) ∧
        ∀ k c, Confused k key → promises (k.map toLower) = some c → now = due c := by
  constructor
  · intro hall
    refine ⟨fun c hc => ?_, fun k c hconf hc => ?_⟩
    · have hkey := hall key c ((Function.update_self _ _ _).trans hc)
      rwa [hfound, if_pos (show CaseVariant key.cstr key.cstr from rfl)] at hkey
    · have hk := hall k c (by rw [Function.update_of_ne (fun he => hconf.2 he.symm), hc])
      rwa [hfound, if_pos hconf.1] at hk
  · rintro ⟨hnow, hconf⟩ k c hc
    rw [hfound]
    by_cases hvariant : CaseVariant key k
    · rw [← hvariant, Function.update_self] at hc
      rw [if_pos ((same_iff_cstr _ _).mp (same_of_variant hvariant))]
      exact hnow c hc
    · rw [Function.update_of_ne (fun he => hvariant he.symm)] at hc
      split
      · rename_i hsame
        exact hconf k c ⟨hsame, hvariant⟩ hc
      · exact hkept k c hc

/-- The promises in one form. -/
theorem kept_iff : Kept p ↔
    Fulfilled p.2.params id (fun key => (p.1.hasParam key).1) ∧
      Fulfilled p.2.cookies (fun _ => none) (fun key => (p.1.hasCookie key).1) := by
  constructor
  · intro h
    refine ⟨fun key told htold => ?_, fun key _ htold => h.cookie key htold⟩
    cases told with
    | none => exact h.deleted key htold
    | some val =>
      -- a key that is not found gives back every default, not only `val`
      have hset := h.set key val htold
      simp only [getParam_eq] at hset
      cases hfound : (p.1.hasParam key).1 with
      | some v =>
        have hv := hset []
        rw [hfound] at hv
        rw [← hv]
        exact hfound
      | none =>
        have hv := hset (0 :: val)
        rw [hfound] at hv
        exact absurd hv (by simp)
  · intro h
    refine ⟨fun key htold => h.1 key none htold, fun key val htold dflt => ?_,
      fun key htold => h.2 key () htold⟩
    have hfound : (p.1.hasParam key).1 = some val := h.1 key (some val) htold
    rw [getParam_eq, hfound]
    rfl

/-- The request's maps are in order and its promises are kept. -/
def Held (p : ParamRequest × Told) : Prop := p.1.Sound ∧ Kept p

theorem fulfilled_congr {β : Type} {promises : Text → Option β} {due : β → Option Text}
    {found found' : Text → Option Text} (h : ∀ k, found' k = found k)
    (hkept : Fulfilled promises due found) : Fulfilled promises due found' :=
  fun k b hb => (h k).trans (hkept k b hb)

/-- One call keeps the promises exactly if it is allowed. -/
theorem held_call (c : Call) (h : Held p) :
    (p.1.call c).Sound ∧
      (Kept (p.1.call c, p.2.next p.1 c (p.1.call c)) ↔ Allowed p c) := by
  obtain ⟨hsound, hkept⟩ := h
  obtain ⟨hparams, hcookies⟩ := kept_iff.mp hkept
  rw [kept_iff]
  cases c with
  | getParam | hasParam =>
    obtain ⟨hs, hp, hc⟩ := accessed_same hsound
    exact ⟨hs, iff_of_true ⟨fulfilled_congr hp hparams, fulfilled_congr hc hcookies⟩ trivial⟩
  | getCookie | hasCookie =>
    obtain ⟨hs, hp, hc⟩ := initCookies_same hsound
    exact ⟨hs, iff_of_true ⟨fulfilled_congr hp hparams, fulfilled_congr hc hcookies⟩ trivial⟩
  | setParam key val =>
    obtain ⟨hs, hp, hc⟩ := setParam_view hsound key val
    refine ⟨hs, (and_iff_left (fulfilled_congr hc hcookies)).trans ?_⟩
    refine (fulfilled_update_iff hp hparams).trans ((and_iff_right ?_).trans ?_)
    · intro told htold
      cases htold
      rfl
    · exact forall_congr' fun k => forall_congr' fun told => forall_congr' fun _ =>
        forall_congr' fun _ => eq_comm
  | delParam key =>
    obtain ⟨hs, hp, hc⟩ := delParam_view hsound key
    refine ⟨hs, (and_iff_left (fulfilled_congr hc hcookies)).trans ?_⟩
    refine (fulfilled_update_iff hp hparams).trans ?_
    rw [Allowed, ← find_eq_none]
    constructor
    · rintro ⟨hdue, hconf⟩
      have hgone := hdue none rfl
      exact ⟨hgone, fun k told hk htold => (hconf k told hk htold).symm.trans hgone⟩
    · rintro ⟨hgone, hconf⟩
      refine ⟨fun told htold => ?_, fun k told hk htold => ?_⟩
      · cases htold
        exact hgone
      · rw [hgone, hconf k told hk htold]
        rfl
  | setCookie key val =>
    obtain ⟨hs, hp, hc⟩ := setCookie_view hsound key val
    refine ⟨hs, (and_iff_right (fulfilled_congr hp hparams)).trans ?_⟩
    refine (fulfilled_update_iff hc hcookies).trans ((and_iff_right ?_).trans ?_)
    · intro told htold
      cases htold
    · refine forall_congr' fun k => ?_
      constructor
      · intro hnone hk
        cases htold : p.2.cookies (k.map toLower) with
        | none => rfl
        | some u => exact absurd (hnone u hk htold) (by simp)
      · intro hnone u hk htold
        rw [hnone hk] at htold
        cases htold
  | delCookie key =>
    obtain ⟨hs, hp, hc⟩ := delCookie_view hsound key
    refine ⟨hs, (and_iff_right (fulfilled_congr hp hparams)).trans ?_⟩
    refine (fulfilled_update_iff hc hcookies).trans ?_
    rw [Allowed, ← find_eq_none]
    constructor
    · intro hdue
      exact hdue.1 () rfl
    · intro hgone
      exact ⟨fun _ _ => hgone, fun _ _ _ _ => hgone⟩

theorem exec_total (p : ParamRequest × Told) (cs : List Call) :
    ∃ q, toldMachine.exec p cs = some q := by
  induction cs generalizing p with
  | nil => exact ⟨p, rfl⟩
  | cons c cs ih => exact ih _

/-- Deleted keys stay deleted, and keys that were set keep their values, exactly in the runs whose
calls are all allowed. -/
theorem deleted_stay_iff (request : HttpRequest) (cs : List Call) :
    toldMachine.Always Kept ({ request with }, {}) cs ↔
      toldMachine.Meets Allowed ({ request with }, {}) cs := by
  obtain ⟨q, hexec⟩ := exec_total ({ request with }, {}) cs
  refine Machine.always_iff_meets (I := Held) (fun _ h => h.2) ?_ ?_ ?_ hexec
  · intro p c q h hallowed hstep
    cases hstep
    obtain ⟨hsound, hkept⟩ := held_call c h
    exact ⟨hsound, hkept.mpr hallowed⟩
  · intro p c q h hnot hstep hkept
    cases hstep
    exact hnot ((held_call c h).2.mp hkept)
  · refine ⟨⟨List.Pairwise.nil, List.Pairwise.nil⟩, ?_⟩
    constructor
    · intro key h
      cases h
    · intro key val h
      cases h
    · intro key h
      cases h

/-- The query `a=1`: the key is there again after it was deleted. -/
theorem deleted_comes_back :
    ¬toldMachine.Always Kept ({ query := text "a=1" }, {}) [.delParam (text "a")] := by
  intro h
  have hkept := h.2 _ rfl
  have hgone := hkept.deleted (text "a") (by simp [Told.next])
  revert hgone
  decide

end Runs
end HxSylar.ParamRequest
