import Devrouter.Lib.GoText
import Devrouter.Lib.JsonLines

/-!
# The responses of a tool server

Model of `matchResponse` and of the types it decodes into, of `internal/mcpsource/transport.go`. What a candidate
decodes to does not depend on its layout (`decode_relaid`), but a body of type `application/json` is cut at its line
breaks first, and each line is a candidate: `parseJSON_returns_iff` says which bodies keep their response.
-/

namespace Devrouter.McpSource

open Json

/-! ### Decoding -/

structure RpcError where
  code : ℤ
  message : String
  deriving DecidableEq

/-- A field that is missing has no bytes. -/
structure RpcResponse where
  jsonrpc : String
  id : Bytes
  result : Option Bytes
  error : Option RpcError
  deriving DecidableEq

/-- What a value makes of an integer field: a number in 64 bits replaces it, a `null` leaves it. -/
def intoInt (old : ℤ) (value : Bytes) : Option ℤ :=
  if isNull value then some old else atoi (String.ofList (value.map fun b => Char.ofNat b.toNat))

def RpcError.setField (e : RpcError) (m : Member) : Option RpcError :=
  if isField "code" m.key then (intoInt e.code m.value).map fun v => { e with code := v }
  else if isField "message" m.key then (intoString e.message m.value).map fun v => { e with message := v }
  else some e

/-- What a value makes of the error of a response. -/
def intoError (old : Option RpcError) (value : Bytes) : Option (Option RpcError) :=
  if isNull value then some none
  else ((membersOf value).bind fun ms => ms.foldlM RpcError.setField (old.getD ⟨0, ""⟩)).map some

def RpcResponse.setField (r : RpcResponse) (m : Member) : Option RpcResponse :=
  if isField "jsonrpc" m.key then (intoString r.jsonrpc m.value).map fun v => { r with jsonrpc := v }
  else if isField "id" m.key then some { r with id := m.value }
  else if isField "result" m.key then some { r with result := some m.value }
  else if isField "error" m.key then (intoError r.error m.value).map fun v => { r with error := v }
  else some r

/-- `json.Unmarshal` of an object into an `rpcResponse`; none when it fails. -/
def unmarshalResponse (text : Bytes) : Option RpcResponse :=
  (objectMembers text).bind fun ms => ms.foldlM RpcResponse.setField ⟨"", [], none, none⟩

/-! ### Candidates -/

/-- A request or a notification has neither. -/
def RpcResponse.isResponse (r : RpcResponse) : Bool := r.result.isSome || r.error.isSome

def idMatches (raw : Bytes) (want : ℤ) : Bool :=
  if raw = [] then false
  else match intoInt 0 raw with
    | some n => decide (n = want)
    | none => false

/-- The response that a candidate is, if it is one. -/
def decode (candidate : Bytes) : Option RpcResponse :=
  match Json.trimSpace candidate with
  | [] => none
  | b :: t => if b ≠ byte '\x7b' then none else (unmarshalResponse (b :: t)).filter RpcResponse.isResponse

/-- The loop of `matchResponse`. -/
def matchFrom (wantID : ℤ) (last : Option RpcResponse) : List Bytes → Option RpcResponse
  | [] => last
  | c :: cs =>
    match decode c with
    | none => matchFrom wantID last cs
    | some r => if idMatches r.id wantID then some r else matchFrom wantID (some r) cs

def matchResponse (candidates : List Bytes) (wantID : ℤ) : Except String RpcResponse :=
  match matchFrom wantID none candidates with
  | some r => .ok r
  | none => .error "no JSON-RPC response found"

/-- A body of type `application/json`. -/
def parseJSON (data : Bytes) (wantID : ℤ) : Except String RpcResponse := matchResponse (splitLines data) wantID

/-! ### Layouts -/

section Layouts

/-- One response but for the white space in its result. -/
structure RpcResponse.Same (r r' : RpcResponse) : Prop where
  jsonrpc : r.jsonrpc = r'.jsonrpc
  id : r.id = r'.id
  result : r.result.map compact = r'.result.map compact
  error : r.error = r'.error

/-- The same while it is decoded. -/
structure RpcResponse.Alike (depth : ℕ) (r r' : RpcResponse) : Prop where
  jsonrpc : r.jsonrpc = r'.jsonrpc
  id : Json.Alike depth r.id r'.id
  result : Option.Rel (Json.Alike depth) r.result r'.result
  error : r.error = r'.error

variable {depth : ℕ} {x y : Bytes} {r r' : RpcResponse} {want : ℤ}

/-- An array or an object is no number. -/
theorem intoInt_bracket {b : UInt8} (hb : b = byte '[' ∨ b = byte '\x7b') (old : ℤ) (t : Bytes) :
    intoInt old (b :: t) = none := by
  have hnumber : ∀ c : Char, c.isDigit = false → c ≠ '-' → c ≠ '+' → ∀ cs, parseInt (String.ofList (c :: cs)) = none := by
    intro c hdigit hminus hplus cs
    simp [parseInt, hdigit, hminus, hplus]
  have hread : ∀ c : Char, Char.ofNat (byte c).toNat = c → c.isDigit = false → c ≠ '-' → c ≠ '+' → byte c ≠ byte 'n' →
      intoInt old (byte c :: t) = none := by
    intro c hc hdigit hminus hplus hn
    have hnull : ¬ isNull (byte c :: t) = true := fun h => hn (List.cons.inj (of_decide_eq_true h)).1
    rw [intoInt, if_neg hnull, List.map_cons, hc, atoi, hnumber c hdigit hminus hplus]
    rfl
  obtain rfl | rfl := hb
  · exact hread '[' (by decide) (by decide) (by decide) (by decide) (by decide)
  · exact hread '\x7b' (by decide) (by decide) (by decide) (by decide) (by decide)

theorem intoInt_alike (h : Alike depth x y) (old : ℤ) : intoInt old x = intoInt old y := by
  obtain rfl | ⟨b, s, t, rfl, rfl, hb⟩ := h.eq_or
  · rfl
  · rw [intoInt_bracket hb, intoInt_bracket hb]

theorem isNull_alike (h : Alike depth x y) : isNull x = isNull y := by
  obtain rfl | ⟨b, s, t, rfl, rfl, hb⟩ := h.eq_or
  · rfl
  · have hnull : ∀ u : Bytes, isNull (b :: u) = false := by
      intro u
      refine decide_eq_false fun heq => ?_
      obtain rfl := (List.cons.inj heq).1
      exact absurd hb (by decide)
    rw [hnull, hnull]

theorem map_eq_of_rel {α β : Type} {R : α → α → Prop} {o o' : Option α} (h : Option.Rel R o o') {f : α → β}
    (hf : ∀ {a a'}, R a a' → f a = f a') : o.map f = o'.map f := by
  cases h with
  | none => rfl
  | some h => exact congrArg some (hf h)

/-- A field that both leave alone, or set to the same. -/
theorem rel_map_of_eq {σ α : Type} {R : σ → σ → Prop} {o o' : Option α} (h : o = o') {f f' : α → σ}
    (hf : ∀ a, R (f a) (f' a)) : Option.Rel R (o.map f) (o'.map f') := by
  subst h
  cases o with
  | none => exact .none
  | some a => exact .some (hf a)

theorem setField_error {e e' : RpcError} {m m' : Member} (he : e = e') (hm : m.Like (Alike depth) m') :
    Option.Rel Eq (e.setField m) (e'.setField m') := by
  obtain ⟨hkey, hvalue⟩ := hm
  subst he
  rw [RpcError.setField, RpcError.setField, hkey, intoInt_alike hvalue, hvalue.intoString]
  split_ifs
  · exact rel_map_of_eq rfl fun _ => rfl
  · exact rel_map_of_eq rfl fun _ => rfl
  · exact .some rfl

/-- The error of a response in another layout. -/
theorem intoError_alike (h : Alike depth x y) (hdepth : depth ≤ maxNestingDepth) (old : Option RpcError) :
    intoError old x = intoError old y := by
  rw [intoError, intoError, isNull_alike h]
  have hmembers := h.membersOf hdepth
  generalize membersOf x = o, membersOf y = o' at hmembers
  cases hmembers with
  | none => rfl
  | some hlike =>
    have hrel := foldlM_rel (R := Eq) (fun he hm => setField_error he hm) hlike (Eq.refl (old.getD ⟨0, ""⟩))
    have heq := map_eq_of_rel hrel (congrArg some)
    exact congrArg (fun o => if isNull y = true then some none else o) heq

theorem setField_alike {m m' : Member} (hr : r.Alike depth r') (hm : m.Like (Json.Alike depth) m')
    (hdepth : depth ≤ maxNestingDepth) : Option.Rel (RpcResponse.Alike depth) (r.setField m) (r'.setField m') := by
  obtain ⟨hkey, hvalue⟩ := hm
  obtain ⟨hjsonrpc, hid, hresult, herror⟩ := hr
  rw [RpcResponse.setField, RpcResponse.setField, hkey, hjsonrpc, hvalue.intoString, herror,
    intoError_alike hvalue hdepth]
  split_ifs
  · exact rel_map_of_eq rfl fun _ => ⟨rfl, hid, hresult, rfl⟩
  · exact .some ⟨rfl, hvalue, hresult, rfl⟩
  · exact .some ⟨rfl, hid, .some hvalue, rfl⟩
  · exact rel_map_of_eq rfl fun _ => ⟨rfl, hid, hresult, rfl⟩
  · exact .some ⟨hjsonrpc, hid, hresult, herror⟩

theorem RpcResponse.Alike.isResponse (h : r.Alike depth r') : r.isResponse = r'.isResponse := by
  obtain ⟨-, -, hresult, herror⟩ := h
  have hsome := congrArg Option.isSome (map_eq_of_rel (f := fun _ => ()) hresult fun _ => rfl)
  rw [Option.isSome_map, Option.isSome_map] at hsome
  rw [RpcResponse.isResponse, RpcResponse.isResponse, herror, hsome]

/-- An id that is a number is the same in every layout. -/
theorem RpcResponse.Alike.same (h : r.Alike depth r') (hid : idMatches r.id want = true) : r.Same r' := by
  obtain ⟨hjsonrpc, hids, hresult, herror⟩ := h
  refine ⟨hjsonrpc, ?_, ?_, herror⟩
  · obtain heq | ⟨b, s, t, hb, -, hbracket⟩ := hids.eq_or
    · exact heq
    · rw [hb, idMatches, if_neg (List.cons_ne_nil _ _), intoInt_bracket hbracket] at hid
      cases hid
  · exact map_eq_of_rel hresult Json.Alike.compact_eq

/-- A text is the response. -/
def IsText (text : Bytes) (r : RpcResponse) : Prop := unmarshalResponse text = some r ∧ r.isResponse = true

/-- **What a candidate decodes to** does not depend on its layout. -/
theorem decode_relaid (h : IsText x r) : ∃ g v g' toks, Gap g ∧ Gap g' ∧ x = g ++ v ++ g' ∧ Laid toks v ∧
    ∀ v', Laid toks v' → ∀ u u', Gap u → Gap u' →
      ∃ r', decode (u ++ v' ++ u') = some r' ∧ r.Alike (maxNestingDepth - 1) r' := by
  -- the text is an object, and its members are alike in every layout
  obtain ⟨hread, hresponse⟩ := h
  obtain ⟨ms, hms, hfold⟩ := Option.bind_eq_some_iff.mp hread
  obtain ⟨g, v, g', toks, hg, hg', heq, hlaid, hhead, hlike⟩ := objectMembers_relaid hms
  refine ⟨g, v, g', toks, hg, hg', heq, hlaid, fun v' hv' u u' hu hu' => ?_⟩
  obtain ⟨ms', hms', hmembers⟩ := hlike v' hv' [] [] gap_nil gap_nil
  rw [List.append_nil, List.nil_append] at hms'
  obtain ⟨t, rfl⟩ := List.head?_eq_some_iff.mp (hlaid.head?_eq hv' ▸ hhead)
  have hstart : RpcResponse.Alike (maxNestingDepth - 1) ⟨"", [], none, none⟩ ⟨"", [], none, none⟩ :=
    ⟨rfl, .refl _ _, .none, rfl⟩
  -- the members are read one after the other, and alike ones set alike fields
  have hrel := foldlM_rel (fun hr hm => setField_alike hr hm (Nat.sub_le _ _)) hmembers hstart
  rw [hfold] at hrel
  generalize hfold' : ms'.foldlM RpcResponse.setField ⟨"", [], none, none⟩ = o at hrel
  cases hrel with
  | @some _ r' halike =>
    refine ⟨r', ?_, halike⟩
    have hread' : unmarshalResponse (byte '\x7b' :: t) = some r' := by
      rw [unmarshalResponse, hms']
      exact hfold'
    rw [decode, hv'.trimSpace_eq hu hu']
    show (if byte '\x7b' ≠ byte '\x7b' then none else (unmarshalResponse (byte '\x7b' :: t)).filter _) = _
    rw [if_neg (not_not.mpr rfl), hread', Option.filter_some_pos (halike.isResponse ▸ hresponse)]

end Layouts

/-! ### The response that is returned -/

section Matching

variable {want : ℤ} {r : RpcResponse} {c body : Bytes} {cs : List Bytes}

/-- The response of a text is returned. -/
def Returns (res : Except String RpcResponse) (r : RpcResponse) : Prop := ∃ r', res = .ok r' ∧ r.Same r'

/-- A candidate is a response with the id. -/
def Answers (want : ℤ) (c : Bytes) : Prop := ∃ r, decode c = some r ∧ idMatches r.id want = true

/-- The first answer is returned. -/
theorem matchFrom_answer {before after : List Bytes} (hbefore : ∀ c ∈ before, ¬ Answers want c) (hr : decode c = some r)
    (hid : idMatches r.id want = true) (last : Option RpcResponse) :
    matchFrom want last (before ++ c :: after) = some r := by
  induction before generalizing last with
  | nil =>
    rw [List.nil_append, matchFrom, hr]
    exact if_pos hid
  | cons b before ih =>
    obtain ⟨hb, hbefore⟩ := List.forall_mem_cons.mp hbefore
    rw [List.cons_append, matchFrom]
    cases hdecode : decode b with
    | none => exact ih hbefore last
    | some r' =>
      have hno : ¬ idMatches r'.id want = true := fun h => hb ⟨r', hdecode, h⟩
      show (if idMatches r'.id want then some r' else _) = _
      rw [if_neg hno]
      exact ih hbefore (some r')

/-- What is returned with the id is the first answer. -/
theorem exists_of_matchFrom {last : Option RpcResponse} (hlast : ∀ l ∈ last, ¬ idMatches l.id want = true)
    (h : matchFrom want last cs = some r) (hid : idMatches r.id want = true) :
    ∃ before c after, cs = before ++ c :: after ∧ decode c = some r ∧ ∀ c ∈ before, ¬ Answers want c := by
  induction cs generalizing last with
  | nil => exact absurd hid (hlast r h)
  | cons c cs ih =>
    rw [matchFrom] at h
    cases hdecode : decode c with
    | none =>
      -- a candidate that is no response is passed over
      rw [hdecode] at h
      obtain ⟨before, d, after, rfl, hd, hbefore⟩ := ih hlast h
      refine ⟨c :: before, d, after, rfl, hd, List.forall_mem_cons.mpr ⟨?_, hbefore⟩⟩
      rintro ⟨r', hr', -⟩
      rw [hdecode] at hr'
      cases hr'
    | some r' =>
      rw [hdecode] at h
      replace h : (if idMatches r'.id want then some r' else matchFrom want (some r') cs) = some r := h
      -- the first one with the id is returned, and any other is kept as the last
      by_cases hmatch : idMatches r'.id want = true
      · rw [if_pos hmatch] at h
        obtain rfl := Option.some.inj h
        exact ⟨[], c, cs, rfl, hdecode, fun _ hc => absurd hc List.not_mem_nil⟩
      · rw [if_neg hmatch] at h
        have hlast' : ∀ l ∈ some r', ¬ idMatches l.id want = true := by
          rintro l ⟨⟩
          exact hmatch
        obtain ⟨before, d, after, rfl, hd, hbefore⟩ := ih hlast' h
        refine ⟨c :: before, d, after, rfl, hd, List.forall_mem_cons.mpr ⟨?_, hbefore⟩⟩
        rintro ⟨r'', hr'', hid''⟩
        rw [hdecode] at hr''
        obtain rfl := Option.some.inj hr''
        exact hmatch hid''

/-- Nothing is returned where no candidate is a response. -/
theorem matchFrom_eq_none_iff : matchFrom want none cs = none ↔ ∀ c ∈ cs, decode c = none := by
  -- once a response was found there is one to return
  have hsome : ∀ (cs : List Bytes) (l : RpcResponse), matchFrom want (some l) cs ≠ none := by
    intro cs
    induction cs with
    | nil => exact fun l h => Option.some_ne_none l h
    | cons c cs ih =>
      intro l
      rw [matchFrom]
      cases decode c with
      | none => exact ih l
      | some r =>
        show (if idMatches r.id want then some r else matchFrom want (some r) cs) ≠ none
        split
        · exact Option.some_ne_none r
        · exact ih r
  induction cs with
  | nil => simp [matchFrom]
  | cons c cs ih =>
    rw [matchFrom, List.forall_mem_cons]
    cases hdecode : decode c with
    | none => simpa using ih
    | some r =>
      refine iff_of_false ?_ fun h => Option.some_ne_none r h.1
      show ¬ (if idMatches r.id want then some r else matchFrom want (some r) cs) = none
      split
      · exact Option.some_ne_none r
      · exact hsome cs r

theorem matchResponse_error_iff : (∃ e, matchResponse cs want = .error e) ↔ ∀ c ∈ cs, decode c = none := by
  have hnone : matchFrom want none cs = none ↔ ∀ c ∈ cs, decode c = none := matchFrom_eq_none_iff
  rw [← hnone, matchResponse]
  cases matchFrom want none cs with
  | none => simp
  | some r => simp

/-- No line break is in the text but for white space around it. -/
def OneLine (body : Bytes) : Prop := byte '\n' ∉ Json.trimSpace body

/-- A line by itself is the response, and none before it answers. -/
def LineReturns (want : ℤ) (body : Bytes) (r : RpcResponse) : Prop :=
  ∃ before l after, splitLines body = before ++ l :: after ∧ (∃ r', decode l = some r' ∧ r.Same r') ∧
    ∀ c ∈ before, ¬ Answers want c

theorem decode_gap {g : Bytes} (hg : Gap g) : decode g = none := by
  rw [decode, trimSpace_gap hg]

theorem OneLine.lineReturns (hbody : IsText body r) (hid : idMatches r.id want = true) (h : OneLine body) :
    LineReturns want body r := by
  obtain ⟨g, v, g', toks, hg, hg', rfl, hlaid, hread⟩ := decode_relaid hbody
  rw [OneLine, hlaid.trimSpace_eq hg hg'] at h
  obtain ⟨before, u, u', after, hlines, hbefore, hu, hu'⟩ := splitLines_value hg hg' h
  obtain ⟨r', hr', halike⟩ := hread v hlaid u u' hu hu'
  refine ⟨before, _, after, hlines, ⟨r', hr', halike.same hid⟩, ?_⟩
  rintro c hc ⟨r'', hr'', -⟩
  rw [decode_gap (hbefore c hc)] at hr''
  cases hr''

/-- **Bodies of type `application/json`** keep their response where it has no line break. -/
theorem parseJSON_returns_iff (hbody : IsText body r) (hid : idMatches r.id want = true) :
    Returns (parseJSON body want) r ↔ OneLine body ∨ LineReturns want body r := by
  have hiff : Returns (parseJSON body want) r ↔ LineReturns want body r := by
    rw [parseJSON, matchResponse]
    constructor
    · -- the line that is returned is the first that answers
      rintro ⟨r', hr', hsame⟩
      cases hmatch : matchFrom want none (splitLines body) with
      | none =>
        rw [hmatch] at hr'
        cases hr'
      | some s =>
        rw [hmatch] at hr'
        obtain rfl := Except.ok.inj hr'
        obtain ⟨before, l, after, hlines, hl, hbefore⟩ :=
          exists_of_matchFrom (fun l hl => absurd hl (Option.not_mem_none l)) hmatch (hsame.id ▸ hid)
        exact ⟨before, l, after, hlines, ⟨s, hl, hsame⟩, hbefore⟩
    · rintro ⟨before, l, after, hlines, ⟨r', hl, hsame⟩, hbefore⟩
      rw [hlines, matchFrom_answer hbefore hl (hsame.id ▸ hid)]
      exact ⟨r', rfl, hsame⟩
  rw [hiff]
  exact ⟨.inr, fun h => h.elim (OneLine.lineReturns hbody hid) id⟩

end Matching

end Devrouter.McpSource
