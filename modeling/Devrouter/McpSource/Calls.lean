import Devrouter.McpSource.EventStream
import Devrouter.McpSource.Mappers

/-!
# Failed calls

Model of `call` of the four transports (`transport.go`, `openapi.go`) and of `Source.Search` (`source.go`), with what a
server answers left free: for HTTP a status and a body or no answer, for a subprocess the lines that are read before
its output ends or time is up. The requests themselves are left out.

`failed_call_iff` says for which calls a failure ends in an error: for all but a result that is flagged as an error
(`isError`), which `extractText` decodes and does not look at.
-/

namespace Devrouter.McpSource

open Json

/-! ### Calls -/

inductive CallError where
  /-- No answer: a connection, a timeout, a pipe, a body that is cut off. -/
  | failed
  | returned (request : String) (status : ℕ) (body : Bytes)
  | undecodable (text : String)
  | rpc (e : RpcError)
  | greeting (e : CallError)
  deriving DecidableEq

/-- How an HTTP request ends; the sizes are those of the reads of its body. -/
inductive HttpAnswer where
  | failed
  | answered (status : ℕ) (contentType : String) (body : Bytes) (sizes : List ℕ)

/-- `call` of the transports without a protocol of their own. -/
def plainCall (request : String) : HttpAnswer → Except CallError Bytes
  | .failed => .error .failed
  | .answered status _ body _ =>
    if status / 100 ≠ 2 then .error (.returned request status []) else .ok (body.take bodyLimit)

def httpJSONCall : HttpAnswer → Except CallError Bytes := plainCall "http-json"

def openAPICall : HttpAnswer → Except CallError Bytes := plainCall "openapi"

/-- `rpc` of `mcpHTTPTransport`. -/
def httpRpc (method : String) (wantID : ℤ) : HttpAnswer → Except CallError RpcResponse
  | .failed => .error .failed
  | .answered status contentType body sizes =>
    if status / 100 ≠ 2 then .error (.returned ("mcp " ++ method) status (Json.trimSpace (body.take (64 * 2 ^ 10))))
    else (parseRPCResponse contentType body sizes wantID).mapError .undecodable

/-- `rpc` of `mcpStdioTransport`: none where the request is not written. -/
def stdioRpc (id : ℤ) : Option (List Bytes) → Except CallError RpcResponse
  | none => .error .failed
  | some lines =>
    match lines.findSome? fun l => (decode l).filter fun r => idMatches r.id id with
    | some r => .ok r
    | none => .error .failed

/-- What both transports make of the response to `tools/call`. -/
def toolText (resp : Except CallError RpcResponse) : Except CallError Bytes :=
  resp.bind fun r =>
    match r.error with
    | some e => .error (.rpc e)
    | none => .ok (extractText (r.result.getD []))

structure HTTPSession where
  idSeq : ℤ
  initialized : Bool

/-- `handshake`, up to its notification. -/
def HTTPSession.handshake (t : HTTPSession) (greeting : HttpAnswer) : Except CallError HTTPSession :=
  match httpRpc "initialize" (t.idSeq + 1) greeting with
  | .error e => .error (.greeting e)
  | .ok r =>
    match r.error with
    | some e => .error (.greeting (.rpc e))
    | none => .ok ⟨t.idSeq + 1, true⟩

def HTTPSession.call (t : HTTPSession) (greeting reply : HttpAnswer) : Except CallError Bytes :=
  (if t.initialized then .ok t else t.handshake greeting).bind fun t =>
    toolText (httpRpc "tools/call" (t.idSeq + 1) reply)

structure StdioSession where
  idSeq : ℤ
  started : Bool
  initialized : Bool

/-- What a subprocess does in a call, as far as the call gets. -/
structure StdioAnswers where
  starts : Bool
  greeting : Option (List Bytes)
  notified : Bool
  reply : Option (List Bytes)

/-- The error of a response to `initialize` is not looked at. -/
def StdioSession.handshake (t : StdioSession) (a : StdioAnswers) : Except CallError StdioSession :=
  match stdioRpc (t.idSeq + 1) a.greeting with
  | .error e => .error (.greeting e)
  | .ok _ => if a.notified then .ok ⟨t.idSeq + 1, true, true⟩ else .error .failed

def StdioSession.call (t : StdioSession) (a : StdioAnswers) : Except CallError Bytes :=
  if t.started = false ∧ a.starts = false then .error .failed
  else (if t.initialized then .ok t else t.handshake a).bind fun t => toolText (stdioRpc (t.idSeq + 1) a.reply)

/-- A call of one of the transports, and what is answered in it. -/
inductive Call where
  | httpJSON (reply : HttpAnswer)
  | openAPI (reply : HttpAnswer)
  | mcpHTTP (t : HTTPSession) (greeting reply : HttpAnswer)
  | mcpStdio (t : StdioSession) (a : StdioAnswers)

def Call.run : Call → Except CallError Bytes
  | .httpJSON reply => httpJSONCall reply
  | .openAPI reply => openAPICall reply
  | .mcpHTTP t greeting reply => t.call greeting reply
  | .mcpStdio t a => t.call a

/-! ### Sources -/

structure Source where
  name : Bytes
  mapFn : Bytes → Except String (List DocEntry)
  maxDoc : ℕ

inductive SearchError where
  | call (e : CallError)
  | mapResult (text : String)
  deriving DecidableEq

/-- `Search` with what its call returns; `maxDocs` is the request's, or none. -/
def Source.search (s : Source) (maxDocs : ℕ) (text : Except CallError Bytes) : Except SearchError (List DocEntry) :=
  match text with
  | .error e => .error (.call e)
  | .ok text =>
    match s.mapFn text with
    | .error e => .error (.mapResult e)
    | .ok docs =>
      .ok ((docs.map fun d => if d.source = [] then { d with source := s.name } else d).take
        (if 0 < maxDocs then maxDocs else s.maxDoc))

/-- The documents of a search. -/
def documents (res : Except SearchError (List DocEntry)) : List DocEntry := res.toOption.getD []

/-! ### Failures -/

section Failures

/-- The parts of a body that can be a response; none where a line of a stream is too long. -/
def candidates (contentType : String) (body : Bytes) (sizes : List ℕ) : Option (List Bytes) :=
  if isEventStream contentType then
    (streamEvents (body.take bodyLimit) sizes).map (·.map fun e => joinLines (e.map Flushed.found))
  else some (splitLines (body.take bodyLimit))

/-- No part of a body is a response. -/
def Undecodable (contentType : String) (body : Bytes) (sizes : List ℕ) : Prop :=
  ∀ cs, candidates contentType body sizes = some cs → ∀ c ∈ cs, decode c = none

/-- A result of `tools/call` with `isError`. -/
def FlaggedResult (raw : Bytes) : Prop := ∃ ms, objectMembers raw = some ms ∧ lookup ms "isError" = some (bytes "true")

/-- No answer, or a status that is none of success. -/
def HttpAnswer.Refuses : HttpAnswer → Prop
  | .failed => True
  | .answered status _ _ _ => ¬ (200 ≤ status ∧ status < 300)

/-- Neither, but no response or the error of one. -/
def HttpAnswer.Fails (wantID : ℤ) : HttpAnswer → Prop
  | .failed => True
  | .answered status contentType body sizes =>
    ¬ (200 ≤ status ∧ status < 300) ∨ Undecodable contentType body sizes ∨
      ∃ r, parseRPCResponse contentType body sizes wantID = .ok r ∧ r.error ≠ none

/-- A response whose result is flagged. -/
def HttpAnswer.Flags (wantID : ℤ) : HttpAnswer → Prop
  | .failed => False
  | .answered status contentType body sizes => (200 ≤ status ∧ status < 300) ∧
      ∃ r raw, parseRPCResponse contentType body sizes wantID = .ok r ∧ r.error = none ∧ r.result = some raw ∧
        FlaggedResult raw

/-- The first of the lines that is a response with the id. -/
def FirstAnswer (id : ℤ) (lines : List Bytes) (r : RpcResponse) : Prop :=
  ∃ before l after, lines = before ++ l :: after ∧ decode l = some r ∧ idMatches r.id id = true ∧
    ∀ c ∈ before, ¬ Answers id c

/-- No line answers, or nothing was asked. -/
def Unanswered (id : ℤ) (lines : Option (List Bytes)) : Prop := ∀ ls, lines = some ls → ∀ l ∈ ls, ¬ Answers id l

def LinesFail (id : ℤ) (lines : Option (List Bytes)) : Prop :=
  Unanswered id lines ∨ ∃ ls r, lines = some ls ∧ FirstAnswer id ls r ∧ r.error ≠ none

def LinesFlag (id : ℤ) (lines : Option (List Bytes)) : Prop :=
  ∃ ls r raw, lines = some ls ∧ FirstAnswer id ls r ∧ r.error = none ∧ r.result = some raw ∧ FlaggedResult raw

/-- The id of `tools/call`. -/
def HTTPSession.callID (t : HTTPSession) : ℤ := if t.initialized then t.idSeq + 1 else t.idSeq + 1 + 1

def StdioSession.callID (t : StdioSession) : ℤ := if t.initialized then t.idSeq + 1 else t.idSeq + 1 + 1

/-- `tools/call` is not sent. -/
def HTTPSession.Unsent (t : HTTPSession) (greeting : HttpAnswer) : Prop :=
  t.initialized = false ∧ greeting.Fails (t.idSeq + 1)

def StdioSession.Unsent (t : StdioSession) (a : StdioAnswers) : Prop :=
  t.started = false ∧ a.starts = false ∨
    t.initialized = false ∧ (Unanswered (t.idSeq + 1) a.greeting ∨ a.notified = false)

/-- The tool call was not made, or it failed at one of its layers. -/
def Call.Failed : Call → Prop
  | .httpJSON reply => reply.Refuses
  | .openAPI reply => reply.Refuses
  | .mcpHTTP t greeting reply => t.Unsent greeting ∨ reply.Fails t.callID ∨ reply.Flags t.callID
  | .mcpStdio t a => t.Unsent a ∨ LinesFail t.callID a.reply ∨ LinesFlag t.callID a.reply

/-- The tool call was made, and its result is flagged as an error. -/
def Call.Flagged : Call → Prop
  | .httpJSON _ => False
  | .openAPI _ => False
  | .mcpHTTP t greeting reply => ¬ t.Unsent greeting ∧ reply.Flags t.callID
  | .mcpStdio t a => ¬ t.Unsent a ∧ LinesFlag t.callID a.reply

end Failures

/-! ### What fails in an error -/

section Errors

variable {contentType : String} {body : Bytes} {sizes : List ℕ} {id : ℤ} {a : HttpAnswer} {status : ℕ}

theorem undecodable_iff : Undecodable contentType body sizes ↔
    ∃ e, parseRPCResponse contentType body sizes id = .error e := by
  rw [Undecodable, candidates, parseRPCResponse]
  by_cases hstream : isEventStream contentType = true
  · simp only [if_pos hstream, parseSSE]
    cases streamEvents (body.take bodyLimit) sizes with
    | none => simp
    | some events => simp [matchResponse_error_iff]
  · simp only [if_neg hstream, parseJSON, matchResponse_error_iff]
    simp

theorem success_iff : status / 100 ≠ 2 ↔ ¬ (200 ≤ status ∧ status < 300) := by omega

/-- A request over HTTP that fails is an error, or has the error of its response. -/
theorem HttpAnswer.Fails.httpRpc (h : a.Fails id) (method : String) : (∃ e, httpRpc method id a = .error e) ∨
    ∃ r, Devrouter.McpSource.httpRpc method id a = .ok r ∧ r.error ≠ none := by
  cases a with
  | failed => exact .inl ⟨_, rfl⟩
  | answered status contentType body sizes =>
    rw [Devrouter.McpSource.httpRpc]
    by_cases hstatus : status / 100 ≠ 2
    · rw [if_pos hstatus]
      exact .inl ⟨_, rfl⟩
    · rw [if_neg hstatus]
      obtain hrefused | hnone | ⟨r, hr, herror⟩ := h
      · exact absurd (success_iff.mpr hrefused) hstatus
      · obtain ⟨e, he⟩ := undecodable_iff.mp hnone
        rw [he]
        exact .inl ⟨_, rfl⟩
      · rw [hr]
        exact .inr ⟨r, rfl, herror⟩

theorem httpRpc_of_not_fails (h : ¬ a.Fails id) (method : String) :
    ∃ r, httpRpc method id a = .ok r ∧ r.error = none := by
  cases a with
  | failed => exact absurd trivial h
  | answered status contentType body sizes =>
    rw [HttpAnswer.Fails, not_or, not_or] at h
    obtain ⟨hstatus, hsome, herror⟩ := h
    rw [httpRpc, if_neg (fun hne => hstatus (success_iff.mp hne))]
    cases hparse : parseRPCResponse contentType body sizes id with
    | error e => exact absurd (undecodable_iff.mpr ⟨e, hparse⟩) hsome
    | ok r =>
      refine ⟨r, rfl, ?_⟩
      by_contra hne
      exact herror ⟨r, hparse, hne⟩

theorem HttpAnswer.Flags.not_fails (h : a.Flags id) : ¬ a.Fails id := by
  cases a with
  | failed => exact False.elim h
  | answered status contentType body sizes =>
    obtain ⟨hstatus, r, raw, hr, herror, -⟩ := h
    rintro (hrefused | hnone | ⟨r', hr', hne⟩)
    · exact hrefused hstatus
    · obtain ⟨e, he⟩ := undecodable_iff.mp hnone
      rw [hr] at he
      cases he
    · obtain rfl := Except.ok.inj (hr.symm.trans hr')
      exact hne herror

theorem firstAnswer_of_not_unanswered {lines : Option (List Bytes)} (h : ¬ Unanswered id lines) :
    ∃ ls r, lines = some ls ∧ FirstAnswer id ls r := by
  simp only [Unanswered, not_forall, not_not] at h
  obtain ⟨ls, rfl, l, hl, hanswer⟩ := h
  suffices hfirst : ∃ r, FirstAnswer id ls r from hfirst.elim fun r hr => ⟨ls, r, rfl, hr⟩
  induction ls with
  | nil => cases hl
  | cons c ls ih =>
    by_cases hc : Answers id c
    · obtain ⟨r, hr, hid⟩ := hc
      exact ⟨r, [], c, ls, rfl, hr, hid, fun _ hmem => absurd hmem List.not_mem_nil⟩
    · have hmem : l ∈ ls := by
        obtain rfl | hmem := List.mem_cons.mp hl
        · exact absurd hanswer hc
        · exact hmem
      obtain ⟨r, before, d, after, rfl, hr, hid, hbefore⟩ := ih hmem
      exact ⟨r, c :: before, d, after, rfl, hr, hid, List.forall_mem_cons.mpr ⟨hc, hbefore⟩⟩

/-- The first answer is the response. -/
theorem FirstAnswer.stdioRpc {ls : List Bytes} {r : RpcResponse} (h : FirstAnswer id ls r) :
    Devrouter.McpSource.stdioRpc id (some ls) = .ok r := by
  obtain ⟨before, l, after, rfl, hr, hid, hbefore⟩ := h
  have hskip : ∀ c ∈ before, (decode c).filter (fun r => idMatches r.id id) = none := by
    intro c hc
    rw [Option.filter_eq_none_iff]
    exact fun r' hr' hid' => hbefore c hc ⟨r', hr', hid'⟩
  have hfound : (before ++ l :: after).findSome? (fun l => (decode l).filter fun r => idMatches r.id id) = some r := by
    rw [List.findSome?_append, List.findSome?_eq_none_iff.mpr hskip, Option.none_or, List.findSome?_cons, hr,
      Option.filter_some, if_pos hid]
  simp only [Devrouter.McpSource.stdioRpc, hfound]

theorem Unanswered.stdioRpc {lines : Option (List Bytes)} (h : Unanswered id lines) :
    Devrouter.McpSource.stdioRpc id lines = .error .failed := by
  cases lines with
  | none => rfl
  | some ls =>
    have hnone : ls.findSome? (fun l => (decode l).filter fun r => idMatches r.id id) = none := by
      rw [List.findSome?_eq_none_iff]
      intro l hl
      rw [Option.filter_eq_none_iff]
      exact fun r hr hid => h ls rfl l hl ⟨r, hr, hid⟩
    simp only [Devrouter.McpSource.stdioRpc, hnone]

theorem toolText_error {resp : Except CallError RpcResponse}
    (h : (∃ e, resp = .error e) ∨ ∃ r, resp = .ok r ∧ r.error ≠ none) : ∃ e, toolText resp = .error e := by
  obtain ⟨e, rfl⟩ | ⟨r, rfl, hne⟩ := h
  · exact ⟨e, rfl⟩
  · obtain ⟨e, he⟩ := Option.ne_none_iff_exists'.mp hne
    refine ⟨.rpc e, ?_⟩
    show (match r.error with
      | some e => _
      | none => _) = _
    rw [he]

theorem toolText_ok {r : RpcResponse} (h : r.error = none) : ∃ text, toolText (.ok r) = .ok text := by
  refine ⟨extractText (r.result.getD []), ?_⟩
  show (match r.error with
    | some e => _
    | none => _) = _
  rw [h]

end Errors

/-! ### Searches -/

section Searches

variable {t : HTTPSession} {u : StdioSession} {greeting reply : HttpAnswer} {a : StdioAnswers}

theorem HTTPSession.call_of_unsent (h : t.Unsent greeting) (reply : HttpAnswer) :
    ∃ e, t.call greeting reply = .error e := by
  obtain ⟨hinit, hfails⟩ := h
  have hhandshake : ∃ e, t.handshake greeting = .error e := by
    obtain ⟨e, he⟩ | ⟨r, hr, hne⟩ := hfails.httpRpc "initialize"
    · exact ⟨.greeting e, by simp only [HTTPSession.handshake, he]⟩
    · obtain ⟨e, he⟩ := Option.ne_none_iff_exists'.mp hne
      exact ⟨.greeting (.rpc e), by simp only [HTTPSession.handshake, hr, he]⟩
  obtain ⟨e, he⟩ := hhandshake
  refine ⟨e, ?_⟩
  rw [HTTPSession.call, hinit, he]
  rfl

theorem HTTPSession.call_of_sent (h : ¬ t.Unsent greeting) (reply : HttpAnswer) :
    t.call greeting reply = toolText (httpRpc "tools/call" t.callID reply) := by
  rw [HTTPSession.call, HTTPSession.callID]
  cases hinit : t.initialized with
  | true => rfl
  | false =>
    have hfails : ¬ greeting.Fails (t.idSeq + 1) := fun hfails => h ⟨hinit, hfails⟩
    obtain ⟨r, hr, hnone⟩ := httpRpc_of_not_fails hfails "initialize"
    have hhandshake : t.handshake greeting = .ok ⟨t.idSeq + 1, true⟩ := by
      simp only [HTTPSession.handshake, hr, hnone]
    simp only [Bool.false_eq_true, if_false, hhandshake]
    rfl

theorem StdioSession.call_of_unsent (h : u.Unsent a) : ∃ e, u.call a = .error e := by
  rw [StdioSession.call]
  by_cases hstart : u.started = false ∧ a.starts = false
  · rw [if_pos hstart]
    exact ⟨_, rfl⟩
  · rw [if_neg hstart]
    obtain ⟨hinit, hgreeting⟩ := h.resolve_left hstart
    have hhandshake : ∃ e, u.handshake a = .error e := by
      by_cases hnone : Unanswered (u.idSeq + 1) a.greeting
      · exact ⟨.greeting .failed, by simp only [StdioSession.handshake, hnone.stdioRpc]⟩
      · obtain ⟨ls, r, hls, hr⟩ := firstAnswer_of_not_unanswered hnone
        have hnotified : a.notified = false := hgreeting.resolve_left hnone
        exact ⟨.failed, by simp [StdioSession.handshake, hls, hr.stdioRpc, hnotified]⟩
    obtain ⟨e, he⟩ := hhandshake
    refine ⟨e, ?_⟩
    rw [hinit, he]
    rfl

theorem StdioSession.call_of_sent (h : ¬ u.Unsent a) : u.call a = toolText (stdioRpc u.callID a.reply) := by
  rw [StdioSession.Unsent, not_or] at h
  obtain ⟨hstart, hgreeting⟩ := h
  rw [StdioSession.call, if_neg hstart, StdioSession.callID]
  cases hinit : u.initialized with
  | true => rfl
  | false =>
    have hsent : ¬ Unanswered (u.idSeq + 1) a.greeting ∧ a.notified = true := by
      rw [not_and, not_or, Bool.not_eq_false] at hgreeting
      exact hgreeting hinit
    obtain ⟨ls, r, hls, hr⟩ := firstAnswer_of_not_unanswered hsent.1
    have hhandshake : u.handshake a = .ok ⟨u.idSeq + 1, true, true⟩ := by
      simp [StdioSession.handshake, hls, hr.stdioRpc, hsent.2]
    simp only [Bool.false_eq_true, if_false, hhandshake]
    rfl

/-- A flagged result is returned like any other. -/
theorem Call.Flagged.run {c : Call} (h : c.Flagged) : c.Failed ∧ ∃ text, c.run = .ok text := by
  cases c with
  | httpJSON reply => exact False.elim h
  | openAPI reply => exact False.elim h
  | mcpHTTP t greeting reply =>
    obtain ⟨hsent, hflags⟩ := h
    obtain ⟨r, hr, hnone⟩ := httpRpc_of_not_fails hflags.not_fails "tools/call"
    refine ⟨.inr (.inr hflags), ?_⟩
    rw [Call.run, HTTPSession.call_of_sent hsent, hr]
    exact toolText_ok hnone
  | mcpStdio t a =>
    obtain ⟨hsent, hflags⟩ := h
    obtain ⟨ls, r, raw, hls, hr, hnone, -⟩ := id hflags
    refine ⟨.inr (.inr hflags), ?_⟩
    rw [Call.run, StdioSession.call_of_sent hsent, hls, hr.stdioRpc]
    exact toolText_ok hnone

/-- Every other failure is an error. -/
theorem Call.Failed.run {c : Call} (h : c.Failed) (hflagged : ¬ c.Flagged) : ∃ e, c.run = .error e := by
  have hplain : ∀ {request : String} {reply : HttpAnswer}, reply.Refuses → ∃ e, plainCall request reply = .error e := by
    intro request reply hrefuses
    cases reply with
    | failed => exact ⟨_, rfl⟩
    | answered status contentType body sizes =>
      rw [plainCall, if_pos (success_iff.mpr hrefuses)]
      exact ⟨_, rfl⟩
  -- each transport refuses to send, or sends and reads what the reply says
  cases c with
  | httpJSON reply => exact hplain h
  | openAPI reply => exact hplain h
  | mcpHTTP t greeting reply =>
    by_cases hsent : t.Unsent greeting
    · exact HTTPSession.call_of_unsent hsent reply
    · rw [Call.run, HTTPSession.call_of_sent hsent]
      -- the reply fails, or carries the flag that `hflagged` excludes
      obtain hfails | hflags := h.resolve_left hsent
      · exact toolText_error (hfails.httpRpc _)
      · exact absurd ⟨hsent, hflags⟩ hflagged
  | mcpStdio t a =>
    by_cases hsent : t.Unsent a
    · exact StdioSession.call_of_unsent hsent
    · rw [Call.run, StdioSession.call_of_sent hsent]
      obtain (hnone | ⟨ls, r, hls, hr, hne⟩) | hflags := h.resolve_left hsent
      · rw [hnone.stdioRpc]
        exact toolText_error (.inl ⟨_, rfl⟩)
      · rw [hls, hr.stdioRpc]
        exact toolText_error (.inr ⟨r, rfl, hne⟩)
      · exact absurd ⟨hsent, hflags⟩ hflagged

/-- **Failed calls** are errors without documents, but for results that are flagged as errors. -/
theorem failed_call_iff (c : Call) (s : Source) (maxDocs : ℕ) :
    (c.Failed → (∃ e, c.run = .error e) ∧ documents (s.search maxDocs c.run) = []) ↔ ¬ c.Flagged := by
  constructor
  · intro h hflagged
    obtain ⟨hfailed, text, htext⟩ := hflagged.run
    obtain ⟨⟨e, he⟩, -⟩ := h hfailed
    rw [htext] at he
    cases he
  · intro hflagged hfailed
    obtain ⟨e, he⟩ := hfailed.run hflagged
    refine ⟨⟨e, he⟩, ?_⟩
    rw [he]
    rfl

/-- A tool's result that says it was denied. -/
def deniedResult : Bytes :=
  bytes "\x7b\"content\":[\x7b\"type\":\"text\",\"text\":\"denied\"\x7d],\"isError\":true\x7d"

def deniedMembers : List Member :=
  [⟨bytes "content\"", bytes "[\x7b\"type\":\"text\",\"text\":\"denied\"\x7d]"⟩, ⟨bytes "isError\"", bytes "true"⟩]

def deniedCall : Call :=
  .mcpHTTP ⟨0, true⟩ .failed (.answered 200 "application/json"
    (bytes "\x7b\"jsonrpc\":\"2.0\",\"id\":1,\"result\":" ++ deniedResult ++ bytes "\x7d") [])

/-- It becomes a document. -/
theorem denied_becomes_document : deniedCall.Failed ∧ deniedCall.run = .ok (bytes "denied") ∧
    documents (Source.search ⟨bytes "wiki", fun text => .ok (genericMapper text), 5⟩ 0 deniedCall.run) =
      [⟨bytes "wiki", [], [], [], [], bytes "denied"⟩] := by
  have hparse : parseRPCResponse "application/json"
      (bytes "\x7b\"jsonrpc\":\"2.0\",\"id\":1,\"result\":" ++ deniedResult ++ bytes "\x7d") [] 1 =
        .ok ⟨"2.0", bytes "1", some deniedResult, none⟩ := by decide +kernel
  have hmembers : objectMembers deniedResult = some deniedMembers := by decide +kernel
  have hflag : lookup deniedMembers "isError" = some (bytes "true") := by decide +kernel
  have hrun : deniedCall.run = .ok (bytes "denied") := by decide +kernel
  refine ⟨.inr (.inr ⟨by decide, _, deniedResult, hparse, rfl, rfl, deniedMembers, hmembers, hflag⟩), hrun, ?_⟩
  rw [hrun]
  decide +kernel

end Searches

end Devrouter.McpSource
