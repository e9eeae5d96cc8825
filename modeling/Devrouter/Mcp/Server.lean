import Mathlib.Data.Int.Notation
import Mathlib.Data.List.Basic
import Devrouter.Lib.JsonScan

/-!
# The stdio server of the router

Model of `internal/mcp/server.go`: `Server.Run` reads lines from standard input, decodes each into a
`jsonRPCRequest`, handles it and writes what `handle` returns, if anything. What the tools compute is a
parameter, with a state of the router that they may change (`Backend`); the order in which their errors are
found is the code's. Telemetry, logs and errors of the pipes are left out.

A message is what decodes into a `jsonRPCRequest`; its id is there when it has any bytes, a `null` among them.
`run_answers_iff` says on which inputs the responses are those of the requests with an id, in order: the last
line has its newline or is no request, and the method `notifications/initialized` is that of the messages
without an id and of no others.
-/

namespace Devrouter.Mcp

open Json

/-! ### Messages -/

/-- A field that is missing has no bytes. -/
structure JsonRPCRequest where
  jsonrpc : String
  id : Bytes
  method : String
  params : Bytes
  deriving DecidableEq

structure RpcError where
  code : ℤ
  message : String
  deriving DecidableEq

/-- The result of a response, as far as methods differ in it. -/
inductive Payload where
  | serverInfo
  | toolDefinitions
  /-- The content of a tool's result: one text. -/
  | content (text : String)
  deriving DecidableEq

structure JsonRPCResponse where
  id : Bytes
  result : Option Payload
  error : Option RpcError
  deriving DecidableEq

def success (id : Bytes) (result : Payload) : JsonRPCResponse := ⟨id, some result, none⟩

def errResp (id : Bytes) (code : ℤ) (msg : String) : JsonRPCResponse := ⟨id, none, some ⟨code, msg⟩⟩

/-! ### Decoding -/

/-- What a member does to the request; none when its value does not fit the field. -/
def JsonRPCRequest.setField (req : JsonRPCRequest) (m : Member) : Option JsonRPCRequest :=
  if isField "jsonrpc" m.key then (intoString req.jsonrpc m.value).map fun v => { req with jsonrpc := v }
  else if isField "id" m.key then some { req with id := m.value }
  else if isField "method" m.key then (intoString req.method m.value).map fun v => { req with method := v }
  else if isField "params" m.key then some { req with params := m.value }
  else some req

/-- `json.Unmarshal` into a `jsonRPCRequest`; none when it fails. -/
def unmarshalRequest (line : Bytes) : Option JsonRPCRequest := do
  let value ← wholeValue line
  if isNull value then return ⟨"", [], "", []⟩
  let members ← membersOf value
  members.foldlM JsonRPCRequest.setField ⟨"", [], "", []⟩

/-- The parameters of a call. -/
structure CallParams where
  name : String
  arguments : Bytes
  deriving DecidableEq

def CallParams.setField (p : CallParams) (m : Member) : Option CallParams :=
  if isField "name" m.key then (intoString p.name m.value).map fun v => { p with name := v }
  else if isField "arguments" m.key then some { p with arguments := m.value }
  else some p

/-- `json.Unmarshal` of the parameters of `tools/call`; none when it fails. -/
def unmarshalParams (params : Bytes) : Option CallParams := do
  let value ← wholeValue params
  if isNull value then return ⟨"", []⟩
  let members ← membersOf value
  members.foldlM CallParams.setField ⟨"", []⟩

/-! ### Tools -/

inductive Tool where
  | devContext | retrieveDebug | memorySaveFile | memorySaveFunc | memorySaveFlow | memoryPopulate | decisionSave
  | decisionList | decisionSupersede | devFeedback | devFeedbackStats | devHeuristicsReset
  deriving DecidableEq

def Tool.all : List (String × Tool) :=
  [("dev_context", .devContext), ("retrieve_debug", .retrieveDebug), ("memory_save_file", .memorySaveFile),
    ("memory_save_func", .memorySaveFunc), ("memory_save_flow", .memorySaveFlow),
    ("memory_populate", .memoryPopulate), ("decision_save", .decisionSave), ("decision_list", .decisionList),
    ("decision_supersede", .decisionSupersede), ("dev_feedback", .devFeedback),
    ("dev_feedback_stats", .devFeedbackStats), ("dev_heuristics_reset", .devHeuristicsReset)]

/-- What the tools do with the router, whose state is `σ`; `A` holds the arguments of a tool. -/
structure Backend (σ A : Type) where
  /-- The text of the error of parameters that do not decode. -/
  paramsError : Bytes → String
  /-- The arguments of a tool, or the text of the error. -/
  arguments : Tool → Bytes → Except String A
  repo : A → String
  listDecisions : A → σ → String
  submitFeedback : A → σ → String × σ
  feedbackStats : σ → String
  /-- The other tools: the text of their result, or that of the error. -/
  call : Tool → A → σ → Except String String × σ

section Handle

variable {σ A : Type} (R : Backend σ A)

/-- The case of a tool that reads its arguments. -/
def handleTool (tool : Tool) (req : JsonRPCRequest) (args : A) (s : σ) : JsonRPCResponse × σ :=
  match tool with
  | .decisionList =>
    if R.repo args = "" then (errResp req.id (-32602) "repo is required", s)
    else (success req.id (.content (R.listDecisions args s)), s)
  | .devFeedback =>
    let (text, s) := R.submitFeedback args s
    (success req.id (.content text), s)
  | tool =>
    match R.call tool args s with
    | (.error msg, s) => (errResp req.id (-32000) msg, s)
    | (.ok text, s) => (success req.id (.content text), s)

def handleToolCall (req : JsonRPCRequest) (s : σ) : JsonRPCResponse × σ :=
  match unmarshalParams req.params with
  | none => (errResp req.id (-32602) ("invalid params: " ++ R.paramsError req.params), s)
  | some params =>
    match Tool.all.lookup params.name with
    | none => (errResp req.id (-32602) ("unknown tool: " ++ params.name), s)
    | some .devFeedbackStats => (success req.id (.content (R.feedbackStats s)), s)
    | some tool =>
      match R.arguments tool params.arguments with
      | .error msg => (errResp req.id (-32602) ("invalid arguments: " ++ msg), s)
      | .ok args => handleTool R tool req args s

/-- `handle`; none for no response. -/
def handle (req : JsonRPCRequest) (s : σ) : Option JsonRPCResponse × σ :=
  if req.method = "initialize" then (some (success req.id .serverInfo), s)
  else if req.method = "notifications/initialized" then (none, s)
  else if req.method = "tools/list" then (some (success req.id .toolDefinitions), s)
  else if req.method = "tools/call" then
    let (resp, s) := handleToolCall R req s
    (some resp, s)
  else (some (errResp req.id (-32601) ("method not found: " ++ req.method)), s)

end Handle

/-! ### The loop -/

/-- `ReadBytes`: the bytes up to a newline and what is left after it; none of the latter at the end of the
input, where `io.EOF` comes with the bytes. -/
def readBytes (input : Bytes) : Bytes × Option Bytes :=
  match input.dropWhile (· ≠ byte '\n') with
  | [] => (input, none)
  | b :: rest => (input.takeWhile (· ≠ byte '\n') ++ [b], some rest)

/-- What reading line by line gives: the lines with their newlines, and the bytes at the end of the input. -/
def readLines : Bytes → List Bytes × Bytes
  | [] => ([], [])
  | b :: bs =>
    match readLines bs with
    | (lines, last) =>
      if b = byte '\n' then ([b] :: lines, last)
      else
        match lines with
        | [] => ([], b :: last)
        | l :: ls => ((b :: l) :: ls, last)

section Run

variable {σ A : Type} (R : Backend σ A)

/-- One round of the loop. -/
def serveLine (line : Bytes) (s : σ) : Option JsonRPCResponse × σ :=
  match unmarshalRequest line with
  | none => (none, s)
  | some req => handle R req s

def serveLines : List Bytes → σ → List JsonRPCResponse × σ
  | [], s => ([], s)
  | line :: lines, s =>
    let (resp, s) := serveLine R line s
    let (resps, s) := serveLines lines s
    (resp.toList ++ resps, s)

/-- `Server.Run` on an input: the responses it writes. The bytes at the end of the input are dropped. -/
def run (stdin : Bytes) (s : σ) : List JsonRPCResponse := (serveLines R (readLines stdin).1 s).1

end Run

/-! ### Reading line by line -/

theorem readBytes_newline (bs : Bytes) : readBytes (byte '\n' :: bs) = ([byte '\n'], some bs) := rfl

theorem readBytes_cons {b : UInt8} (hb : b ≠ byte '\n') (bs : Bytes) :
    readBytes (b :: bs) = (b :: (readBytes bs).1, (readBytes bs).2) := by
  unfold readBytes
  rw [List.dropWhile_cons_of_pos (by simpa using hb), List.takeWhile_cons_of_pos (by simpa using hb)]
  cases bs.dropWhile (· ≠ byte '\n') with
  | nil => rfl
  | cons c rest => rfl

/-- At the end of the input no line is left. -/
theorem readLines_of_eof {input line : Bytes} (h : readBytes input = (line, none)) : readLines input = ([], line) := by
  induction input generalizing line with
  | nil =>
    obtain ⟨rfl, -⟩ := Prod.mk.inj h
    rfl
  | cons b bs ih =>
    by_cases hb : b = byte '\n'
    · subst hb
      exact absurd (Prod.mk.inj h).2 (by simp)
    · rw [readBytes_cons hb, Prod.mk.injEq] at h
      obtain ⟨rfl, heof⟩ := h
      rw [readLines, ih (Prod.ext rfl heof)]
      exact if_neg hb

/-- Before it, `ReadBytes` takes the next line. -/
theorem readLines_of_line {input line rest : Bytes} (h : readBytes input = (line, some rest)) :
    readLines input = (line :: (readLines rest).1, (readLines rest).2) := by
  induction input generalizing line with
  | nil => exact absurd (Prod.mk.inj h).2 (by simp)
  | cons b bs ih =>
    by_cases hb : b = byte '\n'
    · subst hb
      rw [readBytes_newline, Prod.mk.injEq, Option.some_inj] at h
      obtain ⟨rfl, rfl⟩ := h
      rfl
    · rw [readBytes_cons hb, Prod.mk.injEq] at h
      obtain ⟨rfl, hrest⟩ := h
      rw [readLines, ih (Prod.ext rfl hrest)]
      exact if_neg hb

/-- No byte is lost or moved. -/
theorem readLines_flatten (input : Bytes) : (readLines input).1.flatten ++ (readLines input).2 = input := by
  induction input with
  | nil => rfl
  | cons b bs ih =>
    rw [readLines]
    generalize readLines bs = r at ih
    obtain ⟨lines, last⟩ := r
    dsimp only at ih ⊢
    split_ifs with hb
    · rw [List.flatten_cons, List.append_assoc, ih]
      rfl
    · cases lines with
      | nil => exact congrArg (b :: ·) ih
      | cons l ls => exact congrArg (b :: ·) ih

/-! ### What is answered -/

section Answers

variable {σ A : Type} {R : Backend σ A}

theorem handleTool_id (tool : Tool) (req : JsonRPCRequest) (args : A) (s : σ) :
    (handleTool R tool req args s).1.id = req.id := by
  unfold handleTool
  split
  · split_ifs
    · rfl
    · rfl
  · rfl
  · split
    · rfl
    · rfl

/-- Every case of every tool answers its request. -/
theorem handleToolCall_id (req : JsonRPCRequest) (s : σ) : (handleToolCall R req s).1.id = req.id := by
  unfold handleToolCall
  split
  · rfl
  · split
    · rfl
    · rfl
    · split
      · rfl
      · exact handleTool_id _ req _ s

/-- Whether the method is that of the one notification `handle` knows. -/
def isInitialized (req : JsonRPCRequest) : Bool := req.method = "notifications/initialized"

/-- Every method but one is answered, whether the request has an id or not. -/
theorem handle_id (req : JsonRPCRequest) (s : σ) :
    (handle R req s).1.map (·.id) = if isInitialized req then none else some req.id := by
  by_cases hinit : isInitialized req = true
  · have hmethod : req.method = "notifications/initialized" := of_decide_eq_true hinit
    unfold handle
    rw [if_pos hinit, hmethod, if_neg (by decide), if_pos rfl]
    rfl
  · have hmethod : ¬ req.method = "notifications/initialized" := fun h => hinit (decide_eq_true h)
    unfold handle
    rw [if_neg hinit, if_neg hmethod]
    split_ifs
    · rfl
    · rfl
    · exact congrArg some (handleToolCall_id req s)
    · rfl

/-- The id of what a line is answered with. -/
def answeredId (line : Bytes) : Option Bytes :=
  (unmarshalRequest line).bind fun req => if isInitialized req then none else some req.id

/-- The id of a request that has one. -/
def requestId (line : Bytes) : Option Bytes :=
  (unmarshalRequest line).bind fun req => if req.id = [] then none else some req.id

theorem serveLine_id (line : Bytes) (s : σ) : (serveLine R line s).1.map (·.id) = answeredId line := by
  unfold serveLine answeredId
  cases unmarshalRequest line with
  | none => rfl
  | some req => exact handle_id req s

theorem serveLines_ids (lines : List Bytes) (s : σ) :
    (serveLines R lines s).1.map (·.id) = lines.filterMap answeredId := by
  induction lines generalizing s with
  | nil => rfl
  | cons line lines ih =>
    have hline := serveLine_id (R := R) line s
    show ((serveLine R line s).1.toList ++ (serveLines R lines (serveLine R line s).2).1).map (·.id) = _
    rw [List.map_append, ih, List.filterMap_cons, ← hline]
    cases (serveLine R line s).1 with
    | none => rfl
    | some resp => rfl

end Answers

/-! ### One list of answers inside another -/

section Inside

variable {α β : Type} {f g : α → Option β} {l : List α}

theorem length_filterMap_le (h : ∀ a ∈ l, f a = none ∨ f a = g a) :
    (l.filterMap f).length ≤ (l.filterMap g).length := by
  induction l with
  | nil => exact Nat.le_refl 0
  | cons a l ih =>
    have hrest := ih fun b hb => h b (List.mem_cons_of_mem a hb)
    rw [List.filterMap_cons, List.filterMap_cons]
    obtain ha | ha := h a List.mem_cons_self
    · rw [ha]
      cases g a with
      | none => exact hrest
      | some b => exact Nat.le_trans hrest (Nat.le_succ _)
    · rw [ha]
      cases g a with
      | none => exact hrest
      | some b => exact Nat.succ_le_succ hrest

/-- Where each element gives what it should or nothing, all is given only if each element gives it and nothing
else is due. -/
theorem eq_of_filterMap_eq (h : ∀ a ∈ l, f a = none ∨ f a = g a) {due : List β}
    (heq : l.filterMap f = l.filterMap g ++ due) : (∀ a ∈ l, f a = g a) ∧ due = [] := by
  induction l with
  | nil => exact ⟨fun a ha => absurd ha List.not_mem_nil, heq.symm⟩
  | cons a l ih =>
    have hl : ∀ b ∈ l, f b = none ∨ f b = g b := fun b hb => h b (List.mem_cons_of_mem a hb)
    have hsame : f a = g a := by
      obtain ha | ha := h a List.mem_cons_self
      · cases hg : g a with
        | none => exact ha
        | some b =>
          -- the other elements cannot make up for this one
          have hlength := congrArg List.length heq
          rw [List.filterMap_cons, ha, List.filterMap_cons, hg] at hlength
          have hle := length_filterMap_le hl
          simp only [List.cons_append, List.length_cons, List.length_append] at hlength
          omega
      · exact ha
    have hrest : l.filterMap f = l.filterMap g ++ due := by
      rw [List.filterMap_cons, List.filterMap_cons, hsame] at heq
      cases hg : g a with
      | none =>
        rw [hg] at heq
        exact heq
      | some b =>
        rw [hg] at heq
        exact (List.cons.inj heq).2
    obtain ⟨hall, hdue⟩ := ih hl hrest
    exact ⟨List.forall_mem_cons.mpr ⟨hsame, hall⟩, hdue⟩

end Inside

/-! ### The discipline -/

/-- The ids of the requests with an id, in order; what stands after the last newline is a line too. -/
def requestIds (stdin : Bytes) : List Bytes := ((readLines stdin).1 ++ [(readLines stdin).2]).filterMap requestId

/-- In every line that is a message, `notifications/initialized` goes without an id and every other method with
one; what stands after the last newline is no request with an id. -/
def Expected (stdin : Bytes) : Prop :=
  (∀ line ∈ (readLines stdin).1, ∀ req, unmarshalRequest line = some req → (req.id = [] ↔ isInitialized req = true)) ∧
    requestId (readLines stdin).2 = none

theorem answeredId_eq_requestId_iff (line : Bytes) : answeredId line = requestId line ↔
    ∀ req, unmarshalRequest line = some req → (req.id = [] ↔ isInitialized req = true) := by
  unfold answeredId requestId
  cases unmarshalRequest line with
  | none => exact iff_of_true rfl fun req h => absurd h (by simp)
  | some req =>
    have hsome : (∀ req', some req = some req' → (req'.id = [] ↔ isInitialized req' = true)) ↔
        (req.id = [] ↔ isInitialized req = true) :=
      ⟨fun h => h req rfl, fun h req' heq => Option.some.inj heq ▸ h⟩
    rw [hsome]
    show (if isInitialized req = true then none else some req.id) = (if req.id = [] then none else some req.id) ↔ _
    by_cases hid : req.id = []
    · by_cases hinit : isInitialized req = true
      · simp [hid, hinit]
      · simp [hid, hinit]
    · by_cases hinit : isInitialized req = true
      · simp [hid, hinit]
      · simp [hid, hinit]

/-- No request with an id has an empty one. -/
theorem requestId_ne_nil {line id : Bytes} (h : requestId line = some id) : id ≠ [] := by
  unfold requestId at h
  obtain ⟨req, -, hreq⟩ := Option.bind_eq_some_iff.mp h
  split_ifs at hreq with hid
  obtain rfl := Option.some.inj hreq
  exact hid

/-- A line is answered as it should be, or not at all, or without an id. -/
theorem answeredId_cases (line : Bytes) :
    answeredId line = none ∨ answeredId line = requestId line ∨ answeredId line = some [] := by
  unfold answeredId requestId
  cases unmarshalRequest line with
  | none => exact .inl rfl
  | some req =>
    show (if isInitialized req = true then none else some req.id) = none ∨
      (if isInitialized req = true then none else some req.id) = (if req.id = [] then none else some req.id) ∨
        (if isInitialized req = true then none else some req.id) = some []
    by_cases hinit : isInitialized req = true
    · exact .inl (if_pos hinit)
    · rw [if_neg hinit]
      by_cases hid : req.id = []
      · exact .inr (.inr (by rw [hid]))
      · exact .inr (.inl (by rw [if_neg hid]))

/-- **The responses.** They are those of the requests with an id, one each and in order, on the expected inputs
and on no others. -/
theorem run_answers_iff {σ A : Type} (R : Backend σ A) (stdin : Bytes) (s : σ) :
    (run R stdin s).map (·.id) = requestIds stdin ↔ Expected stdin := by
  have hrun : (run R stdin s).map (·.id) = (readLines stdin).1.filterMap answeredId :=
    serveLines_ids (readLines stdin).1 s
  have hids : requestIds stdin = (readLines stdin).1.filterMap requestId ++ (requestId (readLines stdin).2).toList := by
    unfold requestIds
    rw [List.filterMap_append]
    cases h : requestId (readLines stdin).2 with
    | none => rw [List.filterMap_cons, h]; rfl
    | some id => rw [List.filterMap_cons, h]; rfl
  rw [hrun, hids]
  unfold Expected
  constructor
  · intro heq
    -- no response without an id is among the expected ones
    have hnone : ∀ line ∈ (readLines stdin).1, answeredId line = none ∨ answeredId line = requestId line := by
      intro line hline
      obtain h | h | h := answeredId_cases line
      · exact .inl h
      · exact .inr h
      · have hmem : [] ∈ (readLines stdin).1.filterMap requestId ++ (requestId (readLines stdin).2).toList := by
          rw [← heq]
          exact List.mem_filterMap.mpr ⟨line, hline, h⟩
        obtain hmem | hmem := List.mem_append.mp hmem
        · obtain ⟨l, -, hl⟩ := List.mem_filterMap.mp hmem
          exact absurd rfl (requestId_ne_nil hl)
        · exact absurd rfl (requestId_ne_nil (Option.mem_toList.mp hmem))
    obtain ⟨hall, hlast⟩ := eq_of_filterMap_eq hnone heq
    refine ⟨fun line hline => (answeredId_eq_requestId_iff line).mp (hall line hline), ?_⟩
    cases h : requestId (readLines stdin).2 with
    | none => rfl
    | some id =>
      rw [h] at hlast
      exact absurd hlast (List.cons_ne_nil _ _)
  · rintro ⟨hall, hlast⟩
    rw [hlast]
    show (readLines stdin).1.filterMap answeredId = (readLines stdin).1.filterMap requestId ++ []
    rw [List.append_nil]
    exact List.filterMap_congr fun line hline => (answeredId_eq_requestId_iff line).mpr (hall line hline)

/-- A router whose tools do nothing. -/
def idleBackend : Backend Unit Unit where
  paramsError _ := ""
  arguments _ _ := .ok ()
  repo _ := ""
  listDecisions _ _ := ""
  submitFeedback _ _ := ("", ())
  feedbackStats _ := ""
  call _ _ _ := (.ok "", ())

/-- A host cancels a request, asks for the tools, and closes its end after a last request without a newline. -/
def cancelledSession : Bytes :=
  bytes ("\x7b\"jsonrpc\":\"2.0\",\"method\":\"notifications/cancelled\"\x7d\n" ++
    "\x7b\"jsonrpc\":\"2.0\",\"id\":1,\"method\":\"tools/list\"\x7d\n" ++
    "\x7b\"jsonrpc\":\"2.0\",\"id\":2,\"method\":\"initialize\"\x7d")

/-- The notification is answered, the last request is not. -/
theorem cancelledSession_answers :
    (run idleBackend cancelledSession ()).map (·.id) = [[], bytes "1"] ∧
      requestIds cancelledSession = [bytes "1", bytes "2"] := by
  decide +kernel

end Devrouter.Mcp
