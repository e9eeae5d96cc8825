import Mathlib.Tactic.Common
import Devrouter.Lib.Machine

/-!
# The handshake of the MCP transports

Model of `call`, `listTools`, `handshake` and `Close` of `mcpHTTPTransport` and `mcpStdioTransport` in
`internal/mcpsource/transport.go`, one step a call: a call holds the lock to its end. What a server does is free:
each step says how its requests end.

A server instance is a subprocess, or a session by the id that a request carries. The transport keeps a log of what
its instances answered to `initialize` and of those that were sent a request for tools. `Handshaken` says that the
second answered with a result before, and that a transport counts as initialized only then; `handshake_iff` says in
which runs.
-/

namespace Devrouter.McpSource

/-! ### Logs -/

/-- The requests for tools: `tools/call` and `tools/list`. -/
inductive ToolMethod where
  | call
  | list
  deriving DecidableEq

inductive Event (I : Type) where
  /-- The instance was sent `initialize`; did it answer with a result? -/
  | greeted (i : I) (answered : Bool)
  /-- A request for tools was sent to the instance. -/
  | asked (method : ToolMethod) (i : I)
  deriving DecidableEq

def Event.greeting {I : Type} : Event I → Option Bool
  | .greeted _ answered => some answered
  | .asked _ _ => none

/-- How a request ends: it is not written, it gets no response (an error of the connection, a status, a timeout), or
the response has a result or an error. -/
inductive Reply where
  | unsent
  | failed
  | result
  | error
  deriving DecidableEq

/-- What the last `initialize` got. -/
def lastGreeting {I : Type} (log : List (Event I)) : Option Bool := (log.filterMap Event.greeting).getLast?

/-- Tools are asked for at instances that answered `initialize` with a result before. -/
def Orderly {I : Type} (log : List (Event I)) : Prop :=
  ∀ before method i rest, log = before ++ .asked method i :: rest → Event.greeted i true ∈ before

structure Handshaken {I : Type} (log : List (Event I)) (current : Option I) (initialized : Bool) : Prop where
  orderly : Orderly log
  /-- After an `initialize` without a result the transport is not initialized. -/
  settled : initialized = true → lastGreeting log = some true
  /-- What counts as initialized answered. -/
  ready : initialized = true → ∀ i, current = some i → Event.greeted i true ∈ log

section Logs

variable {I : Type} {log : List (Event I)}

/-- A log grows by one event. -/
theorem orderly_concat_iff (e : Event I) : Orderly (log ++ [e]) ↔
    Orderly log ∧ ∀ method i, e = .asked method i → Event.greeted i true ∈ log := by
  constructor
  · intro h
    refine ⟨fun before method i rest hlog => ?_, fun method i he => ?_⟩
    · exact h before method i (rest ++ [e]) (by rw [hlog, List.append_assoc, List.cons_append])
    · exact h log method i [] (by rw [he])
  · rintro ⟨hlog, hlast⟩ before method i rest heq
    rcases List.eq_nil_or_concat rest with rfl | ⟨rest, last, rfl⟩
    · obtain ⟨rfl, he⟩ := List.append_inj' heq rfl
      exact hlast method i (List.singleton_inj.mp he)
    · rw [List.concat_eq_append, ← List.cons_append, ← List.append_assoc] at heq
      exact hlog before method i rest (List.append_inj' heq rfl).1

@[simp] theorem orderly_greeted (i : I) (answered : Bool) :
    Orderly (log ++ [.greeted i answered]) ↔ Orderly log := by
  simp [orderly_concat_iff]

@[simp] theorem orderly_asked (method : ToolMethod) (i : I) :
    Orderly (log ++ [.asked method i]) ↔ Orderly log ∧ Event.greeted i true ∈ log := by
  rw [orderly_concat_iff]
  refine and_congr_right fun _ => ⟨fun h => h method i rfl, fun h method' i' heq => ?_⟩
  cases heq
  exact h

@[simp] theorem lastGreeting_greeted (i : I) (answered : Bool) :
    lastGreeting (log ++ [.greeted i answered]) = some answered := by
  simp [lastGreeting, Event.greeting]

@[simp] theorem lastGreeting_asked (method : ToolMethod) (i : I) :
    lastGreeting (log ++ [.asked method i]) = lastGreeting log := by
  simp [lastGreeting, Event.greeting]

theorem orderly_nil : Orderly ([] : List (Event I)) := by
  intro before method i rest h
  exact absurd h.symm (by simp)

/-- A transport that does not count as initialized. -/
theorem handshaken_false_iff (current : Option I) : Handshaken log current false ↔ Orderly log :=
  ⟨Handshaken.orderly, fun h => ⟨h, fun hinit => absurd hinit Bool.false_ne_true,
    fun hinit => absurd hinit Bool.false_ne_true⟩⟩

/-- A transport that does. -/
theorem handshaken_true_iff (i : I) : Handshaken log (some i) true ↔
    Orderly log ∧ lastGreeting log = some true ∧ Event.greeted i true ∈ log := by
  constructor
  · exact fun h => ⟨h.orderly, h.settled rfl, h.ready rfl i rfl⟩
  · rintro ⟨horderly, hlast, hmem⟩
    exact ⟨horderly, fun _ => hlast, fun _ j hj => Option.some.inj hj ▸ hmem⟩

/-- A request for tools at the current instance. -/
theorem handshaken_asked (method : ToolMethod) (i : I) :
    Handshaken (log ++ [.asked method i]) (some i) true ↔ Handshaken log (some i) true := by
  simp [handshaken_true_iff, and_assoc]

end Logs

/-! ### Standard input and output -/

/-- The transport. Subprocesses are numbered in the order of their starts. -/
structure StdioTransport where
  cmd : Option ℕ
  started : ℕ
  initialized : Bool
  log : List (Event ℕ)

/-- What the subprocess does in one call, as far as the call gets: whether it starts, how `initialize` ends
(`greeting`), whether the notification is written, and how the request ends. -/
structure StdioReplies where
  starts : Bool
  greeting : Reply
  notified : Bool
  reply : Reply

namespace StdioTransport

def new : StdioTransport := ⟨none, 0, false, []⟩

/-- A subprocess is started. -/
def spawn (t : StdioTransport) : StdioTransport := { t with cmd := some t.started, started := t.started + 1 }

/-- `ensureStarted`: the subprocess in use. -/
def ensureStarted (t : StdioTransport) (starts : Bool) : Option (StdioTransport × ℕ) :=
  match t.cmd with
  | some i => some (t, i)
  | none => if starts then some (t.spawn, t.started) else none

/-- `initialize`, and whether the call goes on. -/
def greet (t : StdioTransport) (i : ℕ) (r : StdioReplies) : StdioTransport × Bool :=
  let t := { t with log := t.log ++ [.greeted i (decide (r.greeting = .result))] }
  match r.greeting with
  | .unsent => (t, false)
  | .failed => (t, false)
  | .result => ({ t with initialized := r.notified }, r.notified)
  -- the error of the response is not looked at
  | .error => ({ t with initialized := r.notified }, r.notified)

def ask (t : StdioTransport) (method : ToolMethod) (i : ℕ) (reply : Reply) : StdioTransport :=
  if reply = .unsent then t else { t with log := t.log ++ [.asked method i] }

/-- The part of a call with a subprocess. -/
def converse (t : StdioTransport) (method : ToolMethod) (i : ℕ) (r : StdioReplies) : StdioTransport :=
  if t.initialized then t.ask method i r.reply
  else
    match t.greet i r with
    | (t, false) => t
    | (t, true) => t.ask method i r.reply

/-- `call` and `listTools`. -/
def request (t : StdioTransport) (method : ToolMethod) (r : StdioReplies) : StdioTransport :=
  match t.ensureStarted r.starts with
  | none => t
  | some (t, i) => t.converse method i r

/-- `Close`: the subprocess is gone, the flag stays. -/
def close (t : StdioTransport) : StdioTransport := { t with cmd := none }

end StdioTransport

inductive StdioAction where
  | request (method : ToolMethod) (r : StdioReplies)
  | close

def StdioTransport.next (t : StdioTransport) : StdioAction → StdioTransport
  | .request method r => t.request method r
  | .close => t.close

def stdioRuns : Machine StdioTransport StdioAction := ⟨fun t a => some (t.next a)⟩

/-- No subprocess is started for a transport that counts as initialized, and the notification is not written after an
`initialize` answered by an error. -/
def StdioTransport.Greets (t : StdioTransport) : StdioAction → Prop
  | .request _ r =>
    (t.cmd = none → r.starts = true → t.initialized = false) ∧
      (t.cmd ≠ none ∨ r.starts = true → t.initialized = false → r.greeting = .error → r.notified = false)
  | .close => True

/-! ### HTTP -/

/-- How one HTTP request ends, and the session id in the headers of its response (empty when there is none). -/
structure HttpReply where
  reply : Reply
  session : String

structure HTTPTransport where
  sessionID : String
  initialized : Bool
  log : List (Event String)

structure HttpReplies where
  greeting : HttpReply
  notified : HttpReply
  reply : HttpReply

namespace HTTPTransport

def new : HTTPTransport := ⟨"", false, []⟩

/-- The session id of a response is taken over. -/
def adopt (t : HTTPTransport) (r : HttpReply) : HTTPTransport :=
  if r.reply ≠ .unsent ∧ r.session ≠ "" then { t with sessionID := r.session } else t

/-- `handshake`, and whether the call goes on. -/
def handshake (t : HTTPTransport) (r : HttpReplies) : HTTPTransport × Bool :=
  let t := t.adopt r.greeting
  let t := { t with log := t.log ++ [.greeted t.sessionID (decide (r.greeting.reply = .result))] }
  if r.greeting.reply = .result then ({ t.adopt r.notified with initialized := true }, true) else (t, false)

def ask (t : HTTPTransport) (method : ToolMethod) (r : HttpReply) : HTTPTransport :=
  (if r.reply = .unsent then t else { t with log := t.log ++ [.asked method t.sessionID] }).adopt r

/-- `call` and `listTools`. -/
def request (t : HTTPTransport) (method : ToolMethod) (r : HttpReplies) : HTTPTransport :=
  if t.initialized then t.ask method r.reply
  else
    match t.handshake r with
    | (t, false) => t
    | (t, true) => t.ask method r.reply

end HTTPTransport

inductive HttpAction where
  | request (method : ToolMethod) (r : HttpReplies)
  | close

/-- `Close` does nothing. -/
def HTTPTransport.next (t : HTTPTransport) : HttpAction → HTTPTransport
  | .request method r => t.request method r
  | .close => t

def httpRuns : Machine HTTPTransport HttpAction := ⟨fun t a => some (t.next a)⟩

/-- The response names no session, or one that answered `initialize` with a result. -/
def HttpReply.Known (log : List (Event String)) (r : HttpReply) : Prop :=
  r.reply ≠ .unsent → r.session ≠ "" → Event.greeted r.session true ∈ log

/-- No response other than that to `initialize` names a session that has not answered `initialize` with a result. -/
def HTTPTransport.Stays (t : HTTPTransport) : HttpAction → Prop
  | .request _ r =>
    if t.initialized then r.reply.Known t.log
    else r.greeting.reply = .result →
      let greeted := t.log ++ [.greeted (if r.greeting.session = "" then t.sessionID else r.greeting.session) true]
      r.notified.Known greeted ∧ r.reply.Known greeted
  | .close => True

/-! ### Runs on standard input and output -/

/-- Fresh subprocesses have new numbers. -/
structure StdioTransport.Numbered (t : StdioTransport) : Prop where
  log : ∀ i answered, Event.greeted i answered ∈ t.log → i < t.started
  cmd : ∀ i, t.cmd = some i → i < t.started

def StdioTransport.Handshaken (t : StdioTransport) : Prop := McpSource.Handshaken t.log t.cmd t.initialized

namespace StdioTransport

variable {t : StdioTransport}

theorem numbered_ask {i : ℕ} {method : ToolMethod} {reply : Reply} (h : t.Numbered) :
    (t.ask method i reply).Numbered := by
  rw [ask]
  split
  · exact h
  · exact ⟨fun j answered hj => h.log j answered (by simpa using hj), h.cmd⟩

theorem Numbered.spawn (h : t.Numbered) : t.spawn.Numbered :=
  ⟨fun i answered hi => Nat.lt_succ_of_lt (h.log i answered hi), fun _ hi => Option.some.inj hi ▸ Nat.lt_succ_self _⟩

@[simp] theorem spawn_initialized : t.spawn.initialized = t.initialized := rfl

/-- A call that ends before its request. -/
theorem greet_stops {i : ℕ} {r : StdioReplies} (hinit : t.initialized = false)
    (h : r.notified = true → r.greeting ≠ .result ∧ r.greeting ≠ .error) :
    t.greet i r = ({ t with log := t.log ++ [.greeted i (decide (r.greeting = .result))] }, false) := by
  have hquiet : r.greeting = .result ∨ r.greeting = .error → r.notified = false := by
    intro hor
    by_contra hnot
    obtain ⟨hresult, herror⟩ := h (by simpa using hnot)
    exact hor.elim hresult herror
  cases hgreeting : r.greeting with
  | unsent => simp [greet, hgreeting]
  | failed => simp [greet, hgreeting]
  | result => simp [greet, hgreeting, hinit, hquiet (.inl hgreeting)]
  | error => simp [greet, hgreeting, hinit, hquiet (.inr hgreeting)]

/-- A call that goes on to its request. -/
theorem greet_goes {i : ℕ} {r : StdioReplies} (hnotified : r.notified = true)
    (h : r.greeting = .result ∨ r.greeting = .error) :
    t.greet i r =
      ({ t with log := t.log ++ [.greeted i (decide (r.greeting = .result))], initialized := true }, true) := by
  rcases h with h | h <;> simp [greet, h, hnotified]

theorem handshaken_ask {i : ℕ} (hcmd : t.cmd = some i) (hinit : t.initialized = true) (method : ToolMethod)
    (reply : Reply) : (t.ask method i reply).Handshaken ↔ t.Handshaken := by
  rw [ask]
  split
  · rfl
  · show McpSource.Handshaken _ t.cmd t.initialized ↔ McpSource.Handshaken _ t.cmd t.initialized
    rw [hcmd, hinit]
    exact handshaken_asked method i

/-- A call with a subprocess that may be new. -/
theorem converse_spec {i : ℕ} (hcmd : t.cmd = some i) (hnumbered : t.Numbered) (horderly : Orderly t.log)
    (method : ToolMethod) (r : StdioReplies) :
    (t.converse method i r).Numbered ∧ ((t.converse method i r).Handshaken ↔
      (t.initialized = true → t.Handshaken) ∧
        (t.initialized = false → r.greeting = .error → r.notified = false)) := by
  rw [converse]
  cases hinit : t.initialized with
  | true =>
    refine ⟨numbered_ask hnumbered, (handshaken_ask hcmd hinit method r.reply).trans ?_⟩
    simp
  | false =>
    -- `initialize` adds one event, about a subprocess that was started
    have hgreeted : ∀ j answered,
        Event.greeted j answered ∈ t.log ++ [.greeted i (decide (r.greeting = .result))] → j < t.started := by
      intro j answered hj
      rcases List.mem_append.mp hj with hj | hj
      · exact hnumbered.log j answered hj
      · cases List.mem_singleton.mp hj
        exact hnumbered.cmd i hcmd
    by_cases hgoes : r.notified = true ∧ (r.greeting = .result ∨ r.greeting = .error)
    · obtain ⟨hnotified, hgreeting⟩ := hgoes
      rw [greet_goes hnotified hgreeting]
      refine ⟨numbered_ask ⟨hgreeted, hnumbered.cmd⟩, ?_⟩
      refine (handshaken_ask (t := { t with log := _, initialized := true }) hcmd rfl method r.reply).trans ?_
      show McpSource.Handshaken _ t.cmd true ↔ _
      rw [hcmd, handshaken_true_iff]
      rcases hgreeting with hgreeting | hgreeting <;> simp [horderly, hgreeting, hnotified]
    · rw [greet_stops hinit fun hnotified => not_or.mp fun h => hgoes ⟨hnotified, h⟩]
      refine ⟨⟨hgreeted, hnumbered.cmd⟩, iff_of_true ?_ ⟨fun h => absurd h Bool.false_ne_true, ?_⟩⟩
      · show McpSource.Handshaken _ t.cmd t.initialized
        rw [hinit]
        exact (handshaken_false_iff t.cmd).mpr ((orderly_greeted i _).mpr horderly)
      · intro _ herror
        by_contra hnotified
        exact hgoes ⟨by simpa using hnotified, .inr herror⟩

/-- One call. -/
theorem request_spec (hnumbered : t.Numbered) (h : t.Handshaken) (method : ToolMethod) (r : StdioReplies) :
    (t.request method r).Numbered ∧ ((t.request method r).Handshaken ↔ t.Greets (.request method r)) := by
  rw [request, ensureStarted]
  cases hcmd : t.cmd with
  | some i =>
    obtain ⟨hnumbered', hiff⟩ := converse_spec hcmd hnumbered h.orderly method r
    refine ⟨hnumbered', hiff.trans ?_⟩
    simp [Greets, hcmd, h]
  | none =>
    cases hstarts : r.starts with
    | false => exact ⟨hnumbered, iff_of_true h (by simp [Greets, hcmd, hstarts])⟩
    | true =>
      obtain ⟨hnumbered', hiff⟩ := converse_spec (i := t.started) rfl hnumbered.spawn h.orderly method r
      refine ⟨hnumbered', hiff.trans ?_⟩
      cases hinit : t.initialized with
      | true =>
        -- the number of the new subprocess is not in the log
        have hnew : ¬t.spawn.Handshaken := fun hh =>
          Nat.lt_irrefl _ (hnumbered.log t.started true (hh.ready hinit t.started rfl))
        simp [Greets, hcmd, hstarts, hinit, hnew]
      | false => simp [Greets, hcmd, hstarts, hinit]

/-- `Close` keeps what holds. -/
theorem close_spec (hnumbered : t.Numbered) (h : t.Handshaken) : t.close.Numbered ∧ t.close.Handshaken :=
  ⟨⟨hnumbered.log, fun _ hi => absurd hi (Option.some_ne_none _).symm⟩,
    ⟨h.orderly, h.settled, fun _ _ hi => absurd hi (Option.some_ne_none _).symm⟩⟩

end StdioTransport

/-! ### Runs over HTTP -/

def HTTPTransport.Handshaken (t : HTTPTransport) : Prop := McpSource.Handshaken t.log (some t.sessionID) t.initialized

namespace HTTPTransport

variable {t : HTTPTransport}

@[simp] theorem adopt_log (r : HttpReply) : (t.adopt r).log = t.log := by
  rw [adopt]
  split <;> rfl

@[simp] theorem adopt_initialized (r : HttpReply) : (t.adopt r).initialized = t.initialized := by
  rw [adopt]
  split <;> rfl

/-- A response that comes when the transport is initialized. -/
theorem handshaken_adopt (h : t.Handshaken) (hinit : t.initialized = true) (r : HttpReply) :
    (t.adopt r).Handshaken ↔ r.Known t.log := by
  rw [adopt]
  split
  next hnamed =>
    show McpSource.Handshaken t.log (some r.session) t.initialized ↔ _
    rw [hinit, handshaken_true_iff]
    simp [HttpReply.Known, hnamed, h.orderly, h.settled hinit]
  next hnamed => exact iff_of_true h fun hsent hsession => absurd ⟨hsent, hsession⟩ hnamed

theorem known_asked {log : List (Event String)} (method : ToolMethod) (i : String) (r : HttpReply) :
    r.Known (log ++ [.asked method i]) ↔ r.Known log := by
  simp [HttpReply.Known]

theorem handshaken_sent (hinit : t.initialized = true) (method : ToolMethod) :
    HTTPTransport.Handshaken { t with log := t.log ++ [.asked method t.sessionID] } ↔ t.Handshaken := by
  show McpSource.Handshaken _ _ t.initialized ↔ McpSource.Handshaken _ _ t.initialized
  rw [hinit]
  exact handshaken_asked method t.sessionID

/-- A request for tools, at a session that may not be a known one. -/
theorem handshaken_ask (hlast : lastGreeting t.log = some true) (hinit : t.initialized = true) (method : ToolMethod)
    (r : HttpReply) :
    (t.ask method r).Handshaken ↔ t.Handshaken ∧ r.Known t.log := by
  rw [ask]
  split
  next hunsent =>
    have hkeep : t.adopt r = t := by simp [adopt, hunsent]
    rw [hkeep]
    simp [HttpReply.Known, hunsent]
  next hsent =>
    -- after the request the session must be a known one
    constructor
    · intro h
      have hasked := h.orderly
      rw [adopt_log, orderly_asked] at hasked
      have ht : t.Handshaken := by
        rw [Handshaken, hinit, handshaken_true_iff]
        exact ⟨hasked.1, hlast, hasked.2⟩
      exact ⟨ht, (known_asked method t.sessionID r).mp
        ((handshaken_adopt ((handshaken_sent hinit method).mpr ht) hinit r).mp h)⟩
    · rintro ⟨ht, hknown⟩
      exact (handshaken_adopt ((handshaken_sent hinit method).mpr ht) hinit r).mpr
        ((known_asked method t.sessionID r).mpr hknown)

theorem adopt_eq (r : HttpReply) (hsent : r.reply ≠ .unsent) :
    t.adopt r = { t with sessionID := if r.session = "" then t.sessionID else r.session } := by
  by_cases hsession : r.session = "" <;> simp [adopt, hsent, hsession]

theorem adopt_mark (r : HttpReply) :
    ({ t.adopt r with initialized := true } : HTTPTransport) = adopt { t with initialized := true } r := by
  rw [adopt, adopt]
  split <;> rfl

/-- The transport after `initialize` was answered with a result. -/
def greeted (t : HTTPTransport) (session : String) : HTTPTransport :=
  ⟨session, true, t.log ++ [.greeted session true]⟩

theorem handshaken_greeted (h : Orderly t.log) (session : String) : (t.greeted session).Handshaken :=
  (handshaken_true_iff session).mpr ⟨(orderly_greeted session true).mpr h, lastGreeting_greeted session true,
    List.mem_append_right t.log List.mem_cons_self⟩

theorem handshake_result (r : HttpReplies) (hresult : r.greeting.reply = .result) :
    t.handshake r =
      ((t.greeted (if r.greeting.session = "" then t.sessionID else r.greeting.session)).adopt r.notified, true) := by
  have hsent : r.greeting.reply ≠ .unsent := by simp [hresult]
  simp only [handshake, adopt_eq r.greeting hsent, hresult, decide_true, if_true]
  exact congrArg (·, true) (adopt_mark r.notified)

theorem handshake_fails (r : HttpReplies) (hresult : r.greeting.reply ≠ .result) :
    t.handshake r = ({ t.adopt r.greeting with
      log := t.log ++ [.greeted (t.adopt r.greeting).sessionID false] }, false) := by
  simp [handshake, hresult]

/-- One call. -/
theorem handshaken_request (h : t.Handshaken) (method : ToolMethod) (r : HttpReplies) :
    (t.request method r).Handshaken ↔ t.Stays (.request method r) := by
  rw [request, Stays]
  cases hinit : t.initialized with
  | true =>
    -- the session is greeted already, and the request is just sent
    rw [if_pos rfl, if_pos rfl, handshaken_ask (h.settled hinit) hinit]
    exact and_iff_right h
  | false =>
    rw [if_neg Bool.false_ne_true, if_neg Bool.false_ne_true]
    -- the greeting succeeds, and the session it names is adopted for the request
    by_cases hresult : r.greeting.reply = .result
    · rw [handshake_result r hresult]
      simp only [hresult, true_imp_iff]
      set session := if r.greeting.session = "" then t.sessionID else r.greeting.session
      have hgreeted := handshaken_greeted h.orderly session
      refine (handshaken_ask ?_ (adopt_initialized r.notified) method r.reply).trans ?_
      · rw [adopt_log]
        exact hgreeted.settled rfl
      · rw [handshaken_adopt hgreeted rfl, adopt_log]
        rfl
    · -- the greeting fails: nothing is sent, and the session is not greeted
      rw [handshake_fails r hresult]
      refine iff_of_true ?_ fun h => absurd h hresult
      show McpSource.Handshaken _ _ (t.adopt r.greeting).initialized
      rw [adopt_initialized, hinit]
      exact (handshaken_false_iff _).mpr ((orderly_greeted _ false).mpr h.orderly)

end HTTPTransport

/-! ### Both transports -/

/-- In a run every request for tools goes to an instance that answered `initialize` with a result, an `initialize`
without one leaves the transport uninitialized, and a fresh subprocess is initialized before use: over standard input
and output exactly in the runs that greet what they start, over HTTP exactly in those that stay with their session. -/
theorem handshake_iff (calls : List StdioAction) (posts : List HttpAction) :
    (stdioRuns.Along StdioTransport.Greets .new calls ↔
      ∀ as rest t, calls = as ++ rest → stdioRuns.exec .new as = some t → t.Handshaken) ∧
    (httpRuns.Along HTTPTransport.Stays .new posts ↔
      ∀ as rest t, posts = as ++ rest → httpRuns.exec .new as = some t → t.Handshaken) := by
  constructor
  · refine Machine.along_iff_reached (J := StdioTransport.Numbered) ?_ (fun t a => ⟨t.next a, rfl⟩) ?_ ?_ calls
    · -- one request keeps what the handshake needs exactly under its condition
      rintro t a _ hnumbered h ⟨⟩
      cases a with
      | request method r => exact StdioTransport.request_spec hnumbered h method r
      | close =>
        obtain ⟨hnumbered', h'⟩ := StdioTransport.close_spec hnumbered h
        exact ⟨hnumbered', iff_of_true h' trivial⟩
    · exact ⟨fun _ _ hi => absurd hi List.not_mem_nil, fun _ hi => absurd hi (Option.some_ne_none _).symm⟩
    · exact (handshaken_false_iff none).mpr orderly_nil
  · refine Machine.along_iff_reached (J := fun _ => True) ?_ (fun t a => ⟨t.next a, rfl⟩) trivial ?_ posts
    · rintro t a _ - h ⟨⟩
      cases a with
      | request method r => exact ⟨trivial, HTTPTransport.handshaken_request h method r⟩
      | close => exact ⟨trivial, iff_of_true h trivial⟩
    · exact (handshaken_false_iff _).mpr orderly_nil

/-- A subprocess that does not speak the protocol, and one that does. -/
def refuses : StdioReplies := ⟨true, .error, true, .result⟩

def answers : StdioReplies := ⟨true, .result, true, .result⟩

/-- A subprocess is asked for tools after it answered `initialize` with an error, and one that was started after
`Close` without an `initialize`. -/
theorem refused_asked :
    (∃ t, stdioRuns.exec .new [.request .call refuses] = some t ∧
      t.log = [.greeted 0 false, .asked .call 0] ∧ t.initialized = true ∧ ¬t.Handshaken) ∧
    (∃ t, stdioRuns.exec .new [.request .call answers, .close, .request .list answers] = some t ∧
      t.log = [.greeted 0 true, .asked .call 0, .asked .list 1] ∧ ¬t.Handshaken) := by
  constructor
  · refine ⟨_, rfl, rfl, rfl, fun h => ?_⟩
    have hmem := h.orderly [.greeted 0 false] .call 0 [] rfl
    simp at hmem
  · refine ⟨_, rfl, rfl, fun h => ?_⟩
    have hmem := h.orderly [.greeted 0 true, .asked .call 0] .list 1 [] rfl
    simp at hmem

end Devrouter.McpSource
