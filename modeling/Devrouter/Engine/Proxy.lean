import Devrouter.Lib.LastWins
import Devrouter.Lib.Machine
import Mathlib.Data.List.Count
import Mathlib.Data.List.Nodup
import Mathlib.Data.List.Perm.Basic
import Mathlib.Order.Nat
import Mathlib.Tactic.Common

/-!
# The proxy in front of the daemon

Model of `runLocalHandshakeProxy` in `codegraph/src/mcp/proxy.ts`. The proxy answers the handshake itself, forwards
the other requests of the host to the daemon, and serves them itself when the daemon never comes up or is lost. One
step of `step` is one callback: a line of the host, the end of the connecting, a line of the daemon, the loss of the
daemon, or the end of a tool call that is served here. They come in any order; what the daemon does is free, but that
it replies once at most to a request that was sent to it.

A line is what `JSON.parse` makes of it. Ids and results of tools are parameters; a line that is JSON but has no
fields, such as `null`, is left out.

`Conserved` is what every step keeps: a request is answered, or one of the four places where requests wait has it.
-/

namespace Devrouter.Engine

namespace Proxy

variable {Id R : Type}

/-- A line of the host. -/
inductive Line (Id : Type) where
  /-- It does not parse. -/
  | garbage
  | msg (id : Option Id) (method : Option String)
  deriving DecidableEq, Repr

/-- What a reply to the host says. -/
inductive Answer (R : Type) where
  | initializeResult
  | tools
  | resources
  | resourceTemplates
  | prompts
  | pong
  | result (r : R)
  /-- Of code -32603. -/
  | error (message : String)
  deriving DecidableEq, Repr

/-- What is written to the host. -/
inductive Out (Id R : Type) where
  /-- The reply to a line, with the id of the line. -/
  | answer (line : Line Id) (a : Answer R)
  /-- A reply of the daemon. -/
  | relayed (id : Id)
  /-- Another line of the daemon, as it is. -/
  | verbatim (text : String)
  deriving DecidableEq, Repr

inductive DaemonStatus where
  | connecting
  | ready
  | failed
  deriving DecidableEq, Repr

/-- A call of a tool that runs here. -/
structure Job (Id : Type) where
  line : Line Id
  /-- The loop over the buffered lines waits for it. -/
  buffered : Bool
  deriving DecidableEq, Repr

structure State (Id R : Type) where
  daemonStatus : DaemonStatus := .connecting
  clientInitId : Option Id := none
  /-- Lines that wait for the daemon to come up. -/
  pending : List (Line Id) := []
  /-- The map of the requests that the daemon has to answer. -/
  inflight : List (Id × Line Id) := []
  /-- Lines that waited for a daemon that did not come up. -/
  buffered : List (Line Id) := []
  jobs : List (Job Id) := []
  out : List (Out Id R) := []
  shuttingDown : Bool := false
  /-- The lines of the host so far. -/
  received : List (Line Id) := []
  /-- The requests that were sent to the daemon, and that it has not replied to. -/
  unanswered : List Id := []

/-- The id of a request. -/
def Line.request : Line Id → Option Id
  | .msg (some id) (some _) => some id
  | _ => none

/-- The id under which a line is put into the map. -/
def Line.tracked : Line Id → Option Id
  | .msg (some id) (some method) => if method = "initialize" then none else some id
  | _ => none

inductive Act (Id R : Type) where
  | line (l : Line Id)
  | connected
  | unavailable
  | reply (id : Id)
  | verbatim (text : String)
  | lost
  /-- The turn of the next buffered line. -/
  | next
  /-- The end of a call. -/
  | finish (k : ℕ) (a : R ⊕ String)
  | shutdown

variable [DecidableEq Id]

def sameId (b a : Id × Line Id) : Bool := b.1 = a.1

namespace State

def write (s : State Id R) (o : Out Id R) : State Id R := { s with out := s.out ++ [o] }

def trackInflight (s : State Id R) (l : Line Id) : State Id R :=
  match l.tracked with
  | some id => { s with inflight := s.inflight.setLast sameId (id, l) }
  | none => s

/-- A line is written to the socket of the daemon. -/
def send (s : State Id R) (l : Line Id) : State Id R := { s with unanswered := s.unanswered ++ l.request.toList }

/-- `handleLocally`, up to the call of a tool. -/
def handleLocally (s : State Id R) (l : Line Id) (buffered : Bool) : State Id R :=
  match l with
  | .garbage => s
  | .msg none _ => s
  | .msg (some _) method =>
    if method = some "tools/call" then { s with jobs := s.jobs ++ [⟨l, buffered⟩] }
    else if method = some "ping" then s.write (.answer l .pong)
    else if method ≠ some "initialize" then s.write (.answer l (.error "CodeGraph daemon unavailable"))
    else s

def routeToDaemon (s : State Id R) (l : Line Id) : State Id R :=
  match s.daemonStatus with
  | .ready => (s.trackInflight l).send l
  | .failed => s.handleLocally l false
  | .connecting => { s with pending := s.pending ++ [l] }

/-- A line of the host. -/
def handleLine (s : State Id R) (l : Line Id) : State Id R :=
  match l with
  | .garbage => s.routeToDaemon l
  | .msg id method =>
    if method = some "initialize" then
      { s.write (.answer l .initializeResult) with clientInitId := id }.routeToDaemon l
    else if method = some "tools/list" then s.write (.answer l .tools)
    else if method = some "resources/list" then s.write (.answer l .resources)
    else if method = some "resources/templates/list" then s.write (.answer l .resourceTemplates)
    else if method = some "prompts/list" then s.write (.answer l .prompts)
    else s.routeToDaemon l

/-- The daemon came up. -/
def connect (s : State Id R) : State Id R :=
  s.pending.foldl (fun s l => (s.trackInflight l).send l) { s with daemonStatus := .ready, pending := [] }

/-- A reply of the daemon; that to the forwarded `initialize` is suppressed. -/
def relay (s : State Id R) (id : Id) : State Id R :=
  let s := { s with inflight := s.inflight.filter (·.1 ≠ id), unanswered := s.unanswered.erase id }
  if s.clientInitId = some id then s else s.write (.relayed id)

/-- The daemon is gone: what it has not answered is served here. -/
def onDaemonLost (s : State Id R) : State Id R :=
  (s.inflight.map (·.2)).foldl (fun s l => s.handleLocally l false)
    { s with daemonStatus := .failed, inflight := [], unanswered := [] }

/-- The end of the `k`th call. -/
def settle (s : State Id R) (job : Job Id) (k : ℕ) (a : R ⊕ String) : State Id R :=
  { s with jobs := s.jobs.eraseIdx k }.write (.answer job.line (a.elim .result .error))

def step (s : State Id R) (a : Act Id R) : Option (State Id R) :=
  if s.shuttingDown then none
  else match a with
  | .line l => some ({ s with received := s.received ++ [l] }.handleLine l)
  | .connected => if s.daemonStatus = .connecting then some s.connect else none
  | .unavailable =>
    if s.daemonStatus = .connecting then
      some { s with daemonStatus := .failed, buffered := s.pending, pending := [] }
    else none
  | .reply id => if s.daemonStatus = .ready ∧ id ∈ s.unanswered then some (s.relay id) else none
  | .verbatim text => if s.daemonStatus = .ready then some (s.write (.verbatim text)) else none
  | .lost => if s.daemonStatus = .ready then some s.onDaemonLost else none
  | .next =>
    match s.buffered with
    | [] => none
    | l :: rest =>
      if s.jobs.any (·.buffered) then none else some ({ s with buffered := rest }.handleLocally l true)
  | .finish k a =>
    match s.jobs[k]? with
    | none => none
    | some job => some (s.settle job k a)
  | .shutdown => some { s with shuttingDown := true }

end State

def machine (Id R : Type) [DecidableEq Id] : Machine (State Id R) (Act Id R) := ⟨State.step⟩

/-! ### Where a request is -/

def Line.initializes : Line Id → Bool
  | .msg _ method => method = some "initialize"
  | .garbage => false

omit [DecidableEq Id] in
theorem Line.tracked_eq_request {l : Line Id} (h : l.initializes = false) : l.tracked = l.request := by
  cases l with
  | garbage => rfl
  | msg id method =>
    cases id with
    | none => rfl
    | some id =>
      cases method with
      | none => rfl
      | some method => exact if_neg fun heq => Bool.false_ne_true (h.symm.trans (decide_eq_true (congrArg some heq)))

omit [DecidableEq Id] in
theorem Line.eq_of_initializes {l : Line Id} (h : l.initializes = true) :
    ∃ id, l = .msg id (some "initialize") ∧ l.tracked = none ∧ l.request = id := by
  cases l with
  | garbage => exact absurd h Bool.false_ne_true
  | msg id method =>
    obtain rfl : method = some "initialize" := of_decide_eq_true h
    refine ⟨id, rfl, ?_⟩
    cases id with
    | none => exact ⟨rfl, rfl⟩
    | some id => exact ⟨by simp [Line.tracked], rfl⟩

/-- The request that an output replies to. -/
def Out.request : Out Id R → Option Id
  | .answer l _ => l.request
  | .relayed id => some id
  | .verbatim _ => none

namespace State

variable (s : State Id R)

def asked : List Id := s.received.filterMap Line.request

def answered : List Id := s.out.filterMap Out.request

/-- The requests that wait: for the daemon to come up, for its reply, for their turn, or for the end of their call. -/
def waiting : List Id :=
  s.pending.filterMap Line.tracked ++ s.inflight.map (·.1) ++ s.buffered.filterMap Line.tracked ++
    s.jobs.filterMap (·.line.tracked)

/-- How often a request was answered or waits. -/
def total (id : Id) : ℕ := s.answered.count id + s.waiting.count id

variable {s} {l : Line Id} {id : Id} {o : Out Id R}

theorem total_write : (s.write o).total id = s.total id + o.request.toList.count id := by
  have hanswered : (s.write o).answered = s.answered ++ o.request.toList := by
    rw [answered, write, List.filterMap_append, answered]
    cases h : o.request <;> simp [h]
  rw [total, total, hanswered, List.count_append]
  show s.answered.count id + o.request.toList.count id + s.waiting.count id = _
  omega

theorem total_send : (s.send l).total id = s.total id := rfl

/-- A request that is new to the map waits once more. -/
theorem total_trackInflight (h : ∀ id, l.tracked = some id → id ∉ s.inflight.map (·.1)) :
    (s.trackInflight l).total id = s.total id + l.tracked.toList.count id := by
  rw [trackInflight]
  cases hl : l.tracked with
  | none => rfl
  | some new =>
    have hnew : ∀ b ∈ s.inflight, sameId b (new, l) = false := fun b hb =>
      decide_eq_false fun heq => h new hl (List.mem_map.mpr ⟨b, hb, heq⟩)
    simp only [total, answered, waiting, List.setLast_of_new hnew, List.count_append, List.map_append, List.map_cons,
      List.map_nil, Option.toList_some]
    omega

/-- What is served here is answered, or waits for the end of its call. -/
theorem total_handleLocally (b : Bool) :
    (s.handleLocally l b).total id = s.total id + l.tracked.toList.count id := by
  cases l with
  | garbage => rfl
  | msg lid method =>
    cases lid with
    | none => rfl
    | some lid =>
      cases method with
      | none =>
        -- the response of the host to a request of the daemon: its answer is no reply to a request
        simp only [handleLocally, reduceCtorEq, if_false, if_true, ne_eq, not_false_eq_true]
        exact total_write
      | some method =>
        by_cases hcall : method = "tools/call"
        · subst hcall
          simp only [handleLocally, if_true, total, answered, waiting, List.filterMap_append, List.count_append]
          simp [Line.tracked, Nat.add_assoc]
        · by_cases hping : method = "ping"
          · subst hping
            exact total_write
          · by_cases hinit : method = "initialize"
            · subst hinit
              rfl
            · simp only [handleLocally, Option.some.injEq, hcall, hping, hinit, if_false, if_true, ne_eq,
                not_false_eq_true]
              rw [total_write]
              simp [Out.request, Line.request, Line.tracked, hinit]

variable (s) in
/-- **Conservation.** Every request that was received was answered once or waits once, but for those that are `owed`. -/
structure Conserved (owed : List Id) : Prop where
  total_eq : ∀ id, s.total id + owed.count id = s.asked.count id
  nodup : s.asked.Nodup
  /-- The host initializes once. -/
  initialized : ∀ l ∈ s.received, ∀ id, l = .msg id (some "initialize") → s.clientInitId = id
  initializes : ∀ id, s.clientInitId = some id → .msg (some id) (some "initialize") ∈ s.received ∧ id ∈ s.answered
  sent : ∀ id ∈ s.unanswered, id ∈ s.inflight.map (·.1) ∨ s.clientInitId = some id
  sent_once : s.unanswered.Nodup
  tracked : ∀ p ∈ s.inflight, p.2.tracked = some p.1
  jobs : ∀ job ∈ s.jobs, job.line.request = job.line.tracked
  pending : s.pending.Sublist s.received
  connecting : s.daemonStatus ≠ .connecting → s.pending = []
  ready : s.daemonStatus ≠ .ready → s.inflight = [] ∧ s.unanswered = []
  failed : s.daemonStatus ≠ .failed → s.buffered = []

theorem Conserved.init : Conserved ({} : State Id R) [] where
  total_eq := fun _ => rfl
  nodup := List.nodup_nil
  initialized := fun _ h => absurd h List.not_mem_nil
  initializes := nofun
  sent := fun _ h => absurd h List.not_mem_nil
  sent_once := List.nodup_nil
  tracked := fun _ h => absurd h List.not_mem_nil
  jobs := fun _ h => absurd h List.not_mem_nil
  pending := List.Sublist.refl []
  connecting := fun _ => rfl
  ready := fun _ => ⟨rfl, rfl⟩
  failed := fun _ => rfl

namespace Conserved

variable {owed : List Id}

theorem total_le (h : s.Conserved owed) (id : Id) : s.answered.count id + s.waiting.count id + owed.count id ≤ 1 :=
  (h.total_eq id).trans_le (List.nodup_iff_count_le_one.mp h.nodup id)

theorem count_inflight_le (s : State Id R) (id : Id) : (s.inflight.map (·.1)).count id ≤ s.waiting.count id := by
  simp only [waiting, List.count_append]
  omega

/-- What is in the map was neither answered nor is owed. -/
theorem of_mem_inflight (h : s.Conserved owed) (hid : id ∈ s.inflight.map (·.1)) : id ∉ s.answered ∧ id ∉ owed := by
  have hle := h.total_le id
  have hpos := List.count_pos_iff.mpr hid
  have hwaiting := count_inflight_le s id
  exact ⟨fun hmem => by have := List.count_pos_iff.mpr hmem; omega,
    fun hmem => by have := List.count_pos_iff.mpr hmem; omega⟩

theorem nodup_inflight (h : s.Conserved owed) : (s.inflight.map (·.1)).Nodup := by
  refine List.nodup_iff_count_le_one.mpr fun id => ?_
  have hle := h.total_le id
  have hwaiting := count_inflight_le s id
  omega

/-- What was sent to the daemon was asked. -/
theorem asked_of_sent (h : s.Conserved owed) (hid : id ∈ s.unanswered) : id ∈ s.asked := by
  have heq := h.total_eq id
  refine List.count_pos_iff.mp ?_
  obtain hflight | hinit := h.sent id hid
  · have hpos := List.count_pos_iff.mpr hflight
    have hwaiting := count_inflight_le s id
    rw [total] at heq
    omega
  · have hpos := List.count_pos_iff.mpr (h.initializes id hinit).2
    rw [total] at heq
    omega

/-- An output pays what is owed. -/
theorem write (h : s.Conserved (o.request.toList ++ owed)) : (s.write o).Conserved owed where
  total_eq := fun id => by
    rw [total_write, Nat.add_assoc, ← List.count_append]
    exact h.total_eq id
  nodup := h.nodup
  initialized := h.initialized
  initializes := fun id hid => by
    obtain ⟨hreceived, hanswered⟩ := h.initializes id hid
    refine ⟨hreceived, ?_⟩
    rw [answered, State.write, List.filterMap_append]
    exact List.mem_append_left _ hanswered
  sent := h.sent
  sent_once := h.sent_once
  tracked := h.tracked
  jobs := h.jobs
  pending := h.pending
  connecting := h.connecting
  ready := h.ready
  failed := h.failed

/-- A line that is served here pays for itself. -/
theorem handleLocally (h : s.Conserved (l.tracked.toList ++ owed)) (b : Bool) :
    (s.handleLocally l b).Conserved owed := by
  cases l with
  | garbage => exact h
  | msg lid method =>
    cases lid with
    | none => exact h
    | some lid =>
      cases method with
      | none => exact h.write (o := .answer (.msg (some lid) none) (.error "CodeGraph daemon unavailable"))
      | some method =>
        by_cases hinit : method = "initialize"
        · subst hinit
          exact h
        · have htracked : (Line.msg (some lid) (some method)).tracked = some lid := if_neg hinit
          simp only [State.handleLocally, Option.some.injEq]
          split
          · next hcall =>
            have htotal : ∀ id, (s.handleLocally (.msg (some lid) (some method)) b).total id = _ :=
              fun _ => total_handleLocally b
            simp only [State.handleLocally, Option.some.injEq, if_pos hcall] at htotal
            exact
              { h with
                total_eq := fun id => by
                  rw [htotal, Nat.add_assoc, ← List.count_append]
                  exact h.total_eq id
                jobs := fun job hjob => by
                  cases List.mem_append.mp hjob with
                  | inl hold => exact h.jobs job hold
                  | inr hnew =>
                    rw [List.mem_singleton.mp hnew, htracked]
                    rfl }
          · split
            · exact write (o := .answer _ .pong) (by rwa [htracked] at h)
            · rw [if_pos fun heq => hinit (Option.some.inj heq)]
              exact write (o := .answer _ _) (by rwa [htracked] at h)

/-- A line that is sent to the daemon pays for itself. -/
theorem forward (h : s.Conserved (l.tracked.toList ++ owed)) (hready : s.daemonStatus = .ready)
    (hnew : ∀ id, l.request = some id → id ∉ s.unanswered)
    (hinit : ∀ id, l.request = some id → l.tracked = some id ∨ s.clientInitId = some id) :
    ((s.trackInflight l).send l).Conserved owed := by
  have hfresh : ∀ id, l.tracked = some id → id ∉ s.inflight.map (·.1) := by
    intro id hid hmem
    refine (h.of_mem_inflight hmem).2 (List.mem_append_left _ ?_)
    rw [hid]
    exact List.mem_singleton_self id
  have hkeys : (s.trackInflight l).inflight.map (·.1) = s.inflight.map (·.1) ++ l.tracked.toList := by
    rw [trackInflight]
    cases hl : l.tracked with
    | none => exact (List.append_nil _).symm
    | some new =>
      have hnewkey : ∀ b ∈ s.inflight, sameId b (new, l) = false := fun b hb =>
        decide_eq_false fun heq => hfresh new hl (List.mem_map.mpr ⟨b, hb, heq⟩)
      simp only [List.setLast_of_new hnewkey, List.map_append, List.map_cons, List.map_nil, Option.toList_some]
  have hsame : (s.trackInflight l).send l =
      { s with
        inflight := (s.trackInflight l).inflight
        unanswered := s.unanswered ++ l.request.toList } := by
    rw [trackInflight]
    cases l.tracked <;> rfl
  have htotal : ∀ id, ((s.trackInflight l).send l).total id = s.total id + l.tracked.toList.count id :=
    fun id => total_send.trans (total_trackInflight hfresh)
  rw [hsame] at htotal ⊢
  exact
    { h with
      total_eq := fun id => by
        rw [htotal, Nat.add_assoc, ← List.count_append]
        exact h.total_eq id
      sent := fun id hid => by
        show id ∈ (s.trackInflight l).inflight.map (·.1) ∨ s.clientInitId = some id
        rw [hkeys, List.mem_append, Option.mem_toList]
        cases List.mem_append.mp hid with
        | inl hold => exact (h.sent id hold).imp_left .inl
        | inr hl => exact (hinit id (Option.mem_toList.mp hl)).imp_left .inr
      sent_once := by
        cases hl : l.request with
        | none => exact (List.append_nil _).symm ▸ h.sent_once
        | some new =>
          refine h.sent_once.append (List.nodup_singleton new) fun id hid hmem => ?_
          exact hnew id (List.mem_singleton.mp hmem ▸ hl) hid
      tracked := fun p hp => by
        change p ∈ (s.trackInflight l).inflight at hp
        rw [trackInflight] at hp
        split at hp
        · next new hl =>
          obtain rfl | hold := List.mem_setLast hp
          · exact hl
          · exact h.tracked p hold
        · exact h.tracked p hp
      ready := fun hnot => absurd hready hnot }

theorem forwards {ls : List (Line Id)} (h : s.Conserved (ls.filterMap Line.tracked)) (hready : s.daemonStatus = .ready)
    (hnew : ∀ id ∈ ls.filterMap Line.request, id ∉ s.unanswered) (hnodup : (ls.filterMap Line.request).Nodup)
    (hinit : ∀ l ∈ ls, ∀ id, l.request = some id → l.tracked = some id ∨ s.clientInitId = some id) :
    (ls.foldl (fun s l => (s.trackInflight l).send l) s).Conserved [] := by
  induction ls generalizing s with
  | nil => exact h
  | cons l ls ih =>
    have hsplit : ∀ f : Line Id → Option Id, (l :: ls).filterMap f = (f l).toList ++ ls.filterMap f := by
      intro f
      rw [List.filterMap_cons]
      cases f l <;> rfl
    rw [hsplit] at h hnew hnodup
    obtain ⟨-, hrest, hapart⟩ := List.nodup_append.mp hnodup
    have hfields : ((s.trackInflight l).send l).daemonStatus = s.daemonStatus ∧
        ((s.trackInflight l).send l).clientInitId = s.clientInitId ∧
        ((s.trackInflight l).send l).unanswered = s.unanswered ++ l.request.toList := by
      rw [trackInflight]
      cases l.tracked <;> exact ⟨rfl, rfl, rfl⟩
    obtain ⟨hstatus, hclient, hunanswered⟩ := hfields
    refine ih (h.forward hready (fun id hid => ?_) (hinit l List.mem_cons_self)) (hstatus.trans hready) ?_ hrest ?_
    · exact hnew id (List.mem_append_left _ (Option.mem_toList.mpr hid))
    · intro id hid hmem
      rw [hunanswered] at hmem
      cases List.mem_append.mp hmem with
      | inl hold => exact hnew id (List.mem_append_right _ hid) hold
      | inr hl => exact hapart id hl id hid rfl
    · intro l' hl' id hid
      rw [hclient]
      exact hinit l' (List.mem_cons_of_mem l hl') id hid

theorem route (h : s.Conserved l.tracked.toList) (hpending : (s.pending ++ [l]).Sublist s.received)
    (hnew : ∀ id, l.request = some id → id ∉ s.unanswered)
    (hinit : ∀ id, l.request = some id → l.tracked = some id ∨ s.clientInitId = some id) :
    (s.routeToDaemon l).Conserved [] := by
  rw [← List.append_nil l.tracked.toList] at h
  rw [routeToDaemon]
  split
  · next hready => exact h.forward hready hnew hinit
  · exact h.handleLocally false
  · next hconnecting =>
    exact
      { h with
        total_eq := fun id => by
          have heq := h.total_eq id
          have htracked : (s.pending ++ [l]).filterMap Line.tracked = s.pending.filterMap Line.tracked ++
              l.tracked.toList := by
            rw [List.filterMap_append]
            cases hl : l.tracked <;> simp [hl]
          simp only [total, answered, waiting, asked, htracked, List.count_append, List.append_nil, List.count_nil]
            at heq ⊢
          omega
        pending := hpending
        connecting := fun hnot => absurd hconnecting hnot }

/-- **A line of the host**, with an id of its own. -/
theorem line (h : s.Conserved []) (hfresh : ∀ id, l.request = some id → id ∉ s.asked)
    (honce : l.initializes = true → ∀ l' ∈ s.received, l'.initializes = false) :
    ({ s with received := s.received ++ [l] }.handleLine l).Conserved [] := by
  have hasked : (s.received ++ [l]).filterMap Line.request = s.asked ++ l.request.toList := by
    rw [List.filterMap_append]
    cases hl : l.request <;> simp [asked, hl]
  have hnodup : (s.asked ++ l.request.toList).Nodup := by
    cases hl : l.request with
    | none => exact (List.append_nil s.asked).symm ▸ h.nodup
    | some id =>
      refine h.nodup.append (List.nodup_singleton id) fun x hx hid => ?_
      exact hfresh id hl (List.mem_singleton.mp hid ▸ hx)
  have hpending : (s.pending ++ [l]).Sublist (s.received ++ [l]) := h.pending.append (List.Sublist.refl _)
  have hunsent : ∀ id, l.request = some id → id ∉ s.unanswered :=
    fun id hid hmem => hfresh id hid (h.asked_of_sent hmem)
  cases hl : l.initializes with
  | true =>
    obtain ⟨lid, rfl, htracked, hrequest⟩ := Line.eq_of_initializes hl
    have hbefore : ∀ id, s.clientInitId ≠ some id := fun id hid => by
      have hold := honce hl _ (h.initializes id hid).1
      exact absurd hold (by simp [Line.initializes])
    rw [handleLine, if_pos rfl]
    refine route ?_ hpending hunsent fun id hid => .inr (hrequest.symm.trans hid)
    rw [htracked]
    exact
      { h with
        total_eq := fun id => by
          have hwrite : (s.write (.answer (.msg lid (some "initialize")) .initializeResult)).total id = _ := total_write
          have heq := h.total_eq id
          simp only [List.count_nil, Nat.add_zero] at heq
          simp only [total, answered, waiting, State.write, asked, hasked, List.count_append, Out.request]
            at hwrite heq ⊢
          simp only [Option.toList_none, List.count_nil]
          omega
        nodup := by
          rw [asked]
          exact hasked ▸ hnodup
        initialized := fun l' hl' id hid => by
          cases List.mem_append.mp hl' with
          | inl hold =>
            have hnot := honce hl l' hold
            rw [hid] at hnot
            exact absurd hnot (by simp [Line.initializes])
          | inr hnew =>
            rw [List.mem_singleton.mp hnew] at hid
            exact (Line.msg.inj hid).1
        initializes := fun id hid => by
          change lid = some id at hid
          subst hid
          refine ⟨List.mem_append_right _ (List.mem_singleton_self _), ?_⟩
          rw [answered]
          show id ∈ (s.out ++ [(.answer (.msg (some id) (some "initialize")) .initializeResult : Out Id R)]).filterMap _
          rw [List.filterMap_append]
          exact List.mem_append_right _ (List.mem_singleton_self id)
        sent := fun id hid => .inl ((h.sent id hid).resolve_right (hbefore id))
        pending := h.pending.trans (List.sublist_append_left _ _) }
  | false =>
    have hreceived : ({ s with received := s.received ++ [l] } : State Id R).Conserved (l.request.toList ++ []) :=
      { h with
        total_eq := fun id => by
          have heq := h.total_eq id
          rw [List.count_nil, Nat.add_zero] at heq
          show s.total id + (l.request.toList ++ []).count id = ((s.received ++ [l]).filterMap Line.request).count id
          rw [hasked, heq, List.append_nil, List.count_append]
        nodup := by
          rw [asked]
          exact hasked ▸ hnodup
        initialized := fun l' hl' id hid => by
          cases List.mem_append.mp hl' with
          | inl hold => exact h.initialized l' hold id hid
          | inr hnew =>
            rw [← List.mem_singleton.mp hnew, hid] at hl
            exact absurd hl (by simp [Line.initializes])
        initializes := fun id hid => ⟨List.mem_append_left _ (h.initializes id hid).1, (h.initializes id hid).2⟩
        pending := h.pending.trans (List.sublist_append_left _ _) }
    have htracked := Line.tracked_eq_request hl
    have hroute : (({ s with received := s.received ++ [l] } : State Id R).routeToDaemon l).Conserved [] :=
      route (by rw [htracked, ← List.append_nil l.request.toList]; exact hreceived) hpending hunsent
        fun id hid => .inl (htracked.trans hid)
    cases l with
    | garbage => exact hroute
    | msg lid method =>
      rw [handleLine, if_neg (of_decide_eq_false hl)]
      split
      · exact hreceived.write (o := .answer _ .tools)
      · split
        · exact hreceived.write (o := .answer _ .resources)
        · split
          · exact hreceived.write (o := .answer _ .resourceTemplates)
          · split
            · exact hreceived.write (o := .answer _ .prompts)
            · exact hroute

/-- **The daemon comes up**, and gets what was waiting for it. -/
theorem connect (h : s.Conserved []) (hconnecting : s.daemonStatus = .connecting) : s.connect.Conserved [] := by
  have hnone : s.inflight = [] ∧ s.unanswered = [] := h.ready (by rw [hconnecting]; exact nofun)
  have hstart : ({ s with daemonStatus := .ready, pending := [] } : State Id R).Conserved
      (s.pending.filterMap Line.tracked) :=
    { h with
      total_eq := fun id => by
        have heq := h.total_eq id
        simp only [total, answered, waiting, asked, List.count_append, List.filterMap_nil, List.count_nil] at heq ⊢
        omega
      pending := List.nil_sublist _
      connecting := fun _ => rfl
      ready := fun hnot => absurd rfl hnot
      failed := fun _ => h.failed (by rw [hconnecting]; exact nofun) }
  rw [State.connect]
  refine hstart.forwards rfl (fun id _ hmem => ?_) ((h.pending.filterMap _).nodup h.nodup) fun l hl id hid => ?_
  · exact List.not_mem_nil (hnone.2 ▸ hmem)
  · cases hinit : l.initializes with
    | true =>
      obtain ⟨lid, rfl, -, hrequest⟩ := Line.eq_of_initializes hinit
      exact .inr ((h.initialized _ (h.pending.subset hl) lid rfl).trans (hrequest.symm.trans hid))
    | false => exact .inl ((Line.tracked_eq_request hinit).trans hid)

theorem unavailable (h : s.Conserved []) (hconnecting : s.daemonStatus = .connecting) :
    ({ s with daemonStatus := .failed, buffered := s.pending, pending := [] } : State Id R).Conserved [] :=
  { h with
    total_eq := fun id => by
      have heq := h.total_eq id
      have hnone := h.failed (by rw [hconnecting]; exact nofun)
      simp only [total, answered, waiting, asked, hnone, List.count_append, List.filterMap_nil, List.count_nil] at heq ⊢
      omega
    pending := List.nil_sublist _
    connecting := fun _ => rfl
    ready := fun _ => h.ready (by rw [hconnecting]; exact nofun)
    failed := fun hnot => absurd rfl hnot }

/-- **A reply of the daemon** is the one reply to its request. -/
theorem relay (h : s.Conserved []) (hready : s.daemonStatus = .ready) (hid : id ∈ s.unanswered) :
    (s.relay id).Conserved [] := by
  have hkeys : (s.inflight.filter (·.1 ≠ id)).map (·.1) = (s.inflight.map (·.1)).filter (· ≠ id) := by
    rw [List.filter_map]
    rfl
  have hsent : ∀ x ∈ s.unanswered.erase id,
      x ∈ (s.inflight.filter (·.1 ≠ id)).map (·.1) ∨ s.clientInitId = some x := by
    intro x hx
    obtain ⟨hne, hmem⟩ := (h.sent_once.mem_erase_iff).mp hx
    refine (h.sent x hmem).imp_left fun hflight => ?_
    rw [hkeys]
    exact List.mem_filter.mpr ⟨hflight, decide_eq_true hne⟩
  have hafter : ∀ owed, (∀ x, (s.answered.count x + (s.pending.filterMap Line.tracked ++
      (s.inflight.map (·.1)).filter (· ≠ id) ++ s.buffered.filterMap Line.tracked ++
        s.jobs.filterMap (·.line.tracked)).count x) + List.count x owed = s.asked.count x) →
      ({ s with
        inflight := s.inflight.filter (·.1 ≠ id)
        unanswered := s.unanswered.erase id } : State Id R).Conserved owed := fun owed htotal =>
    { h with
      total_eq := fun x => by
        rw [total, waiting]
        show s.answered.count x + (s.pending.filterMap Line.tracked ++ (s.inflight.filter (·.1 ≠ id)).map (·.1) ++
          s.buffered.filterMap Line.tracked ++ s.jobs.filterMap (·.line.tracked)).count x + List.count x owed = _
        rw [hkeys]
        exact htotal x
      sent := hsent
      sent_once := h.sent_once.erase id
      tracked := fun p hp => h.tracked p (List.mem_of_mem_filter hp)
      ready := fun hnot => absurd hready hnot }
  have hcount : ∀ x, x ≠ id → ((s.inflight.map (·.1)).filter (· ≠ id)).count x = (s.inflight.map (·.1)).count x :=
    fun x hx => List.count_filter (decide_eq_true hx)
  rw [State.relay]
  by_cases hinit : s.clientInitId = some id
  · rw [if_pos hinit]
    -- the reply to `initialize` was given before, and the map does not have it
    have hnot : id ∉ s.inflight.map (·.1) := fun hmem => (h.of_mem_inflight hmem).1 (h.initializes id hinit).2
    have hsame : (s.inflight.map (·.1)).filter (· ≠ id) = s.inflight.map (·.1) :=
      List.filter_eq_self.mpr fun x hx => decide_eq_true fun heq => hnot (heq ▸ hx)
    refine hafter [] fun x => ?_
    rw [hsame]
    exact h.total_eq x
  · rw [if_neg hinit]
    have hflight : id ∈ s.inflight.map (·.1) := (h.sent id hid).resolve_right hinit
    refine write (hafter [id] fun x => ?_)
    have heq := h.total_eq x
    simp only [total, waiting, List.count_append, List.count_nil] at heq ⊢
    by_cases hx : x = id
    · subst hx
      have hone : (s.inflight.map (·.1)).count x = 1 := List.count_eq_one_of_mem h.nodup_inflight hflight
      have hgone : ((s.inflight.map (·.1)).filter (· ≠ x)).count x = 0 :=
        List.count_eq_zero.mpr fun hmem => of_decide_eq_true (List.mem_filter.mp hmem).2 rfl
      rw [List.count_singleton_self]
      omega
    · rw [hcount x hx, List.count_singleton, if_neg (by simpa using fun heq => hx heq.symm)]
      omega

theorem serve {ls : List (Line Id)} (h : s.Conserved (ls.filterMap Line.tracked)) :
    (ls.foldl (fun s l => s.handleLocally l false) s).Conserved [] := by
  induction ls generalizing s with
  | nil => exact h
  | cons l ls ih =>
    refine ih ?_
    have hsplit : (l :: ls).filterMap Line.tracked = l.tracked.toList ++ ls.filterMap Line.tracked := by
      rw [List.filterMap_cons]
      cases l.tracked <;> rfl
    exact (hsplit ▸ h).handleLocally false

/-- **The loss of the daemon** leaves nothing to it. -/
theorem onDaemonLost (h : s.Conserved []) (hready : s.daemonStatus = .ready) : s.onDaemonLost.Conserved [] := by
  have hkeys : ∀ m : List (Id × Line Id), (∀ p ∈ m, p.2.tracked = some p.1) →
      (m.map (·.2)).filterMap Line.tracked = m.map (·.1) := by
    intro m hm
    induction m with
    | nil => rfl
    | cons p m ih =>
      obtain ⟨hp, hm⟩ := List.forall_mem_cons.mp hm
      rw [List.map_cons, List.filterMap_cons, hp, ih hm, List.map_cons]
  have hpending : s.pending = [] := h.connecting (by rw [hready]; exact nofun)
  refine serve ?_
  rw [hkeys s.inflight h.tracked]
  exact
    { h with
      total_eq := fun id => by
        have heq := h.total_eq id
        simp only [total, answered, waiting, asked, List.count_append, List.map_nil, List.count_nil] at heq ⊢
        omega
      sent := fun _ hmem => absurd hmem List.not_mem_nil
      sent_once := List.nodup_nil
      tracked := fun _ hmem => absurd hmem List.not_mem_nil
      connecting := fun _ => hpending
      ready := fun _ => ⟨rfl, rfl⟩
      failed := fun hnot => absurd rfl hnot }

theorem next (h : s.Conserved []) {rest : List (Line Id)} (hbuffered : s.buffered = l :: rest) :
    (({ s with buffered := rest } : State Id R).handleLocally l true).Conserved [] := by
  have hrest : ({ s with buffered := rest } : State Id R).Conserved (l.tracked.toList ++ []) :=
    { h with
      total_eq := fun id => by
        have heq := h.total_eq id
        have hsplit : (l :: rest).filterMap Line.tracked = l.tracked.toList ++ rest.filterMap Line.tracked := by
          rw [List.filterMap_cons]
          cases l.tracked <;> rfl
        simp only [total, answered, waiting, asked, hbuffered, hsplit, List.count_append, List.count_nil] at heq ⊢
        omega
      failed := fun hnot => absurd (hbuffered.symm.trans (h.failed hnot)) nofun }
  exact hrest.handleLocally true

theorem settle (h : s.Conserved []) {job : Job Id} {k : ℕ} (hjob : s.jobs[k]? = some job) (a : R ⊕ String) :
    (s.settle job k a).Conserved [] := by
  obtain ⟨hk, hget⟩ := List.getElem?_eq_some_iff.mp hjob
  have hperm : (job :: s.jobs.eraseIdx k).Perm s.jobs := hget ▸ List.getElem_cons_eraseIdx_perm hk
  have hrequest := h.jobs job (List.mem_of_getElem? hjob)
  refine write (o := .answer job.line (a.elim .result .error)) ?_
  show State.Conserved _ (job.line.request.toList ++ [])
  rw [hrequest]
  exact
    { h with
      total_eq := fun id => by
        have heq := h.total_eq id
        have hcount := (hperm.filterMap fun job => job.line.tracked).count_eq id
        have hsplit : (job :: s.jobs.eraseIdx k).filterMap (fun job => job.line.tracked) =
            job.line.tracked.toList ++ (s.jobs.eraseIdx k).filterMap fun job => job.line.tracked := by
          rw [List.filterMap_cons]
          cases job.line.tracked <;> rfl
        rw [hsplit, List.count_append] at hcount
        simp only [total, answered, waiting, asked, List.count_append, List.count_nil] at heq ⊢
        omega
      jobs := fun job' hjob' => h.jobs job' (List.mem_of_mem_eraseIdx hjob') }

end Conserved

variable (s) in
/-- The host gives each request an id of its own, and initializes once. -/
def Host : Act Id R → Prop
  | .line l =>
    (∀ id, l.request = some id → id ∉ s.asked) ∧
      (l.initializes = true → ∀ l' ∈ s.received, l'.initializes = false)
  | _ => True

theorem Conserved.step (h : s.Conserved []) {a : Act Id R} (hhost : s.Host a) {s' : State Id R}
    (hstep : s.step a = some s') : s'.Conserved [] := by
  rw [State.step.eq_def] at hstep
  obtain ⟨-, hstep⟩ := Option.ite_none_left_eq_some.mp hstep
  cases a with
  | line l =>
    obtain rfl := Option.some.inj hstep
    exact h.line hhost.1 hhost.2
  | connected =>
    obtain ⟨hconnecting, hs⟩ := Option.ite_none_right_eq_some.mp hstep
    obtain rfl := Option.some.inj hs
    exact h.connect hconnecting
  | unavailable =>
    obtain ⟨hconnecting, hs⟩ := Option.ite_none_right_eq_some.mp hstep
    obtain rfl := Option.some.inj hs
    exact h.unavailable hconnecting
  | reply id =>
    obtain ⟨⟨hready, hid⟩, hs⟩ := Option.ite_none_right_eq_some.mp hstep
    obtain rfl := Option.some.inj hs
    exact h.relay hready hid
  | verbatim text =>
    obtain ⟨-, hs⟩ := Option.ite_none_right_eq_some.mp hstep
    obtain rfl := Option.some.inj hs
    exact Conserved.write (o := .verbatim text) h
  | lost =>
    obtain ⟨hready, hs⟩ := Option.ite_none_right_eq_some.mp hstep
    obtain rfl := Option.some.inj hs
    exact h.onDaemonLost hready
  | next =>
    simp only at hstep
    split at hstep
    · exact absurd hstep nofun
    · next hbuffered =>
      obtain ⟨-, hs⟩ := Option.ite_none_left_eq_some.mp hstep
      obtain rfl := Option.some.inj hs
      exact h.next hbuffered
  | finish k a =>
    simp only at hstep
    split at hstep
    · exact absurd hstep nofun
    · next hjob =>
      obtain rfl := Option.some.inj hstep
      exact h.settle hjob a
  | shutdown =>
    obtain rfl := Option.some.inj hstep
    exact { h with }

theorem conserved_exec {acts : List (Act Id R)} (h : (machine Id R).exec {} acts = some s)
    (hhost : (machine Id R).Along Host {} acts) : s.Conserved [] :=
  Machine.invariant (I := fun s => State.Conserved s []) (fun _ _ _ hs hok hstep => hs.step hok hstep) .init hhost h

/-- When nothing waits, all that was asked was answered. -/
theorem Conserved.perm (h : s.Conserved []) (hrest : s.waiting = []) : s.answered.Perm s.asked := by
  refine List.perm_iff_count.mpr fun id => ?_
  have heq := h.total_eq id
  simpa only [total, hrest, List.count_nil, Nat.add_zero] using heq

/-- A host that initializes and calls a tool, and whose daemon is lost before it has replied to the call. -/
def lostSession : List (Act ℕ Unit) :=
  [.line (.msg (some 0) (some "initialize")), .line (.msg (some 1) (some "tools/call")), .connected, .reply 0, .lost]

theorem host_lostSession : (machine ℕ Unit).Along Host {} lostSession := by
  refine ⟨⟨fun _ _ => List.not_mem_nil, fun _ _ h => absurd h List.not_mem_nil⟩, fun s₁ hs₁ => ?_⟩
  obtain rfl := Option.some.inj hs₁
  refine ⟨⟨?_, nofun⟩, fun s₂ _ => Machine.Along.of_forall_mem (by simp [Host]) s₂⟩
  rintro _ ⟨⟩
  decide

/-- The response of the host to a request of the daemon, which is lost, is answered with an error. -/
example :
    ((machine ℕ Unit).exec {} [.connected, .verbatim "roots/list", .lost, .line (.msg (some 7) none)]).map (·.out) =
      some [.verbatim "roots/list", .answer (.msg (some 7) none) (.error "CodeGraph daemon unavailable")] := by
  decide +kernel

/-! ### No session hangs -/

/-- What is done here when the daemon does nothing any more. -/
def Local : Act Id R → Prop
  | .unavailable | .lost | .next | .finish _ _ => True
  | .line _ | .connected | .reply _ | .verbatim _ | .shutdown => False

omit [DecidableEq Id] in
/-- A line that is served here changes the calls and the output only. -/
theorem handleLocally_eq (s : State Id R) (l : Line Id) (b : Bool) :
    ∃ jobs out, s.handleLocally l b = { s with jobs := jobs, out := out } ∧ jobs.length ≤ s.jobs.length + 1 := by
  cases l with
  | garbage => exact ⟨s.jobs, s.out, rfl, Nat.le_succ _⟩
  | msg lid method =>
    cases lid with
    | none => exact ⟨s.jobs, s.out, rfl, Nat.le_succ _⟩
    | some lid =>
      rw [handleLocally]
      split
      · exact ⟨_, s.out, rfl, List.length_append.le⟩
      · split
        · exact ⟨s.jobs, _, rfl, Nat.le_succ _⟩
        · split
          · exact ⟨s.jobs, _, rfl, Nat.le_succ _⟩
          · exact ⟨s.jobs, s.out, rfl, Nat.le_succ _⟩

omit [DecidableEq Id] in
theorem foldl_handleLocally_eq (s : State Id R) (ls : List (Line Id)) :
    ∃ jobs out, ls.foldl (fun s l => s.handleLocally l false) s = { s with jobs := jobs, out := out } := by
  induction ls generalizing s with
  | nil => exact ⟨s.jobs, s.out, rfl⟩
  | cons l ls ih =>
    obtain ⟨jobs, out, heq, -⟩ := handleLocally_eq s l false
    obtain ⟨jobs', out', heq'⟩ := ih (s.handleLocally l false)
    exact ⟨jobs', out', heq'.trans (by rw [heq])⟩

/-- Without a daemon, the calls that run and the turns of the buffered lines end. -/
theorem exists_rest (r : R) (hup : s.shuttingDown = false) (hfailed : s.daemonStatus = .failed) :
    ∃ acts t, (∀ a ∈ acts, Local a) ∧ (machine Id R).exec s acts = some t ∧ t.daemonStatus = .failed ∧
      t.buffered = [] ∧ t.jobs = [] ∧ t.received = s.received := by
  induction hn : 2 * s.buffered.length + s.jobs.length using Nat.strong_induction_on generalizing s with
  | _ n ih =>
    subst hn
    cases hjobs : s.jobs with
    | cons job jobs =>
      -- the first call ends
      have hstep : s.step (.finish 0 (.inl r)) = some (s.settle job 0 (.inl r)) := by
        rw [State.step.eq_def, if_neg (by rw [hup]; exact Bool.false_ne_true)]
        simp only [hjobs, List.getElem?_cons_zero]
      have hless : 2 * (s.settle job 0 (.inl r)).buffered.length + (s.settle job 0 (.inl r)).jobs.length <
          2 * s.buffered.length + s.jobs.length := by
        show 2 * s.buffered.length + (s.jobs.eraseIdx 0).length < _
        rw [hjobs, List.eraseIdx_cons_zero, List.length_cons]
        omega
      obtain ⟨acts, t, hlocal, hexec, ht⟩ := ih _ hless (s := s.settle job 0 (.inl r)) hup hfailed rfl
      exact ⟨.finish 0 (.inl r) :: acts, t, List.forall_mem_cons.mpr ⟨trivial, hlocal⟩,
        Machine.exec_cons_eq_some.mpr ⟨_, hstep, hexec⟩, ht⟩
    | nil =>
      cases hbuffered : s.buffered with
      | nil => exact ⟨[], s, fun _ h => absurd h List.not_mem_nil, rfl, hfailed, hbuffered, hjobs, rfl⟩
      | cons l rest =>
        -- no call of a buffered line runs, so it is the turn of the next one
        obtain ⟨jobs, out, heq, hlength⟩ := handleLocally_eq { s with buffered := rest } l true
        have hstep : s.step .next = some { s with buffered := rest, jobs := jobs, out := out } := by
          rw [State.step.eq_def, if_neg (by rw [hup]; exact Bool.false_ne_true)]
          simp only [hbuffered, hjobs, List.any_nil, Bool.false_eq_true, if_false]
          rw [← hjobs, heq]
        have hless : 2 * rest.length + jobs.length < 2 * s.buffered.length + s.jobs.length := by
          change jobs.length ≤ s.jobs.length + 1 at hlength
          rw [hbuffered, List.length_cons]
          omega
        obtain ⟨acts, t, hlocal, hexec, ht⟩ :=
          ih _ hless (s := { s with buffered := rest, jobs := jobs, out := out }) hup hfailed rfl
        exact ⟨.next :: acts, t, List.forall_mem_cons.mpr ⟨trivial, hlocal⟩,
          Machine.exec_cons_eq_some.mpr ⟨_, hstep, hexec⟩, ht⟩

/-- **A broken daemon never wedges a session.** Whatever has happened, once the daemon is gone what is done here
answers every request of the host. -/
theorem never_wedged (r : R) {acts : List (Act Id R)} (h : (machine Id R).exec {} acts = some s)
    (hhost : (machine Id R).Along Host {} acts) (hup : s.shuttingDown = false) :
    ∃ acts' t, (∀ a ∈ acts', Local a) ∧ (machine Id R).exec s acts' = some t ∧ t.answered.Perm s.asked := by
  have hconserved := conserved_exec h hhost
  -- the daemon does not come up, or is lost, unless that has happened before
  have hgone : ∃ acts₁ s₁, (∀ a ∈ acts₁, Local a) ∧ (machine Id R).exec s acts₁ = some s₁ ∧
      s₁.shuttingDown = false ∧ s₁.daemonStatus = .failed ∧ s₁.received = s.received := by
    have hopen : ¬ (s.shuttingDown = true) := by
      rw [hup]
      exact Bool.false_ne_true
    cases hstatus : s.daemonStatus with
    | failed => exact ⟨[], s, fun _ h => absurd h List.not_mem_nil, rfl, hup, hstatus, rfl⟩
    | connecting =>
      have hstep : s.step .unavailable =
          some { s with daemonStatus := .failed, buffered := s.pending, pending := [] } := by
        rw [State.step.eq_def, if_neg hopen]
        simp only [hstatus, if_true]
      exact ⟨[.unavailable], { s with daemonStatus := .failed, buffered := s.pending, pending := [] },
        List.forall_mem_singleton.mpr trivial, Machine.exec_cons_eq_some.mpr ⟨_, hstep, rfl⟩, hup, rfl, rfl⟩
    | ready =>
      obtain ⟨jobs, out, heq⟩ := foldl_handleLocally_eq
        { s with daemonStatus := .failed, inflight := [], unanswered := [] } (s.inflight.map (·.2))
      have hstep : s.step .lost = some s.onDaemonLost := by
        rw [State.step.eq_def, if_neg hopen]
        simp only [hstatus, if_true]
      refine ⟨[.lost], s.onDaemonLost, List.forall_mem_singleton.mpr trivial,
        Machine.exec_cons_eq_some.mpr ⟨_, hstep, rfl⟩, ?_⟩
      rw [State.onDaemonLost, heq]
      exact ⟨hup, rfl, rfl⟩
  obtain ⟨acts₁, s₁, hlocal₁, hexec₁, hup₁, hfailed₁, hreceived₁⟩ := hgone
  obtain ⟨acts₂, t, hlocal₂, hexec₂, hfailed, hbuffered, hjobs, hreceived₂⟩ := exists_rest r hup₁ hfailed₁
  have hlocal : ∀ a ∈ acts₁ ++ acts₂, Local a := fun a ha => (List.mem_append.mp ha).elim (hlocal₁ a) (hlocal₂ a)
  have hexec : (machine Id R).exec s (acts₁ ++ acts₂) = some t := Machine.exec_append_eq_some.mpr ⟨s₁, hexec₁, hexec₂⟩
  have hquiet : ∀ a ∈ acts₁ ++ acts₂, ∀ s : State Id R, s.Host a := by
    intro a ha s
    have hlocal := hlocal a ha
    cases a with
    | line l => exact hlocal.elim
    | connected | unavailable | reply | verbatim | lost | next | finish | shutdown => trivial
  have ht : t.Conserved [] :=
    Machine.invariant (I := fun s => State.Conserved s []) (fun _ _ _ hs hok hstep => hs.step hok hstep) hconserved
      (Machine.Along.of_forall_mem hquiet s) hexec
  have hpending : t.pending = [] := ht.connecting (by rw [hfailed]; exact nofun)
  have hinflight : t.inflight = [] := (ht.ready (by rw [hfailed]; exact nofun)).1
  have hrest : t.waiting = [] := by
    rw [waiting, hpending, hinflight, hbuffered, hjobs]
    rfl
  refine ⟨acts₁ ++ acts₂, t, hlocal, hexec, ?_⟩
  have hperm := ht.perm hrest
  rwa [asked, hreceived₂, hreceived₁] at hperm

theorem never_wedged_lost :
    ∃ s acts t, (machine ℕ Unit).exec {} lostSession = some s ∧ (∀ a ∈ acts, Local a) ∧
      (machine ℕ Unit).exec s acts = some t ∧ t.answered.Perm s.asked := by
  have hstart : ((machine ℕ Unit).exec {} lostSession).map (·.shuttingDown) = some false := by decide +kernel
  obtain ⟨s, hs, hup⟩ := Option.map_eq_some_iff.mp hstart
  obtain ⟨acts, t, hlocal, hexec, hperm⟩ := never_wedged () hs host_lostSession hup
  exact ⟨s, acts, t, hs, hlocal, hexec, hperm⟩

end State

end Proxy

end Devrouter.Engine
