import Devrouter.Lib.Cut
import Devrouter.Lib.Machine
import Mathlib.Data.List.Nodup
import Mathlib.Data.Rat.Init
import Mathlib.Logic.Function.Basic
import Mathlib.Order.Nat
import Mathlib.Tactic.Common

/-!
# The clients of the daemon

Model of `Daemon` and `readClientHello` in `codegraph/src/mcp/daemon.ts`, with the framing of `SocketTransport` in
`transport.ts`. The daemon counts the sessions of its sockets, and stops some time after the last one is gone. Before
a socket gets a session the daemon waits for a line that tells the pids behind it. One step of `step` is one callback:
bytes of a socket, its close or error, the end of a timer, a signal. They come in any order.

The clock and the timers are numbers of milliseconds. A message that is handed to a session is its line; decoding it
is left out, and `JSON.parse` on the first line is a parameter.

`Sound` says whom the daemon counts and when its timer runs (`clients_open`). The socket that closes while its first
line is awaited is the exception: it is counted when it is gone (`early_close_pins`). `Framed` says which lines a
session gets (`session_lines`).
-/

namespace Devrouter.Engine

namespace Daemon

/-- A field of an object. -/
inductive Field where
  | number (n : ℚ)
  | other
  deriving DecidableEq

structure Peers where
  pid : Option ℚ
  hostPid : Option ℚ
  deriving DecidableEq

structure Config where
  idleTimeoutMs : ℕ
  maxIdleMs : ℕ
  /-- The object on a line, if the line is one. -/
  parse : List UInt8 → Option (String → Option Field)
  /-- Bytes that are put back on a flowing socket wait for the next listener. Where they do not, they go to the
  listeners there are, and there is none before the session starts. -/
  keepsPutBack : Bool

variable (cfg : Config)

/-- The socket of a client, before and after it gets its session. -/
inductive Stage where
  | hello (all : List UInt8) (deadline : ℕ)
  | session (buffer : List UInt8) (handled : List (List UInt8)) (stopped : Bool)
  deriving DecidableEq

structure Conn where
  stage : Stage
  /-- It is open. -/
  live : Bool := true
  /-- All bytes so far. -/
  received : List UInt8 := []
  /-- The bytes that were read before there was a session. -/
  read : List UInt8 := []
  /-- The wait for the first line was ended by what was read. -/
  byRead : Bool := false
  deriving DecidableEq

structure State where
  conns : List Conn := []
  clients : List ℕ := []
  clientPeers : ℕ → Option Peers := fun _ => none
  /-- When the timer ends. -/
  idleTimer : Option ℕ := none
  lastActivityAt : ℕ
  now : ℕ
  stopping : Bool := false
  exited : Bool := false

inductive Act where
  | connect
  | data (i : ℕ) (chunk : List UInt8)
  | helloTimeout (i : ℕ)
  /-- It closes, with an error or without. -/
  | close (i : ℕ)
  | tick (ms : ℕ)
  | idle
  | backstop
  | sweep (isAlive : ℚ → Bool)
  | stop
  /-- The server is closed. -/
  | exit

def newline : UInt8 := 0x0a

def clientHelloTimeoutMs : ℕ := 3000

def maxHelloLineBytes : ℕ := 4096

def noPeers : Peers := ⟨none, none⟩

def parseClientHelloLine (line : List UInt8) : Option Peers :=
  match cfg.parse line with
  | none => none
  | some o =>
    if o "codegraph_client" ≠ some (.number 1) then none
    else
      match o "pid" with
      | some (.number pid) =>
        some ⟨some pid, match o "hostPid" with
          | some (.number host) => some host
          | _ => none⟩
      | _ => none

def peerIsDead (peers : Peers) (isAlive : ℚ → Bool) : Bool :=
  match peers.pid with
  | none => false
  | some pid => if !isAlive pid then true else peers.hostPid.any fun host => !isAlive host

/-- The listener of the transport. -/
def Conn.deliver (c : Conn) (chunk : List UInt8) : Conn :=
  match c.stage with
  | .hello .. => c
  | .session buffer handled stopped =>
    let r := Cut.drain newline (buffer ++ chunk).length (buffer ++ chunk)
    { c with stage := .session r.2 (handled ++ r.1) stopped }

/-- `start` of the transport, and the bytes that it finds. -/
def Conn.begin (c : Conn) (putBack : List UInt8) : Conn :=
  let c' := { c with stage := .session [] [] false }
  if putBack = [] then c' else c'.deliver putBack

/-- `stop` of the transport. -/
def Conn.stop (c : Conn) : Conn :=
  match c.stage with
  | .hello .. => c
  | .session buffer handled stopped =>
    if stopped then c else { c with stage := .session buffer handled true, live := false }

namespace State

def armIdleTimer (s : State) : State :=
  if s.idleTimer.isSome ∨ s.stopping then s
  else if cfg.idleTimeoutMs = 0 then s
  else { s with idleTimer := some (s.now + cfg.idleTimeoutMs) }

def dropClient (s : State) (i : ℕ) : State :=
  if i ∈ s.clients then
    let s' := { s with clients := s.clients.erase i, clientPeers := Function.update s.clientPeers i none }
    if s'.clients = [] then s'.armIdleTimer cfg else s'
  else s

/-- What follows `readClientHello`: the socket gets its session, and what was put back is read first. -/
def startSession (s : State) (i : ℕ) (c : Conn) (peers : Peers) (back : List UInt8) : State :=
  let putBack := if cfg.keepsPutBack then back else []
  { s with
    conns := s.conns.set i (c.begin putBack)
    clients := if i ∈ s.clients then s.clients else s.clients ++ [i]
    clientPeers := Function.update s.clientPeers i (some peers)
    -- the idle timer is disarmed
    idleTimer := none
    lastActivityAt := if putBack = [] then s.lastActivityAt else s.now }

def onData (s : State) (i : ℕ) (c : Conn) (chunk : List UInt8) : State :=
  match c.stage with
  | .session .. => { s with conns := s.conns.set i (c.deliver chunk), lastActivityAt := s.now }
  | .hello read deadline =>
    let all := read ++ chunk
    match all.idxOf? newline with
    | none =>
      if maxHelloLineBytes < all.length then s.startSession cfg i { c with read := all, byRead := true } noPeers all
      else { s with conns := s.conns.set i { c with stage := .hello all deadline } }
    | some nl =>
      match parseClientHelloLine cfg (all.take nl) with
      | some peers => s.startSession cfg i { c with read := all, byRead := true } peers (all.drop (nl + 1))
      | none => s.startSession cfg i { c with read := all, byRead := true } noPeers all

def onClose (s : State) (i : ℕ) (c : Conn) : State :=
  match c.stage with
  | .hello all _ => s.startSession cfg i { c with live := false, read := all } noPeers []
  | .session buffer handled stopped =>
    if stopped then { s with conns := s.conns.set i { c with live := false } }
    else
      { s with conns := s.conns.set i { c with stage := .session buffer handled true, live := false } }.dropClient cfg i

/-- What `reapDeadClients` does about one client. -/
def reap (isAlive : ℚ → Bool) (s : State) (i : ℕ) : State :=
  match s.clientPeers i with
  | none => s
  | some peers =>
    if peerIsDead peers isAlive then { s with conns := s.conns.modify i Conn.stop }.dropClient cfg i else s

def reapDeadClients (s : State) (isAlive : ℚ → Bool) : State := s.clients.foldl (reap cfg isAlive) s

/-- `stop`, up to where it waits for the server. -/
def stop (s : State) : State :=
  if s.stopping then s
  else
    { s with
      stopping := true
      idleTimer := none
      conns := s.clients.foldl (fun conns i => conns.modify i Conn.stop) s.conns
      clients := [] }

end State

def step (s : State) (a : Act) : Option State :=
  if s.exited then none
  else
    match a with
    | .connect =>
      if s.stopping then none
      else some { s with conns := s.conns ++ [{ stage := .hello [] (s.now + clientHelloTimeoutMs) }] }
    | .data i chunk =>
      (s.conns[i]?.filter (·.live)).map fun c => s.onData cfg i { c with received := c.received ++ chunk } chunk
    | .helloTimeout i =>
      s.conns[i]?.bind fun c =>
        match c.stage with
        | .hello all deadline =>
          if deadline ≤ s.now then some (s.startSession cfg i { c with read := all } noPeers []) else none
        | .session .. => none
    | .close i => (s.conns[i]?.filter (·.live)).map (s.onClose cfg i)
    | .tick ms => some { s with now := s.now + ms }
    | .idle =>
      s.idleTimer.bind fun deadline =>
        if deadline ≤ s.now then
          let s' := { s with idleTimer := none }
          some (if s.clients ≠ [] then s'.armIdleTimer cfg else s'.stop)
        else none
    | .backstop =>
      if cfg.maxIdleMs = 0 ∨ s.stopping then none
      else if s.clients = [] then some s
      else if s.lastActivityAt + cfg.maxIdleMs ≤ s.now then some s.stop
      else some s
    | .sweep isAlive => if s.stopping then none else some (s.reapDeadClients cfg isAlive)
    | .stop => some s.stop
    | .exit => if s.stopping ∧ ∀ c ∈ s.conns, c.live = false then some { s with exited := true } else none

def machine : Machine State Act := ⟨step cfg⟩

/-- The daemon when it listens. -/
def start (now : ℕ) : State := ({ lastActivityAt := now, now := now } : State).armIdleTimer cfg

/-! ### Whom the daemon counts -/

/-- It has a session, and the session was not told that it is over. -/
def Conn.counted (c : Conn) : Bool :=
  match c.stage with
  | .session _ _ stopped => !stopped
  | .hello .. => false

/-- An open socket waits for its session or has one that goes on. -/
def Conn.Sane (c : Conn) : Prop :=
  match c.stage with
  | .hello .. => c.live = true
  | .session _ _ stopped => stopped = true → c.live = false

def Counts (conns : List Conn) (i : ℕ) : Prop := ∃ c, conns[i]? = some c ∧ c.counted = true

structure State.Sound (s : State) : Prop where
  nodup : s.clients.Nodup
  sane : ∀ c ∈ s.conns, c.Sane
  client : s.stopping = false → ∀ i, i ∈ s.clients ↔ Counts s.conns i
  timer : s.stopping = false → (s.idleTimer.isSome = true ↔ s.clients = [] ∧ cfg.idleTimeoutMs ≠ 0)
  known : s.stopping = false → ∀ i, s.clientPeers i ≠ none → i ∈ s.clients
  due : s.stopping = false → ∀ d, s.idleTimer = some d → d ≤ s.now + cfg.idleTimeoutMs
  ended : s.exited = true → s.stopping = true

@[simp] theorem Conn.deliver_live (c : Conn) (chunk : List UInt8) : (c.deliver chunk).live = c.live := by
  unfold deliver
  split <;> rfl

@[simp] theorem Conn.deliver_counted (c : Conn) (chunk : List UInt8) : (c.deliver chunk).counted = c.counted := by
  unfold deliver
  split
  · rfl
  · rename_i heq
    rw [counted, counted, heq]

theorem Conn.Sane.deliver {c : Conn} (h : c.Sane) (chunk : List UInt8) : (c.deliver chunk).Sane := by
  unfold Conn.deliver
  split
  · exact h
  · rename_i heq
    unfold Sane at h ⊢
    rw [heq] at h
    exact h

@[simp] theorem Conn.begin_counted (c : Conn) (putBack : List UInt8) : (c.begin putBack).counted = true := by
  unfold begin
  split
  · rfl
  · exact deliver_counted _ putBack

theorem Conn.begin_sane (c : Conn) (putBack : List UInt8) : (c.begin putBack).Sane := by
  have hsane : ({ c with stage := .session [] [] false } : Conn).Sane := nofun
  unfold begin
  split
  · exact hsane
  · exact hsane.deliver putBack

theorem Conn.Sane.stop {c : Conn} (h : c.Sane) : c.stop.Sane := by
  unfold Conn.stop
  split
  · exact h
  · split
    · exact h
    · exact fun _ => rfl

theorem Conn.stop_counted (c : Conn) : c.stop.counted = false := by
  unfold stop
  split
  · rename_i heq
    rw [counted, heq]
  · rename_i heq
    split
    · rename_i hstopped
      rw [counted, heq, hstopped]
      rfl
    · rfl

section Counts

variable {conns : List Conn} {i j : ℕ} {c c' : Conn}

theorem counts_set_self (h : conns[i]? = some c) : Counts (conns.set i c') i ↔ c'.counted = true := by
  have hlt : i < conns.length := (List.getElem?_eq_some_iff.mp h).1
  simp [Counts, hlt]

theorem counts_set_ne (h : j ≠ i) : Counts (conns.set i c') j ↔ Counts conns j := by
  rw [Counts, List.getElem?_set_ne h.symm, Counts]

theorem counts_modify_stop : Counts (conns.modify i Conn.stop) j ↔ j ≠ i ∧ Counts conns j := by
  unfold Counts
  rw [List.getElem?_modify]
  by_cases heq : i = j
  · refine ⟨fun ⟨c, hc, hcounted⟩ => ?_, fun h => absurd heq.symm h.1⟩
    obtain ⟨b, -, rfl⟩ := Option.map_eq_some_iff.mp hc
    rw [if_pos heq, Conn.stop_counted] at hcounted
    exact absurd hcounted Bool.false_ne_true
  · simp [heq, Ne.symm heq]

theorem counts_append {c : Conn} (h : c.counted = false) : Counts (conns ++ [c]) j ↔ Counts conns j := by
  unfold Counts
  by_cases hj : j < conns.length
  · rw [List.getElem?_append_left hj]
  · rw [List.getElem?_append_right (not_lt.mp hj), List.getElem?_eq_none (not_lt.mp hj)]
    refine ⟨fun ⟨b, hb, hcounted⟩ => ?_, fun ⟨b, hb, _⟩ => absurd hb nofun⟩
    have hmem := List.mem_of_getElem? hb
    rw [List.mem_singleton.mp hmem, h] at hcounted
    exact absurd hcounted Bool.false_ne_true

end Counts

namespace State

variable {cfg} {s : State} {i : ℕ} {c : Conn}

theorem mem_startSession (s : State) (i : ℕ) (c : Conn) (peers : Peers) (back : List UInt8) :
    i ∈ (s.startSession cfg i c peers back).clients := by
  unfold State.startSession
  dsimp only
  split
  · assumption
  · exact List.mem_append_right _ (List.mem_singleton_self i)

theorem Sound.startSession (h : s.Sound cfg) (hc : s.conns[i]? = some c) (c' : Conn) (peers : Peers)
    (back : List UInt8) : (s.startSession cfg i c' peers back).Sound cfg := by
  have hmem : ∀ j, j ∈ (s.startSession cfg i c' peers back).clients ↔ j = i ∨ j ∈ s.clients := by
    intro j
    unfold State.startSession
    dsimp only
    split
    · rename_i hi
      exact ⟨.inr, fun hj => hj.elim (fun heq => heq ▸ hi) id⟩
    · rw [List.mem_append, List.mem_singleton, or_comm]
  constructor
  · unfold State.startSession
    dsimp only
    split
    · exact h.nodup
    · rename_i hi
      refine List.nodup_append.mpr ⟨h.nodup, List.nodup_singleton i, fun a ha b hb => ?_⟩
      rw [List.mem_singleton.mp hb]
      exact fun heq => hi (heq ▸ ha)
  · intro d hd
    obtain hd | rfl := List.mem_or_eq_of_mem_set hd
    · exact h.sane d hd
    · exact c'.begin_sane _
  · intro hstop j
    rw [hmem j]
    by_cases heq : j = i
    · subst heq
      exact iff_of_true (.inl rfl) ((counts_set_self hc).mpr (c'.begin_counted _))
    · rw [show Counts (s.startSession cfg i c' peers back).conns j ↔ _ from counts_set_ne heq, ← h.client hstop j]
      exact or_iff_right heq
  · intro _
    refine iff_of_false Bool.false_ne_true fun hnil => ?_
    exact List.not_mem_nil (hnil.1 ▸ (hmem i).mpr (.inl rfl))
  · intro hstop j hj
    rw [hmem j]
    by_cases heq : j = i
    · exact .inl heq
    · exact .inr (h.known hstop j (ne_of_eq_of_ne (Function.update_of_ne heq _ _).symm hj))
  · exact fun _ _ => nofun
  · exact h.ended

theorem Sound.deliver (h : s.Sound cfg) {e : Conn} (hc : s.conns[i]? = some c) (hsane : e.Sane)
    (hcounted : e.counted = c.counted) (t : ℕ) :
    ({ s with conns := s.conns.set i e, lastActivityAt := t } : State).Sound cfg where
  nodup := h.nodup
  sane d hd := (List.mem_or_eq_of_mem_set hd).elim (h.sane d) fun heq => heq ▸ hsane
  client hstop j := by
    rw [h.client hstop j]
    by_cases heq : j = i
    · subst heq
      rw [show Counts (s.conns.set j e) j ↔ _ from counts_set_self hc, hcounted]
      exact ⟨fun ⟨d, hd, hcount⟩ => Option.some.inj (hc.symm.trans hd) ▸ hcount, fun hcount => ⟨c, hc, hcount⟩⟩
    · exact (counts_set_ne heq).symm
  timer := h.timer
  known := h.known
  due := h.due
  ended := h.ended

/-- A client is dropped whose session is over. -/
theorem Sound.dropClient (hnodup : s.clients.Nodup) (hsane : ∀ c ∈ s.conns, c.Sane)
    (hclient : s.stopping = false → ∀ j, j ∈ s.clients ↔ j = i ∨ Counts s.conns j) (hgone : ¬Counts s.conns i)
    (htimer : s.stopping = false → s.idleTimer = none)
    (hknown : s.stopping = false → ∀ j, s.clientPeers j ≠ none → j ∈ s.clients)
    (hended : s.exited = true → s.stopping = true) : (s.dropClient cfg i).Sound cfg := by
  have hunset : s.stopping = false → ∀ d, s.idleTimer = some d → d ≤ s.now + cfg.idleTimeoutMs :=
    fun hstop d hd => absurd ((htimer hstop).symm.trans hd) nofun
  have herase : s.stopping = false → ∀ j, j ∈ s.clients.erase i ↔ Counts s.conns j := by
    intro hstop j
    rw [hnodup.mem_erase_iff, hclient hstop j]
    exact ⟨fun h => h.2.resolve_left h.1, fun h => ⟨fun heq => hgone (heq ▸ h), .inr h⟩⟩
  have hforget : s.stopping = false → ∀ j, Function.update s.clientPeers i none j ≠ none → j ∈ s.clients.erase i := by
    intro hstop j hj
    have hne : j ≠ i := fun heq => hj (by rw [heq, Function.update_self])
    exact (hnodup.mem_erase_iff).mpr ⟨hne, hknown hstop j (ne_of_eq_of_ne (Function.update_of_ne hne _ _).symm hj)⟩
  unfold State.dropClient
  split
  · dsimp only
    split
    · rename_i hi hnil
      unfold armIdleTimer
      split
      · rename_i harmed
        refine ⟨hnodup.erase i, hsane, herase, fun hstop => ?_, hforget, hunset, hended⟩
        have hstop' : s.stopping = false := hstop
        rw [hstop', htimer hstop'] at harmed
        exact absurd harmed (by simp)
      · split
        · rename_i hzero
          refine ⟨hnodup.erase i, hsane, herase, fun hstop => ?_, hforget, hunset, hended⟩
          exact iff_of_false (by rw [htimer hstop]; exact Bool.false_ne_true) fun hne => hne.2 hzero
        · rename_i hne
          refine ⟨hnodup.erase i, hsane, herase, fun _ => iff_of_true rfl ⟨hnil, hne⟩, hforget, ?_, hended⟩
          exact fun _ d hd => (Option.some.inj hd).ge
    · rename_i hne
      refine ⟨hnodup.erase i, hsane, herase, fun hstop => ?_, hforget, hunset, hended⟩
      exact iff_of_false (by rw [htimer hstop]; exact Bool.false_ne_true) fun hnil => hne hnil.1
  · -- only a daemon that stops has forgotten a client
    rename_i hi
    have hstop : ¬s.stopping = false := fun hstop => hi ((hclient hstop i).mpr (.inl rfl))
    exact
      { nodup := hnodup, sane := hsane, client := fun h => absurd h hstop, timer := fun h => absurd h hstop
        known := fun h => absurd h hstop, due := fun h => absurd h hstop, ended := hended }

theorem Sound.timer_none (h : s.Sound cfg) (hi : i ∈ s.clients) (hstop : s.stopping = false) : s.idleTimer = none := by
  by_contra hne
  have hnil := ((h.timer hstop).mp (Option.isSome_iff_ne_none.mpr hne)).1
  exact List.not_mem_nil (hnil ▸ hi)

theorem Sound.onData (h : s.Sound cfg) (hc : s.conns[i]? = some c) {e : Conn} (hstage : e.stage = c.stage)
    (hlive : e.live = c.live) (chunk : List UInt8) : (s.onData cfg i e chunk).Sound cfg := by
  have hsane : e.Sane := by
    unfold Conn.Sane
    rw [hstage, hlive]
    exact h.sane c (List.mem_of_getElem? hc)
  have hcounted : e.counted = c.counted := by
    rw [Conn.counted, Conn.counted, hstage]
  unfold State.onData
  split
  · exact h.deliver hc (hsane.deliver chunk) ((e.deliver_counted chunk).trans hcounted) _
  · rename_i read deadline hhello
    dsimp only
    split
    · split
      · exact h.startSession hc _ _ _
      · refine h.deliver hc (e := { e with stage := .hello (read ++ chunk) deadline }) ?_ ?_ _
        · rw [Conn.Sane, hhello] at hsane
          exact hsane
        · rw [← hcounted, Conn.counted, Conn.counted, hhello]
    · split
      · exact h.startSession hc _ _ _
      · exact h.startSession hc _ _ _

theorem Sound.onClose (h : s.Sound cfg) (hc : s.conns[i]? = some c) : (s.onClose cfg i c).Sound cfg := by
  unfold State.onClose
  split
  · exact h.startSession hc _ _ _
  · rename_i buffer handled stopped hsession
    split
    · rename_i hstopped
      refine h.deliver hc (e := { c with live := false }) ?_ rfl s.lastActivityAt
      rw [Conn.Sane]
      dsimp only
      rw [hsession]
      exact fun _ => rfl
    · rename_i hgoes
      set c' : Conn := { c with stage := .session buffer handled true, live := false }
      have hcounted : c.counted = true := by
        rw [Conn.counted, hsession]
        exact Bool.not_eq_true' _ ▸ Bool.eq_false_iff.mpr hgoes
      refine Sound.dropClient h.nodup (fun d hd => ?_) (fun hstop j => ?_) (fun hcount => ?_) (fun hstop => ?_) h.known
        h.ended
      · exact (List.mem_or_eq_of_mem_set hd).elim (h.sane d) fun heq => heq ▸ fun _ => rfl
      · rw [show j ∈ s.clients ↔ _ from h.client hstop j]
        by_cases heq : j = i
        · exact iff_of_true (heq ▸ ⟨c, hc, hcounted⟩) (.inl heq)
        · rw [show Counts (s.conns.set i c') j ↔ _ from counts_set_ne heq]
          exact (or_iff_right heq).symm
      · exact absurd ((counts_set_self hc).mp hcount) Bool.false_ne_true
      · exact h.timer_none ((h.client hstop i).mpr ⟨c, hc, hcounted⟩) hstop

@[simp] theorem dropClient_stopping (s : State) (i : ℕ) : (s.dropClient cfg i).stopping = s.stopping := by
  unfold State.dropClient armIdleTimer
  dsimp only
  split_ifs <;> rfl

@[simp] theorem reap_stopping (isAlive : ℚ → Bool) (s : State) (i : ℕ) :
    (s.reap cfg isAlive i).stopping = s.stopping := by
  unfold reap
  split
  · rfl
  · split
    · exact dropClient_stopping _ i
    · rfl

theorem sane_modify_stop {conns : List Conn} (h : ∀ c ∈ conns, c.Sane) (i : ℕ) :
    ∀ c ∈ conns.modify i Conn.stop, c.Sane := by
  intro d hd
  obtain ⟨j, hj⟩ := List.mem_iff_getElem?.mp hd
  rw [List.getElem?_modify] at hj
  obtain ⟨b, hb, rfl⟩ := Option.map_eq_some_iff.mp hj
  have hsane := h b (List.mem_of_getElem? hb)
  split
  · exact hsane.stop
  · exact hsane

theorem Sound.reap (h : s.Sound cfg) (isAlive : ℚ → Bool) (hstop : s.stopping = false) (i : ℕ) :
    (s.reap cfg isAlive i).Sound cfg := by
  unfold State.reap
  split
  · exact h
  · rename_i peers hpeers
    have hi : i ∈ s.clients := h.known hstop i (by rw [hpeers]; exact nofun)
    split
    · refine Sound.dropClient h.nodup (sane_modify_stop h.sane i) (fun _ j => ?_) (fun hcount => ?_)
        (fun _ => h.timer_none hi hstop) h.known h.ended
      · rw [counts_modify_stop]
        by_cases heq : j = i
        · exact iff_of_true (heq ▸ hi) (.inl heq)
        · rw [show j ∈ s.clients ↔ _ from h.client hstop j]
          exact ⟨fun hj => .inr ⟨heq, hj⟩, fun hj => (hj.resolve_left heq).2⟩
      · exact absurd rfl (counts_modify_stop.mp hcount).1
    · exact h

theorem Sound.reapDeadClients (h : s.Sound cfg) (isAlive : ℚ → Bool) (hstop : s.stopping = false) :
    (s.reapDeadClients cfg isAlive).Sound cfg := by
  have hfold : ∀ (is : List ℕ) (s : State), s.Sound cfg → s.stopping = false →
      (is.foldl (State.reap cfg isAlive) s).Sound cfg := by
    intro is
    induction is with
    | nil => exact fun s hs _ => hs
    | cons i is ih =>
      intro s hs hstop
      exact ih _ (hs.reap isAlive hstop i) ((reap_stopping isAlive s i).trans hstop)
  exact hfold s.clients s h hstop

theorem sane_stop (h : ∀ c ∈ s.conns, c.Sane) : ∀ c ∈ s.stop.conns, c.Sane := by
  unfold State.stop
  split
  · exact h
  · exact List.foldlRecOn (motive := fun conns => ∀ c ∈ conns, Conn.Sane c) s.clients _ h
      fun _ hconns i _ => sane_modify_stop hconns i

@[simp] theorem stop_stopping (s : State) : s.stop.stopping = true := by
  unfold State.stop
  split
  · assumption
  · rfl

theorem stop_nodup (h : s.clients.Nodup) : s.stop.clients.Nodup := by
  unfold State.stop
  split
  · exact h
  · exact List.nodup_nil

/-- Nothing is promised of a daemon that stops. -/
theorem Sound.of_stopping (hnodup : s.clients.Nodup) (hsane : ∀ c ∈ s.conns, c.Sane) (hstop : s.stopping = true) :
    s.Sound cfg := by
  have hgoes : s.stopping ≠ false := by rw [hstop]; exact nofun
  exact
    { nodup := hnodup, sane := hsane, client := fun h => absurd h hgoes, timer := fun h => absurd h hgoes
      known := fun h => absurd h hgoes, due := fun h => absurd h hgoes, ended := fun _ => hstop }

theorem Sound.stop (h : s.Sound cfg) : s.stop.Sound cfg :=
  .of_stopping (stop_nodup h.nodup) (sane_stop h.sane) (stop_stopping s)

theorem Sound.step {a : Act} {s' : State} (h : s.Sound cfg) (hstep : step cfg s a = some s') : s'.Sound cfg := by
  unfold Daemon.step at hstep
  split at hstep
  · exact absurd hstep nofun
  cases a with
  | connect =>
    dsimp only at hstep
    split at hstep
    · exact absurd hstep nofun
    obtain rfl := Option.some.inj hstep
    refine { h with sane := fun c hc => ?_, client := fun hstop j => ?_ }
    · obtain hc | hc := List.mem_append.mp hc
      · exact h.sane c hc
      · rw [List.mem_singleton.mp hc]
        exact rfl
    · exact (h.client hstop j).trans (counts_append rfl).symm
  | data i chunk =>
    obtain ⟨c, hc, rfl⟩ := Option.map_eq_some_iff.mp hstep
    exact h.onData (Option.filter_eq_some_iff.mp hc).1 (e := { c with received := c.received ++ chunk }) rfl rfl chunk
  | helloTimeout i =>
    obtain ⟨c, hc, hstep⟩ := Option.bind_eq_some_iff.mp hstep
    split at hstep
    · split at hstep
      · obtain rfl := Option.some.inj hstep
        exact h.startSession hc _ _ _
      · exact absurd hstep nofun
    · exact absurd hstep nofun
  | close i =>
    obtain ⟨c, hc, rfl⟩ := Option.map_eq_some_iff.mp hstep
    exact h.onClose (Option.filter_eq_some_iff.mp hc).1
  | tick ms =>
    obtain rfl := Option.some.inj hstep
    exact { h with due := fun hstop d hd => (h.due hstop d hd).trans (Nat.add_le_add_right (Nat.le_add_right _ ms) _) }
  | idle =>
    obtain ⟨deadline, hdeadline, hstep⟩ := Option.bind_eq_some_iff.mp hstep
    split at hstep
    · obtain rfl := Option.some.inj hstep
      have hset : s.idleTimer.isSome = true := by rw [hdeadline]; rfl
      split
      · -- the timer runs, and there is a client: the daemon has stopped
        rename_i hclients
        have hstop : s.stopping = true :=
          Bool.not_eq_false _ ▸ fun hstop => hclients ((h.timer hstop).mp hset).1
        unfold armIdleTimer
        rw [if_pos (.inr hstop)]
        exact .of_stopping h.nodup h.sane hstop
      · exact .of_stopping (stop_nodup (s := { s with idleTimer := none }) h.nodup)
          (sane_stop (s := { s with idleTimer := none }) h.sane) (stop_stopping _)
    · exact absurd hstep nofun
  | backstop =>
    dsimp only at hstep
    split at hstep
    · exact absurd hstep nofun
    split at hstep
    · exact Option.some.inj hstep ▸ h
    split at hstep
    · exact Option.some.inj hstep ▸ h.stop
    · exact Option.some.inj hstep ▸ h
  | sweep isAlive =>
    dsimp only at hstep
    split at hstep
    · exact absurd hstep nofun
    · rename_i hstop
      exact Option.some.inj hstep ▸ h.reapDeadClients isAlive (Bool.eq_false_iff.mpr hstop)
  | stop => exact Option.some.inj hstep ▸ h.stop
  | exit =>
    dsimp only at hstep
    split at hstep
    · rename_i hclosed
      obtain rfl := Option.some.inj hstep
      exact { h with ended := fun _ => hclosed.1 }
    · exact absurd hstep nofun

end State

/-! ### What a step does to a socket -/

/-- What was read settles what the first line is, and `back` is put back. -/
def Settles (all back : List UInt8) : Prop :=
  (all.idxOf? newline = none ∧ maxHelloLineBytes < all.length ∧ back = all) ∨
    ∃ nl, all.idxOf? newline = some nl ∧
      back = if (parseClientHelloLine cfg (all.take nl)).isSome then all.drop (nl + 1) else all

/-- The socket `i` before and after a step. -/
inductive Conn.Next (a : Act) (i : ℕ) (c : Conn) : Conn → Prop
  | same : c.Next a i c
  | stop : c.Next a i c.stop
  | deliver (chunk : List UInt8) {buffer handled stopped} (hstage : c.stage = .session buffer handled stopped) :
    c.Next a i (({ c with received := c.received ++ chunk } : Conn).deliver chunk)
  | wait (chunk : List UInt8) {read deadline} (hstage : c.stage = .hello read deadline)
    (hidx : (read ++ chunk).idxOf? newline = none) (hlen : (read ++ chunk).length ≤ maxHelloLineBytes) :
    c.Next a i { c with received := c.received ++ chunk, stage := .hello (read ++ chunk) deadline }
  | settle (chunk back : List UInt8) {read deadline} (hstage : c.stage = .hello read deadline)
    (hback : Settles cfg (read ++ chunk) back) :
    c.Next a i (({ c with received := c.received ++ chunk, read := read ++ chunk, byRead := true } : Conn).begin
      (if cfg.keepsPutBack then back else []))
  | timeout {read deadline} (hstage : c.stage = .hello read deadline) :
    c.Next a i (({ c with read := read } : Conn).begin [])
  | early {read deadline} (ha : a = .close i) (hstage : c.stage = .hello read deadline) :
    c.Next a i (({ c with live := false, read := read } : Conn).begin [])
  | late {buffer handled} (hstage : c.stage = .session buffer handled false) :
    c.Next a i { c with stage := .session buffer handled true, live := false }
  | gone {buffer handled} (hstage : c.stage = .session buffer handled true) : c.Next a i { c with live := false }

section Next

variable {cfg} {s s' : State} {a : Act} {i j : ℕ} {c c' : Conn}

@[simp] theorem State.dropClient_conns (s : State) (i : ℕ) : (s.dropClient cfg i).conns = s.conns := by
  unfold dropClient armIdleTimer
  dsimp only
  split_ifs <;> rfl

theorem Conn.stop_stop (c : Conn) : c.stop.stop = c.stop := by
  unfold stop
  cases hstage : c.stage with
  | hello read deadline => simp only [hstage]
  | session buffer handled stopped => cases stopped <;> simp [hstage]

/-- Among the sockets only the one at `j` is another. -/
theorem of_getElem?_set {conns : List Conn} {d : Conn} (h : (conns.set j d)[i]? = some c') :
    (i = j ∧ c' = d) ∨ conns[i]? = some c' := by
  rw [List.getElem?_set] at h
  split at h
  · rename_i heq
    split at h
    · exact .inl ⟨heq.symm, (Option.some.inj h).symm⟩
    · exact absurd h nofun
  · exact .inr h

theorem of_getElem?_modify {conns : List Conn} (h : (conns.modify j Conn.stop)[i]? = some c') :
    ∃ c, conns[i]? = some c ∧ (c' = c ∨ c' = c.stop) := by
  rw [List.getElem?_modify] at h
  obtain ⟨b, hb, rfl⟩ := Option.map_eq_some_iff.mp h
  refine ⟨b, hb, ?_⟩
  split
  · exact .inr rfl
  · exact .inl rfl

/-- Sockets that are stopped one after the other. -/
theorem of_stops {β : Type} (conns : β → List Conn) {f : β → ℕ → β}
    (hf : ∀ b j c', (conns (f b j))[i]? = some c' → ∃ c, (conns b)[i]? = some c ∧ (c' = c ∨ c' = c.stop))
    (js : List ℕ) (b : β) (h : (conns (js.foldl f b))[i]? = some c') :
    ∃ c, (conns b)[i]? = some c ∧ (c' = c ∨ c' = c.stop) := by
  induction js generalizing b with
  | nil => exact ⟨c', h, .inl rfl⟩
  | cons j js ih =>
    obtain ⟨d, hd, hdc⟩ := ih (f b j) h
    obtain ⟨c, hc, hcd⟩ := hf b j d hd
    refine ⟨c, hc, ?_⟩
    obtain rfl | rfl := hcd
    · exact hdc
    · exact .inr (hdc.elim id fun heq => heq.trans c.stop_stop)

theorem next_of_stop (h : ∃ c, s.conns[i]? = some c ∧ (c' = c ∨ c' = c.stop)) :
    ∃ c, s.conns[i]? = some c ∧ c.Next cfg a i c' := by
  obtain ⟨c, hc, rfl | rfl⟩ := h
  · exact ⟨c', hc, .same⟩
  · exact ⟨c, hc, .stop⟩

theorem State.stop_conns (h : s.stop.conns[i]? = some c') :
    ∃ c, s.conns[i]? = some c ∧ (c' = c ∨ c' = c.stop) := by
  unfold stop at h
  split at h
  · exact ⟨c', h, .inl rfl⟩
  · exact of_stops id (fun _ _ _ => of_getElem?_modify) s.clients s.conns h

theorem State.reap_conns {isAlive : ℚ → Bool} (s : State) (j : ℕ) (c' : Conn)
    (h : (s.reap cfg isAlive j).conns[i]? = some c') : ∃ c, s.conns[i]? = some c ∧ (c' = c ∨ c' = c.stop) := by
  unfold reap at h
  split at h
  · exact ⟨c', h, .inl rfl⟩
  · split at h
    · rw [dropClient_conns] at h
      exact of_getElem?_modify h
    · exact ⟨c', h, .inl rfl⟩

/-- The first piece of a socket, or another one. -/
theorem next_of_set {d : Conn} (hc : s.conns[j]? = some c) (h : (s.conns.set j d)[i]? = some c')
    (hnext : i = j → c.Next cfg a i d) : ∃ c, s.conns[i]? = some c ∧ c.Next cfg a i c' := by
  obtain ⟨heq, rfl⟩ | h := of_getElem?_set h
  · exact ⟨c, heq ▸ hc, hnext heq⟩
  · exact ⟨c', h, .same⟩

theorem State.onData_next {chunk : List UInt8} (hc : s.conns[j]? = some c)
    (h : (s.onData cfg j { c with received := c.received ++ chunk } chunk).conns[i]? = some c') :
    ∃ c, s.conns[i]? = some c ∧ c.Next cfg a i c' := by
  unfold onData at h
  split at h
  · rename_i hstage
    exact next_of_set hc h fun _ => .deliver chunk hstage
  · rename_i read deadline hstage
    dsimp only at h
    split at h
    · rename_i hidx
      split at h
      · rename_i hlong
        exact next_of_set hc h fun _ => .settle chunk _ hstage (.inl ⟨hidx, hlong, rfl⟩)
      · rename_i hshort
        exact next_of_set hc h fun _ => .wait chunk hstage hidx (not_lt.mp hshort)
    · rename_i nl hidx
      split at h
      · rename_i peers hpeers
        refine next_of_set hc h fun _ => .settle chunk _ hstage (.inr ⟨nl, hidx, ?_⟩)
        rw [hpeers]
        rfl
      · rename_i hpeers
        refine next_of_set hc h fun _ => .settle chunk _ hstage (.inr ⟨nl, hidx, ?_⟩)
        rw [hpeers]
        rfl

/-- **What a step does to a socket.** -/
theorem step_next (h : step cfg s a = some s') (hc' : s'.conns[i]? = some c') :
    (∃ c, s.conns[i]? = some c ∧ c.Next cfg a i c') ∨
      a = .connect ∧ c' = { stage := .hello [] (s.now + clientHelloTimeoutMs) } := by
  unfold step at h
  split at h
  · exact absurd h nofun
  cases a with
  | connect =>
    dsimp only at h
    split at h
    · exact absurd h nofun
    obtain rfl := Option.some.inj h
    by_cases hlt : i < s.conns.length
    · exact .inl ⟨c', (List.getElem?_append_left hlt).symm.trans hc', .same⟩
    · rw [List.getElem?_append_right (not_lt.mp hlt)] at hc'
      exact .inr ⟨rfl, List.mem_singleton.mp (List.mem_of_getElem? hc')⟩
  | data j chunk =>
    obtain ⟨c, hc, rfl⟩ := Option.map_eq_some_iff.mp h
    exact .inl (State.onData_next (Option.filter_eq_some_iff.mp hc).1 hc')
  | helloTimeout j =>
    obtain ⟨c, hc, h⟩ := Option.bind_eq_some_iff.mp h
    split at h
    · rename_i hstage
      split at h
      · obtain rfl := Option.some.inj h
        refine .inl (next_of_set hc hc' fun _ => ?_)
        rw [ite_self]
        exact .timeout hstage
      · exact absurd h nofun
    · exact absurd h nofun
  | close j =>
    obtain ⟨c, hc, rfl⟩ := Option.map_eq_some_iff.mp h
    replace hc := Option.filter_eq_some_iff.mp hc
    unfold State.onClose at hc'
    split at hc'
    · rename_i hstage
      refine .inl (next_of_set hc.1 hc' fun heq => ?_)
      rw [ite_self]
      exact .early (by rw [heq]) hstage
    · rename_i stopped hstage
      split at hc'
      · rename_i hstopped
        exact .inl (next_of_set hc.1 hc' fun _ => .gone (hstopped ▸ hstage))
      · rename_i hgoes
        rw [State.dropClient_conns] at hc'
        refine .inl (next_of_set hc.1 hc' fun _ => .late ?_)
        rw [hstage, Bool.eq_false_iff.mpr hgoes]
  | tick ms =>
    obtain rfl := Option.some.inj h
    exact .inl ⟨c', hc', .same⟩
  | idle =>
    obtain ⟨deadline, -, h⟩ := Option.bind_eq_some_iff.mp h
    split at h
    · obtain rfl := Option.some.inj h
      split at hc'
      · unfold State.armIdleTimer at hc'
        split at hc'
        · exact .inl ⟨c', hc', .same⟩
        · split at hc' <;> exact .inl ⟨c', hc', .same⟩
      · exact .inl (next_of_stop (State.stop_conns (s := { s with idleTimer := none }) hc'))
    · exact absurd h nofun
  | backstop =>
    dsimp only at h
    split at h
    · exact absurd h nofun
    split at h
    · exact .inl ⟨c', Option.some.inj h ▸ hc', .same⟩
    split at h
    · exact .inl (next_of_stop (State.stop_conns (Option.some.inj h ▸ hc')))
    · exact .inl ⟨c', Option.some.inj h ▸ hc', .same⟩
  | sweep isAlive =>
    dsimp only at h
    split at h
    · exact absurd h nofun
    · obtain rfl := Option.some.inj h
      exact .inl (next_of_stop (of_stops State.conns State.reap_conns s.clients s hc'))
  | stop => exact .inl (next_of_stop (State.stop_conns (Option.some.inj h ▸ hc')))
  | exit =>
    dsimp only at h
    split at h
    · obtain rfl := Option.some.inj h
      exact .inl ⟨c', hc', .same⟩
    · exact absurd h nofun

end Next

/-! ### Runs in which no socket closes before it has its session -/

/-- It has a session, or had one. -/
def Conn.begun (c : Conn) : Bool :=
  match c.stage with
  | .session .. => true
  | .hello .. => false

/-- A socket that closes has its session. -/
def Waits (s : State) (a : Act) : Prop := ∀ i c, a = .close i → s.conns[i]? = some c → c.begun = true

variable {cfg} {s s' t : State} {now i : ℕ} {as bs : List Act}

theorem start_sound (now : ℕ) : (start cfg now).Sound cfg := by
  have hnone : ∀ j, ¬Counts [] j := fun j ⟨_, hc, _⟩ => absurd hc nofun
  have hclient : ∀ j, j ∈ ([] : List ℕ) ↔ Counts [] j := fun j => iff_of_false List.not_mem_nil (hnone j)
  unfold start State.armIdleTimer
  dsimp only
  rw [if_neg (by simp)]
  split
  · rename_i hzero
    exact
      { nodup := List.nodup_nil, sane := nofun, client := fun _ => hclient
        timer := fun _ => iff_of_false Bool.false_ne_true fun h => h.2 hzero
        known := fun _ _ h => absurd rfl h, due := fun _ _ => nofun, ended := nofun }
  · rename_i hne
    exact
      { nodup := List.nodup_nil, sane := nofun, client := fun _ => hclient
        timer := fun _ => iff_of_true rfl ⟨rfl, hne⟩, known := fun _ _ h => absurd rfl h
        due := fun _ d hd => (Option.some.inj hd).ge, ended := nofun }

theorem along_true (s : State) (as : List Act) : (machine cfg).Along (fun _ _ => True) s as :=
  .of_forall_mem (fun _ _ _ => trivial) s

theorem sound_exec (h : s.Sound cfg) (hexec : (machine cfg).exec s as = some t) : t.Sound cfg :=
  Machine.invariant (fun _ _ _ hs _ hstep => hs.step hstep) h (along_true s as) hexec

@[simp] theorem Conn.begin_live (c : Conn) (putBack : List UInt8) : (c.begin putBack).live = c.live := by
  unfold begin
  split
  · rfl
  · exact deliver_live _ putBack

theorem Conn.Sane.live {c : Conn} (h : c.Sane) {read : List UInt8} {deadline : ℕ}
    (hstage : c.stage = .hello read deadline) : c.live = true := by
  rw [Sane, hstage] at h
  exact h

/-- A socket whose session goes on is open, if it was and did not close too early. -/
theorem Conn.Next.counted_live {a : Act} {c c' : Conn} (h : c.Next cfg a i c') (hsane : c.Sane)
    (hwaits : a = .close i → c.begun = true) (hc : c.counted = true → c.live = true) (hc' : c'.counted = true) :
    c'.live = true := by
  cases h with
  | same => exact hc hc'
  | stop => exact absurd (c.stop_counted.symm.trans hc') Bool.false_ne_true
  | deliver chunk hstage =>
    rw [deliver_counted] at hc'
    rw [deliver_live]
    exact hc hc'
  | wait chunk hstage => exact hsane.live hstage
  | settle chunk back hstage => exact (begin_live _ _).trans (hsane.live hstage)
  | timeout hstage => exact (begin_live _ _).trans (hsane.live hstage)
  | early ha hstage =>
    have hbegun := hwaits ha
    rw [begun, hstage] at hbegun
    exact absurd hbegun Bool.false_ne_true
  | late => exact absurd hc' Bool.false_ne_true
  | gone hstage =>
    rw [counted, hstage] at hc'
    exact absurd hc' Bool.false_ne_true

theorem counted_live (hs : (machine cfg).exec (start cfg now) as = some s)
    (hwaits : (machine cfg).Along Waits (start cfg now) as) : ∀ c ∈ s.conns, c.counted = true → c.live = true := by
  have hinv : s.Sound cfg ∧ ∀ c ∈ s.conns, c.counted = true → c.live = true := by
    refine Machine.invariant (I := fun s => s.Sound cfg ∧ ∀ c ∈ s.conns, c.counted = true → c.live = true)
      (fun s a s' h hok hstep => ⟨h.1.step hstep, fun c' hc' hcounted => ?_⟩)
      ⟨start_sound now, fun c hc => ?_⟩ hwaits hs
    · obtain ⟨i, hi⟩ := List.mem_iff_getElem?.mp hc'
      obtain ⟨c, hc, hnext⟩ | ⟨-, rfl⟩ := step_next hstep hi
      · have hmem := List.mem_of_getElem? hc
        exact hnext.counted_live (h.1.sane c hmem) (fun ha => hok i c ha hc) (h.2 c hmem) hcounted
      · rfl
    · unfold start State.armIdleTimer at hc
      split_ifs at hc <;> exact absurd hc List.not_mem_nil
  exact hinv.2

/-- An open socket with a session is one that counts, when each one that counts is open. -/
theorem counts_iff_open (h : s.Sound cfg) (hlive : ∀ c ∈ s.conns, c.counted = true → c.live = true) :
    Counts s.conns i ↔ ∃ c, s.conns[i]? = some c ∧ c.live = true ∧ c.begun = true := by
  refine exists_congr fun c => and_congr_right fun hc => ?_
  have hmem := List.mem_of_getElem? hc
  have hsane := h.sane c hmem
  refine ⟨fun hcounted => ⟨hlive c hmem hcounted, ?_⟩, fun hopen => ?_⟩
  · unfold Conn.counted at hcounted
    unfold Conn.begun
    split at hcounted
    · rfl
    · exact absurd hcounted Bool.false_ne_true
  · obtain ⟨hopen, hbegun⟩ := hopen
    unfold Conn.begun at hbegun
    unfold Conn.Sane at hsane
    unfold Conn.counted
    split at hbegun
    · rename_i stopped hstage
      rw [hstage] at hsane
      cases stopped with
      | false => rfl
      | true => exact absurd ((hsane rfl).symm.trans hopen) Bool.false_ne_true
    · exact absurd hbegun Bool.false_ne_true

/-- **The clients of a daemon are the open sockets with a session**, where no socket closes before it has one. The idle
timer runs exactly when there is no such socket, and ends in time. -/
theorem clients_open (hs : (machine cfg).exec (start cfg now) as = some s)
    (hwaits : (machine cfg).Along Waits (start cfg now) as) (hstop : s.stopping = false) :
    (∀ i, i ∈ s.clients ↔ ∃ c, s.conns[i]? = some c ∧ c.live = true ∧ c.begun = true) ∧
      (s.idleTimer.isSome = true ↔ cfg.idleTimeoutMs ≠ 0 ∧ ∀ c ∈ s.conns, ¬(c.live = true ∧ c.begun = true)) ∧
      (cfg.idleTimeoutMs ≠ 0 → (∀ c ∈ s.conns, ¬(c.live = true ∧ c.begun = true)) →
        ∃ t, (machine cfg).exec s [.tick cfg.idleTimeoutMs, .idle] = some t ∧ t.stopping = true) := by
  have hsound := sound_exec (start_sound now) hs
  have hclients : ∀ i, i ∈ s.clients ↔ ∃ c, s.conns[i]? = some c ∧ c.live = true ∧ c.begun = true :=
    fun i => (hsound.client hstop i).trans (counts_iff_open hsound (counted_live hs hwaits))
  have hnil : s.clients = [] ↔ ∀ c ∈ s.conns, ¬(c.live = true ∧ c.begun = true) := by
    rw [List.eq_nil_iff_forall_not_mem]
    refine ⟨fun h c hc hopen => ?_, fun h i hi => ?_⟩
    · obtain ⟨i, hi⟩ := List.mem_iff_getElem?.mp hc
      exact h i ((hclients i).mpr ⟨c, hi, hopen⟩)
    · obtain ⟨c, hc, hopen⟩ := (hclients i).mp hi
      exact h c (List.mem_of_getElem? hc) hopen
  refine ⟨hclients, ?_, fun hne hnone => ?_⟩
  · rw [hsound.timer hstop, hnil, and_comm]
  · obtain ⟨d, hd⟩ := Option.isSome_iff_exists.mp ((hsound.timer hstop).mpr ⟨hnil.mpr hnone, hne⟩)
    have hrun : s.exited = false := Bool.eq_false_iff.mpr fun he => absurd ((hsound.ended he).symm.trans hstop) nofun
    set s₁ : State := { s with now := s.now + cfg.idleTimeoutMs }
    have htick : step cfg s (.tick cfg.idleTimeoutMs) = some s₁ := by simp [step, hrun, s₁]
    have hidle : step cfg s₁ .idle = some { s₁ with idleTimer := none }.stop := by
      have hdue : d ≤ s₁.now := hsound.due hstop d hd
      have hnoclient : s₁.clients = [] := hnil.mpr hnone
      have hset : s₁.idleTimer = some d := hd
      have hrun₁ : s₁.exited = false := hrun
      simp [step, hrun₁, hset, hdue, hnoclient]
    refine ⟨_, ?_, State.stop_stopping { s₁ with idleTimer := none }⟩
    exact Machine.exec_cons_eq_some.mpr ⟨s₁, htick, Machine.exec_cons_eq_some.mpr ⟨_, hidle, rfl⟩⟩

/-- The line of a client with the pid 7. -/
def helloLine : List UInt8 := "\x7b\"codegraph_client\":1,\"pid\":7\x7d".toList.map fun c => UInt8.ofNat c.toNat

/-- Five minutes and thirty, and a reader that knows one line. -/
def usual (keepsPutBack : Bool) : Config where
  idleTimeoutMs := 300000
  maxIdleMs := 1800000
  parse line :=
    if line = helloLine then
      some fun name =>
        if name = "codegraph_client" then some (.number 1) else if name = "pid" then some (.number 7) else none
    else none
  keepsPutBack := keepsPutBack

theorem clients_open_one :
    ∃ s, (machine (usual true)).exec (start (usual true) 0) [.connect, .data 0 (helloLine ++ [newline])] = some s ∧
      ∃ c, s.conns[0]? = some c ∧ c.live = true ∧ c.begun = true := by
  have hexec : ((machine (usual true)).exec (start (usual true) 0)
      [.connect, .data 0 (helloLine ++ [newline])]).map (fun s => (s.stopping, s.clients)) = some (false, [0]) := by
    decide +kernel
  obtain ⟨s, hs, heq⟩ := Option.map_eq_some_iff.mp hexec
  have hwaits : (machine (usual true)).Along Waits (start (usual true) 0)
      [.connect, .data 0 (helloLine ++ [newline])] := by
    refine .of_forall_mem (fun a ha s i c hclose => ?_) _
    rw [hclose] at ha
    exact absurd ha (by simp)
  have hclients : s.clients = [0] := congrArg Prod.snd heq
  have hmem : 0 ∈ s.clients := hclients ▸ List.mem_singleton_self 0
  exact ⟨s, hs, ((clients_open hs hwaits (congrArg Prod.fst heq)).1 0).mp hmem⟩

/-! ### A socket that closes too early -/

/-- The socket `i` is gone, and the daemon counts it. -/
structure State.Pinned (i : ℕ) (s : State) : Prop where
  client : i ∈ s.clients
  peers : s.clientPeers i = some noPeers
  gone : ∃ c, s.conns[i]? = some c ∧ c.live = false ∧ c.counted = true

namespace State.Pinned

variable {j : ℕ} {c : Conn}

theorem ne_of_live (h : s.Pinned i) (hc : s.conns[j]? = some c) (hlive : c.live = true) : i ≠ j := by
  rintro rfl
  obtain ⟨d, hd, hgone, -⟩ := h.gone
  rw [Option.some.inj (hd.symm.trans hc), hlive] at hgone
  exact absurd hgone nofun

theorem startSession (h : s.Pinned i) (hne : i ≠ j) (c : Conn) (peers : Peers) (back : List UInt8) :
    (s.startSession cfg j c peers back).Pinned i where
  client := by
    unfold State.startSession
    dsimp only
    split
    · exact h.client
    · exact List.mem_append_left _ h.client
  peers := (Function.update_of_ne hne _ _).trans h.peers
  gone := by
    obtain ⟨d, hd, hgone⟩ := h.gone
    exact ⟨d, (List.getElem?_set_ne hne.symm).trans hd, hgone⟩

theorem set (h : s.Pinned i) (hne : i ≠ j) (c : Conn) (now : ℕ) :
    ({ s with conns := s.conns.set j c, lastActivityAt := now } : State).Pinned i where
  client := h.client
  peers := h.peers
  gone := by
    obtain ⟨d, hd, hgone⟩ := h.gone
    exact ⟨d, (List.getElem?_set_ne hne.symm).trans hd, hgone⟩

theorem dropClient (h : s.Pinned i) (hne : i ≠ j) : (s.dropClient cfg j).Pinned i := by
  have hdropped : ({ s with
      clients := s.clients.erase j, clientPeers := Function.update s.clientPeers j none } : State).Pinned i :=
    { client := (List.mem_erase_of_ne hne).mpr h.client
      peers := (Function.update_of_ne hne _ _).trans h.peers
      gone := h.gone }
  unfold State.dropClient
  split
  · dsimp only
    split
    · unfold armIdleTimer
      split
      · exact hdropped
      · split
        · exact hdropped
        · exact { hdropped with }
    · exact hdropped
  · exact h

theorem reap (h : s.Pinned i) (isAlive : ℚ → Bool) (j : ℕ) : (s.reap cfg isAlive j).Pinned i := by
  unfold State.reap
  split
  · exact h
  · rename_i peers hpeers
    split
    · -- nobody knows who is behind the socket `i`
      rename_i hdead
      have hne : i ≠ j := by
        rintro rfl
        rw [h.peers] at hpeers
        rw [← Option.some.inj hpeers] at hdead
        exact absurd hdead nofun
      refine dropClient (s := { s with conns := s.conns.modify j Conn.stop }) ⟨h.client, h.peers, ?_⟩ hne
      obtain ⟨d, hd, hgone⟩ := h.gone
      exact ⟨d, (List.getElem?_modify_ne Conn.stop s.conns hne.symm).trans hd, hgone⟩
    · exact h

end State.Pinned

theorem State.onData_stopping (s : State) (i : ℕ) (c : Conn) (chunk : List UInt8) :
    (s.onData cfg i c chunk).stopping = s.stopping := by
  unfold onData
  split
  · rfl
  · dsimp only
    split
    · split <;> rfl
    · split <;> rfl

theorem State.onClose_stopping (s : State) (i : ℕ) (c : Conn) : (s.onClose cfg i c).stopping = s.stopping := by
  unfold onClose
  split
  · rfl
  · split
    · rfl
    · exact dropClient_stopping _ i

theorem State.reapDeadClients_stopping (s : State) (isAlive : ℚ → Bool) :
    (s.reapDeadClients cfg isAlive).stopping = s.stopping :=
  List.foldlRecOn (motive := fun t : State => t.stopping = s.stopping) s.clients _ rfl
    fun t ht j _ => (reap_stopping isAlive t j).trans ht

/-- What stops a daemon. -/
theorem step_stops {a : Act} (h : step cfg s a = some s') :
    s'.stopping = s.stopping ∨ s'.stopping = true ∧
      (a = .stop ∨ a = .idle ∧ s.idleTimer.isSome = true ∨
        a = .backstop ∧ cfg.maxIdleMs ≠ 0 ∧ s.lastActivityAt + cfg.maxIdleMs ≤ s.now) := by
  unfold step at h
  split at h
  · exact absurd h nofun
  cases a with
  | connect =>
    dsimp only at h
    split at h
    · exact absurd h nofun
    · exact .inl (Option.some.inj h ▸ rfl)
  | data i chunk =>
    obtain ⟨c, -, rfl⟩ := Option.map_eq_some_iff.mp h
    exact .inl (State.onData_stopping ..)
  | helloTimeout i =>
    obtain ⟨c, -, h⟩ := Option.bind_eq_some_iff.mp h
    split at h
    · split at h
      · exact .inl (Option.some.inj h ▸ rfl)
      · exact absurd h nofun
    · exact absurd h nofun
  | close i =>
    obtain ⟨c, -, rfl⟩ := Option.map_eq_some_iff.mp h
    exact .inl (State.onClose_stopping ..)
  | tick ms => exact .inl (Option.some.inj h ▸ rfl)
  | idle =>
    obtain ⟨deadline, hset, h⟩ := Option.bind_eq_some_iff.mp h
    split at h
    · obtain rfl := Option.some.inj h
      split
      · unfold State.armIdleTimer
        split_ifs <;> exact .inl rfl
      · exact .inr ⟨State.stop_stopping _, .inr (.inl ⟨rfl, by rw [hset]; rfl⟩)⟩
    · exact absurd h nofun
  | backstop =>
    dsimp only at h
    split at h
    · exact absurd h nofun
    rename_i hon
    split at h
    · exact .inl (Option.some.inj h ▸ rfl)
    split at h
    · rename_i hlate
      exact .inr ⟨Option.some.inj h ▸ State.stop_stopping s, .inr (.inr ⟨rfl, fun hzero => hon (.inl hzero), hlate⟩)⟩
    · exact .inl (Option.some.inj h ▸ rfl)
  | sweep isAlive =>
    dsimp only at h
    split at h
    · exact absurd h nofun
    · exact .inl (Option.some.inj h ▸ State.reapDeadClients_stopping s isAlive)
  | stop => exact .inr ⟨Option.some.inj h ▸ State.stop_stopping s, .inl rfl⟩
  | exit =>
    dsimp only at h
    split at h
    · exact .inl (Option.some.inj h ▸ rfl)
    · exact absurd h nofun

theorem State.Pinned.step {a : Act} (h : s.Pinned i) (hsound : s.Sound cfg) (hstep : step cfg s a = some s')
    (hstop : s'.stopping = false) : s'.Pinned i := by
  have hgoes : s.stopping = false := by
    obtain heq | ⟨heq, -⟩ := step_stops hstep
    · exact heq ▸ hstop
    · exact absurd (heq.symm.trans hstop) nofun
  unfold Daemon.step at hstep
  split at hstep
  · exact absurd hstep nofun
  cases a with
  | connect =>
    dsimp only at hstep
    split at hstep
    · exact absurd hstep nofun
    obtain rfl := Option.some.inj hstep
    obtain ⟨d, hd, hgone⟩ := h.gone
    exact ⟨h.client, h.peers, d, (List.getElem?_append_left (List.getElem?_eq_some_iff.mp hd).1).trans hd, hgone⟩
  | data j chunk =>
    obtain ⟨c, hc, rfl⟩ := Option.map_eq_some_iff.mp hstep
    obtain ⟨hc, hlive⟩ := Option.filter_eq_some_iff.mp hc
    have hne := h.ne_of_live hc hlive
    unfold State.onData
    split
    · exact h.set hne _ _
    · dsimp only
      split
      · split
        · exact h.startSession hne _ _ _
        · exact h.set hne _ s.lastActivityAt
      · split <;> exact h.startSession hne _ _ _
  | helloTimeout j =>
    obtain ⟨c, hc, hstep⟩ := Option.bind_eq_some_iff.mp hstep
    split at hstep
    · rename_i hstage
      split at hstep
      · obtain rfl := Option.some.inj hstep
        have hlive := (hsound.sane c (List.mem_of_getElem? hc)).live hstage
        exact h.startSession (h.ne_of_live hc hlive) _ _ _
      · exact absurd hstep nofun
    · exact absurd hstep nofun
  | close j =>
    obtain ⟨c, hc, rfl⟩ := Option.map_eq_some_iff.mp hstep
    obtain ⟨hc, hlive⟩ := Option.filter_eq_some_iff.mp hc
    have hne := h.ne_of_live hc hlive
    unfold State.onClose
    split
    · exact h.startSession hne _ _ _
    · split
      · exact h.set hne _ s.lastActivityAt
      · exact (h.set hne _ s.lastActivityAt).dropClient hne
  | tick ms =>
    obtain rfl := Option.some.inj hstep
    exact { h with }
  | idle =>
    rw [hsound.timer_none h.client hgoes] at hstep
    exact absurd hstep nofun
  | backstop =>
    dsimp only at hstep
    split at hstep
    · exact absurd hstep nofun
    split at hstep
    · exact Option.some.inj hstep ▸ h
    split at hstep
    · rw [← Option.some.inj hstep, State.stop_stopping] at hstop
      exact absurd hstop nofun
    · exact Option.some.inj hstep ▸ h
  | sweep isAlive =>
    dsimp only at hstep
    split at hstep
    · exact absurd hstep nofun
    · obtain rfl := Option.some.inj hstep
      exact List.foldlRecOn (motive := State.Pinned i) s.clients _ h fun _ ht j _ => ht.reap isAlive j
  | stop =>
    rw [← Option.some.inj hstep, State.stop_stopping] at hstop
    exact absurd hstop nofun
  | exit =>
    dsimp only at hstep
    split at hstep
    · rename_i hclosed
      exact absurd (hclosed.1.symm.trans hgoes) nofun
    · exact absurd hstep nofun

/-- **A socket that closes before its first line was read is never dropped.** As long as the daemon goes on it counts
the socket, the idle timer stands, and nothing but a signal or thirty silent minutes stops it. -/
theorem early_close_pins {c : Conn} {read : List UInt8} {deadline : ℕ}
    (hs : (machine cfg).exec (start cfg now) as = some s) (hc : s.conns[i]? = some c)
    (hstage : c.stage = .hello read deadline) (ht : (machine cfg).exec s (.close i :: bs) = some t)
    (hstop : t.stopping = false) :
    i ∈ t.clients ∧ t.idleTimer = none ∧
      ∀ a u, step cfg t a = some u → u.stopping = true →
        a = .stop ∨ a = .backstop ∧ cfg.maxIdleMs ≠ 0 ∧ t.lastActivityAt + cfg.maxIdleMs ≤ t.now := by
  obtain ⟨s₁, hclose, ht⟩ := Machine.exec_cons_eq_some.mp ht
  replace hclose : step cfg s (.close i) = some s₁ := hclose
  have hsound := sound_exec (start_sound now) hs
  have hsound₁ : s₁.Sound cfg := hsound.step hclose
  have hpinned₁ : s₁.Pinned i := by
    unfold step at hclose
    split at hclose
    · exact absurd hclose nofun
    have hlive := (hsound.sane c (List.mem_of_getElem? hc)).live hstage
    obtain ⟨d, hd, rfl⟩ := Option.map_eq_some_iff.mp hclose
    obtain rfl := Option.some.inj (hc.symm.trans (Option.filter_eq_some_iff.mp hd).1)
    unfold State.onClose
    rw [hstage]
    have hlt : i < s.conns.length := (List.getElem?_eq_some_iff.mp hc).1
    exact ⟨State.mem_startSession .., Function.update_self i _ _, _, List.getElem?_set_self hlt,
      Conn.begin_live _ _, Conn.begin_counted _ _⟩
  have hinv : t.Sound cfg ∧ (t.stopping = true ∨ t.Pinned i) := by
    refine Machine.invariant (I := fun t => t.Sound cfg ∧ (t.stopping = true ∨ t.Pinned i))
      (fun u a u' h _ hstep => ⟨h.1.step hstep, ?_⟩) ⟨hsound₁, .inr hpinned₁⟩ (along_true s₁ bs) ht
    cases hu' : u'.stopping with
    | true => exact .inl rfl
    | false =>
      obtain hu | hu := h.2
      · obtain heq | ⟨heq, -⟩ := step_stops hstep
        · exact absurd (hu.symm.trans (heq.symm.trans hu')) nofun
        · exact absurd (heq.symm.trans hu') nofun
      · exact .inr (hu.step h.1 hstep hu')
  have hpinned : t.Pinned i := hinv.2.resolve_left fun h => absurd (h.symm.trans hstop) nofun
  have htimer := hinv.1.timer_none hpinned.client hstop
  refine ⟨hpinned.client, htimer, fun a u hstep hu => ?_⟩
  obtain heq | ⟨-, ha | ⟨-, hset⟩ | ha⟩ := step_stops hstep
  · exact absurd (heq.symm.trans hu |>.symm.trans hstop) nofun
  · exact .inl ha
  · exact absurd (htimer ▸ hset) nofun
  · exact .inr ha

/-- A client that looks at the hello of the daemon and leaves. -/
theorem early_close_pins_one :
    ∃ t, (machine (usual true)).exec (start (usual true) 0) [.connect, .close 0, .tick 600000] = some t ∧
      t.clients = [0] ∧ t.idleTimer = none := by
  have hconnect : ((machine (usual true)).exec (start (usual true) 0) [.connect]).map (fun s => s.conns[0]?) =
      some (some ⟨.hello [] 3000, true, [], [], false⟩) := by decide +kernel
  obtain ⟨s, hs, hc⟩ := Option.map_eq_some_iff.mp hconnect
  have hexec : ((machine (usual true)).exec (start (usual true) 0) [.connect, .close 0, .tick 600000]).map
      (fun t => (t.stopping, t.clients)) = some (false, [0]) := by decide +kernel
  obtain ⟨t, ht, heq⟩ := Option.map_eq_some_iff.mp hexec
  have hrest : (machine (usual true)).exec s [.close 0, .tick 600000] = some t := by
    obtain ⟨s', hconnect', hrest⟩ := Machine.exec_cons_eq_some.mp ht
    have hs' : (machine (usual true)).exec (start (usual true) 0) [.connect] = some s' :=
      Machine.exec_cons_eq_some.mpr ⟨s', hconnect', rfl⟩
    exact Option.some.inj (hs'.symm.trans hs) ▸ hrest
  obtain ⟨-, htimer, -⟩ := early_close_pins hs hc rfl hrest (congrArg Prod.fst heq)
  exact ⟨t, ht, congrArg Prod.snd heq, htimer⟩

/-! ### What a session gets -/

section Framed

variable (cfg)

/-- A stream without its first line, if that is a hello. -/
def afterHello (bytes : List UInt8) : List UInt8 :=
  match bytes.idxOf? newline with
  | none => bytes
  | some nl => if (parseClientHelloLine cfg (bytes.take nl)).isSome then bytes.drop (nl + 1) else bytes

/-- The bytes that a session sees. -/
def Conn.seen (c : Conn) : List UInt8 :=
  if c.byRead && cfg.keepsPutBack then afterHello cfg c.received else c.received.drop c.read.length

/-- What a socket has, by what it received. -/
def Conn.Framed (c : Conn) : Prop :=
  match c.stage with
  | .hello all _ =>
    c.received = all ∧ all.idxOf? newline = none ∧ all.length ≤ maxHelloLineBytes ∧ c.byRead = false
  | .session buffer handled _ =>
    c.read <+: c.received ∧ ∃ back,
      (if c.byRead then Settles cfg c.read back else back = []) ∧
      Cut.lines newline ((if cfg.keepsPutBack then back else []) ++ c.received.drop c.read.length) = (handled, buffer)

variable {cfg} {a : Act} {c c' : Conn}

theorem Conn.deliver_stage {buffer : List UInt8} {handled : List (List UInt8)} {stopped : Bool}
    (h : c.stage = .session buffer handled stopped) (chunk : List UInt8) :
    (c.deliver chunk).stage = .session (Cut.lines newline (buffer ++ chunk)).2
      (handled ++ (Cut.lines newline (buffer ++ chunk)).1) stopped := by
  unfold deliver
  rw [h]
  dsimp only
  rw [Cut.drain_eq_lines le_rfl]

theorem Conn.deliver_fields (c : Conn) (chunk : List UInt8) :
    (c.deliver chunk).received = c.received ∧ (c.deliver chunk).read = c.read ∧
      (c.deliver chunk).byRead = c.byRead := by
  unfold deliver
  split <;> exact ⟨rfl, rfl, rfl⟩

theorem Conn.begin_stage (c : Conn) (putBack : List UInt8) :
    (c.begin putBack).stage = .session (Cut.lines newline putBack).2 (Cut.lines newline putBack).1 false := by
  unfold begin
  split
  · rename_i hnil
    rw [hnil]
    rfl
  · exact deliver_stage (c := { c with stage := .session [] [] false }) rfl putBack

theorem Conn.begin_fields (c : Conn) (putBack : List UInt8) :
    (c.begin putBack).received = c.received ∧ (c.begin putBack).read = c.read ∧
      (c.begin putBack).byRead = c.byRead := by
  unfold begin
  split
  · exact ⟨rfl, rfl, rfl⟩
  · exact deliver_fields _ putBack

/-- A session starts with what was put back. -/
theorem Conn.Framed.begin {back : List UInt8} (hread : c.received = c.read)
    (hback : if c.byRead then Settles cfg c.read back else back = []) :
    (c.begin (if cfg.keepsPutBack then back else [])).Framed cfg := by
  obtain ⟨hreceived, hread', hby⟩ := c.begin_fields (if cfg.keepsPutBack then back else [])
  unfold Framed
  rw [begin_stage]
  dsimp only
  rw [hreceived, hread', hby, hread, List.drop_length]
  exact ⟨List.prefix_refl _, back, hback, by rw [List.append_nil]⟩

theorem Conn.Framed.deliver {buffer : List UInt8} {handled : List (List UInt8)} {stopped : Bool}
    (h : c.Framed cfg) (hstage : c.stage = .session buffer handled stopped) (chunk : List UInt8) :
    (({ c with received := c.received ++ chunk } : Conn).deliver chunk).Framed cfg := by
  unfold Framed at h
  rw [hstage] at h
  obtain ⟨hstart, back, hback, hlines⟩ := h
  obtain ⟨hreceived, hread, hby⟩ := ({ c with received := c.received ++ chunk } : Conn).deliver_fields chunk
  unfold Framed
  rw [deliver_stage (c := { c with received := c.received ++ chunk }) hstage]
  dsimp only
  rw [hreceived, hread, hby]
  refine ⟨hstart.trans (List.prefix_append _ _), back, hback, ?_⟩
  rw [List.drop_append_of_le_length hstart.length_le, ← List.append_assoc, Cut.lines_append, hlines]

/-- Neither the end of a session nor the close of its socket changes what it got. -/
theorem Conn.Framed.over {buffer : List UInt8} {handled : List (List UInt8)} {stopped : Bool} (h : c.Framed cfg)
    (hstage : c.stage = .session buffer handled stopped) (stopped' live : Bool) :
    ({ c with stage := .session buffer handled stopped', live := live } : Conn).Framed cfg := by
  unfold Framed at h ⊢
  rw [hstage] at h
  exact h

theorem Conn.Next.framed (h : c.Next cfg a i c') (hc : c.Framed cfg) : c'.Framed cfg := by
  cases h with
  | same => exact hc
  | stop =>
    unfold Conn.stop
    split
    · exact hc
    · rename_i hstage
      split
      · exact hc
      · exact hc.over hstage true false
  | deliver chunk hstage => exact hc.deliver hstage chunk
  | wait chunk hstage hidx hlen =>
    unfold Framed at hc
    rw [hstage] at hc
    exact ⟨congrArg (· ++ chunk) hc.1, hidx, hlen, hc.2.2.2⟩
  | settle chunk back hstage hback =>
    unfold Framed at hc
    rw [hstage] at hc
    exact .begin (congrArg (· ++ chunk) hc.1) hback
  | @timeout read deadline hstage =>
    unfold Framed at hc
    rw [hstage] at hc
    have hframed : (({ c with read := read } : Conn).begin (if cfg.keepsPutBack then [] else [])).Framed cfg :=
      .begin hc.1 (by simp [hc.2.2.2])
    rwa [ite_self] at hframed
  | @early read deadline ha hstage =>
    unfold Framed at hc
    rw [hstage] at hc
    have hframed :
        (({ c with live := false, read := read } : Conn).begin (if cfg.keepsPutBack then [] else [])).Framed cfg :=
      .begin hc.1 (by simp [hc.2.2.2])
    rwa [ite_self] at hframed
  | late hstage => exact hc.over hstage true false
  | gone hstage =>
    have hover := hc.over hstage true false
    rwa [← hstage] at hover

theorem framed_exec (hs : (machine cfg).exec (start cfg now) as = some s) : ∀ c ∈ s.conns, c.Framed cfg := by
  refine Machine.invariant (I := fun s => ∀ c ∈ s.conns, c.Framed cfg)
    (fun s a s' h _ hstep c' hc' => ?_) (fun c hc => ?_) (along_true _ as) hs
  · obtain ⟨i, hi⟩ := List.mem_iff_getElem?.mp hc'
    obtain ⟨c, hc, hnext⟩ | ⟨-, rfl⟩ := step_next hstep hi
    · exact hnext.framed (h c (List.mem_of_getElem? hc))
    · exact ⟨rfl, rfl, Nat.zero_le _, rfl⟩
  · unfold start State.armIdleTimer at hc
    split_ifs at hc <;> exact absurd hc List.not_mem_nil

/-- What was put back, and what came after it, is the stream behind its hello. -/
theorem Settles.afterHello {read rest back : List UInt8} (h : Settles cfg read back)
    (hshort : ∀ nl, (read ++ rest).idxOf? newline = some nl →
      (parseClientHelloLine cfg ((read ++ rest).take nl)).isSome = true → nl ≤ maxHelloLineBytes) :
    back ++ rest = afterHello cfg (read ++ rest) := by
  have hidx : (read ++ rest).findIdx? (· == newline) =
      (read.findIdx? (· == newline)).or ((rest.findIdx? (· == newline)).map (· + read.length)) :=
    List.findIdx?_append
  unfold Daemon.afterHello
  obtain ⟨hnone, hlong, rfl⟩ | ⟨nl, hnl, rfl⟩ := h
  · -- the wait was given up, and a line that ends now is too long for a hello
    split
    · rfl
    · rename_i nl hnl
      have hbehind : back.length ≤ nl := by
        rw [List.idxOf?, hidx, show back.findIdx? (· == newline) = none from hnone, Option.none_or] at hnl
        obtain ⟨k, -, rfl⟩ := Option.map_eq_some_iff.mp hnl
        exact Nat.le_add_left _ _
      rw [if_neg fun hello => absurd (hshort nl hnl hello) (not_le.mpr (hlong.trans_le hbehind))]
  · have hlt : nl < read.length := by
      obtain ⟨hlt, -⟩ := List.findIdx?_eq_some_iff_getElem.mp hnl
      exact hlt
    have hnl' : (read ++ rest).idxOf? newline = some nl := by
      rw [List.idxOf?, hidx, show read.findIdx? (· == newline) = some nl from hnl, Option.some_or]
    rw [hnl']
    dsimp only
    rw [List.take_append_of_le_length hlt.le, List.drop_append_of_le_length hlt]
    split <;> rfl

/-- **A session handles the lines of the bytes that it sees**, however they came. These are the bytes behind the hello,
where what is put back is kept; else, and after a wait that was not ended by what was read, they are those that came
when the wait was over. -/
theorem session_lines {buffer : List UInt8} {handled : List (List UInt8)} {stopped : Bool}
    (hs : (machine cfg).exec (start cfg now) as = some s) (hc : s.conns[i]? = some c)
    (hstage : c.stage = .session buffer handled stopped)
    (hshort : ∀ nl, c.received.idxOf? newline = some nl →
      (parseClientHelloLine cfg (c.received.take nl)).isSome = true → nl ≤ maxHelloLineBytes) :
    (handled, buffer) = Cut.lines newline (c.seen cfg) := by
  have hframed := framed_exec hs c (List.mem_of_getElem? hc)
  unfold Conn.Framed at hframed
  rw [hstage] at hframed
  obtain ⟨⟨rest, hrest⟩, back, hback, hlines⟩ := hframed
  rw [← hlines]
  unfold Conn.seen
  have hdrop : c.received.drop c.read.length = rest := by rw [← hrest, List.drop_left]
  rw [hdrop]
  cases hby : c.byRead with
  | false =>
    rw [hby] at hback
    rw [show back = [] from hback, ite_self]
    rfl
  | true =>
    rw [hby] at hback
    cases hkeeps : cfg.keepsPutBack with
    | false => rfl
    | true =>
      have hsettles : Settles cfg c.read back := hback
      rw [← hrest] at hshort
      rw [← hrest]
      exact congrArg _ (hsettles.afterHello hshort)

/-- A hello, a line and a half, in two pieces. -/
theorem session_lines_two_pieces :
    ∃ s c, (machine (usual true)).exec (start (usual true) 0)
        [.connect, .data 0 (helloLine ++ [newline, 97]), .data 0 [newline, 98]] = some s ∧ s.conns[0]? = some c ∧
      c.stage = .session [98] [[97]] false ∧ Cut.lines newline (c.seen (usual true)) = ([[97]], [98]) := by
  have hexec : ((machine (usual true)).exec (start (usual true) 0)
      [.connect, .data 0 (helloLine ++ [newline, 97]), .data 0 [newline, 98]]).map (fun s => s.conns[0]?) =
        some (some ⟨.session [98] [[97]] false, true, helloLine ++ [newline, 97, newline, 98],
          helloLine ++ [newline, 97], true⟩) := by decide +kernel
  obtain ⟨s, hs, hc⟩ := Option.map_eq_some_iff.mp hexec
  refine ⟨s, _, hs, hc, rfl, (session_lines hs hc rfl fun nl hnl _ => ?_).symm⟩
  have hidx : (helloLine ++ [newline, 97, newline, 98]).idxOf? newline = some 30 := by decide +kernel
  obtain rfl := Option.some.inj (hidx.symm.trans hnl)
  decide

/-- The same, where the socket goes on flowing without a listener. -/
example : ((machine (usual false)).exec (start (usual false) 0)
    [.connect, .data 0 (helloLine ++ [newline, 97]), .data 0 [newline, 98]]).map
      (fun s => s.conns[0]?.map (·.stage)) = some (some (.session [98] [[]] false)) := by decide +kernel

end Framed

end Daemon

end Devrouter.Engine
