import Mathlib.Logic.Function.Basic
import Devrouter.Lib.Machine

/-!
# The stdio transport

Model of `mcpStdioTransport` in `internal/mcpsource/transport.go`: calls take turns under a lock, each
one writes a request with a fresh id and starts a reader goroutine on the shared output of the server;
it returns what its reader sends it, or gives up when its context ends. The reader of a call that gave
up goes on reading.

The transport is a `Machine` whose actions are the steps of the goroutines and of the server. Lines
are read whole, and the body of a response is of any type `R`. `call` stands for `listTools` as well,
which differs in the method alone. The server stays up: the errors of a closed pipe are left out.

`Stdio.Matched` is what request/response matching means in a state. It holds in every state of a run
in which no call starts while the reader of an earlier one is still reading (`Stdio.responses_matched`). The
invariant is `Stdio.Tidy`: there is at most one reader, and everything the server still owes is owed
to it. A call that starts beside an old reader can lose its response (`late_reader_loses_response`).
-/

namespace Devrouter

/-- A line of the server's output. -/
inductive Line (R : Type) where
  /-- Empty, not an object, or not decodable. -/
  | junk
  /-- A message: its id, when that is a number, and its result or error, when it has one. -/
  | message (id : Option Nat) (body : Option R)
  deriving DecidableEq, Repr

namespace Line

variable {R : Type}

/-- What the reader of rpc `n` sends its call for a line; `none` when it skips the line. -/
def answer (n : Nat) : Line R → Option R
  | .message (some m) (some b) => if m = n then some b else none
  | _ => none

/-- The response to rpc `n`. -/
def response (n : Nat) (b : R) : Line R := .message (some n) (some b)

/-- The line is nobody's response: a notification, a request of the server, or junk. -/
def isNoise : Line R → Bool
  | .message (some _) (some _) => false
  | _ => true

@[simp] theorem answer_response (n m : Nat) (b : R) :
    (response m b).answer n = if m = n then some b else none := rfl

theorem answer_of_isNoise {l : Line R} (n : Nat) (h : l.isNoise = true) : l.answer n = none := by
  cases l with
  | junk => rfl
  | message id body =>
    cases id with
    | none => rfl
    | some m =>
      cases body with
      | none => rfl
      | some b => cases h

end Line

/-- What an rpc is for: the handshake before the first call, or a call. -/
inductive RpcKind where
  | handshake | call
  deriving DecidableEq, Repr

/-- The rpc the holder of the lock waits for. -/
structure Rpc where
  id : Nat
  kind : RpcKind
  deriving DecidableEq, Repr

/-- The transport and the server at the other end of its pipes. -/
structure Stdio (R : Type) where
  idSeq : Nat
  initialized : Bool
  /-- The rpc of the call that holds the lock. -/
  waiting : Option Rpc
  /-- The rpcs whose reader goroutine is running. -/
  readers : List Nat
  /-- The channels the readers send to. -/
  done : Nat → Option R
  /-- The requests the server has not answered, oldest first. -/
  requests : List Nat
  /-- The lines the server has written and nobody has read, oldest first. -/
  pipe : List (Line R)
  /-- The responses the server has written. -/
  answered : List (Nat × R)
  /-- How the rpcs ended: with a response, or with the error of the context. -/
  returned : List (Nat × Option R)

namespace Stdio

variable {R : Type}

/-- A transport before its first call. -/
def new (R : Type) : Stdio R where
  idSeq := 0
  initialized := false
  waiting := none
  readers := []
  done _ := none
  requests := []
  pipe := []
  answered := []
  returned := []

/-- The first half of `rpc`: write a request with a fresh id and start its reader. -/
def send (s : Stdio R) (kind : RpcKind) : Stdio R :=
  let id := s.idSeq + 1
  { s with
    idSeq := id
    waiting := some ⟨id, kind⟩
    readers := s.readers ++ [id]
    requests := s.requests ++ [id] }

/-- The steps of the goroutines and of the server. -/
inductive Act (R : Type) where
  /-- A call takes the lock. -/
  | call
  /-- The server answers its oldest request. -/
  | respond (b : R)
  /-- The server writes a line of its own. -/
  | emit (l : Line R)
  /-- The reader of an rpc reads one line. -/
  | read (n : Nat)
  /-- The waiting rpc receives from its channel. -/
  | deliver
  /-- The context of the waiting rpc ends. -/
  | timeout
  deriving DecidableEq, Repr

/-- One step. -/
def step (s : Stdio R) : Act R → Option (Stdio R)
  | .call =>
    if s.waiting.isSome then none
    else some (s.send (if s.initialized then .call else .handshake))
  | .respond b =>
    match s.requests with
    | [] => none
    | n :: rest => some { s with
        requests := rest
        pipe := s.pipe ++ [.response n b]
        answered := s.answered ++ [(n, b)] }
  | .emit l => if l.isNoise then some { s with pipe := s.pipe ++ [l] } else none
  | .read n =>
    if n ∈ s.readers then
      match s.pipe with
      | [] => none
      | l :: rest =>
        match l.answer n with
        | some b => some { s with
            pipe := rest
            readers := s.readers.erase n
            done := Function.update s.done n (some b) }
        | none => some { s with pipe := rest }
    else none
  | .deliver =>
    match s.waiting with
    | none => none
    | some w =>
      match s.done w.id with
      | none => none
      | some b =>
        let t := { s with waiting := none, returned := s.returned ++ [(w.id, some b)] }
        match w.kind with
        -- the handshake is over, the call itself follows
        | .handshake => some ({ t with initialized := true }.send .call)
        | .call => some t
  | .timeout =>
    match s.waiting with
    | none => none
    | some w => some { s with waiting := none, returned := s.returned ++ [(w.id, none)] }

/-- The transport as a machine. -/
def machine (R : Type) : Machine (Stdio R) (Act R) := ⟨step⟩

/-- From this state the waiting rpc `n` returns `b` once its reader has read what it has to. -/
def CanReturn (s : Stdio R) (n : Nat) (b : R) : Prop :=
  ∃ k t, (machine R).exec s (List.replicate k (.read n) ++ [.deliver]) = some t ∧
    t.returned = s.returned ++ [(n, some b)]

/-- **Request/response matching** in a state. -/
structure Matched (s : Stdio R) : Prop where
  /-- A waiting rpc whose response is written can return it. -/
  delivered : ∀ w b, s.waiting = some w → (w.id, b) ∈ s.answered → s.CanReturn w.id b
  /-- What an rpc returned is the response to its request, and there is one response to a request. -/
  own : ∀ n b b', (n, some b) ∈ s.returned → ((n, b') ∈ s.answered ↔ b' = b)
  /-- The next line is no response to a later rpc than the one whose reader may read it. -/
  noTheft : ∀ m ∈ s.readers, ∀ n b rest, s.pipe = .response n b :: rest → ¬ m < n

/-- A call starts when no reader of an earlier rpc is running. -/
def StartsAlone (s : Stdio R) (a : Act R) : Prop := a = .call → s.readers = []

/-! ### One reader -/

/-- What the server still owes the reader of rpc `m`: the request is unanswered, or its response is
the one response on the pipe. -/
def Owes (s : Stdio R) (m : Nat) : Prop :=
  (s.requests = [m] ∧ (∀ l ∈ s.pipe, l.isNoise = true) ∧ ∀ b, (m, b) ∉ s.answered) ∨
  (s.requests = [] ∧ ∃ before after b, s.pipe = before ++ .response m b :: after ∧
    (∀ l ∈ before, l.isNoise = true) ∧ (∀ l ∈ after, l.isNoise = true) ∧ (m, b) ∈ s.answered)

/-- There is at most one reader, and all that the server still owes is owed to it. -/
structure Tidy (s : Stdio R) : Prop where
  readers : (s.readers = [] ∧ s.requests = [] ∧ ∀ l ∈ s.pipe, l.isNoise = true) ∨
    ∃ m, s.readers = [m] ∧ s.done m = none ∧ s.Owes m
  /-- The waiting rpc has a running reader or a filled channel. -/
  waiting : ∀ w, s.waiting = some w → s.readers = [w.id] ∨ (s.readers = [] ∧ (s.done w.id).isSome)
  done : ∀ n b, s.done n = some b → (n, b) ∈ s.answered
  returned : ∀ n b, (n, some b) ∈ s.returned → (n, b) ∈ s.answered
  unique : ∀ n b b', (n, b) ∈ s.answered → (n, b') ∈ s.answered → b = b'
  /-- Ids are handed out in order. -/
  fresh : ∀ n b, (n, b) ∈ s.answered → n ≤ s.idSeq
  asked : ∀ n ∈ s.requests, n ≤ s.idSeq

theorem new_tidy : (new R).Tidy where
  readers := .inl ⟨rfl, rfl, fun _ h => nomatch h⟩
  waiting _ h := nomatch h
  done _ _ h := nomatch h
  returned _ _ h := nomatch h
  unique _ _ _ h := nomatch h
  fresh _ _ h := nomatch h
  asked _ h := nomatch h

/-- A request sent when no reader is running. -/
theorem Tidy.send {s : Stdio R} (hs : s.Tidy) (hr : s.readers = []) (kind : RpcKind) :
    (s.send kind).Tidy := by
  have hfresh : ∀ b, (s.idSeq + 1, b) ∉ s.answered := fun b hb =>
    absurd (hs.fresh _ b hb) (Nat.not_succ_le_self _)
  have hdone : s.done (s.idSeq + 1) = none := by
    cases hd : s.done (s.idSeq + 1) with
    | none => rfl
    | some b => exact absurd (hs.done _ b hd) (hfresh b)
  -- no reader is waiting, so no request is open and nothing but noise is in the pipe
  have hreq : s.requests = [] ∧ ∀ l ∈ s.pipe, l.isNoise = true := by
    rcases hs.readers with ⟨-, h⟩ | ⟨m, h, -⟩
    · exact h
    · rw [hr] at h
      cases h
  -- the new request has the new id and one reader
  have hreaders : (s.send kind).readers = [s.idSeq + 1] := by
    change s.readers ++ [s.idSeq + 1] = _
    rw [hr, List.nil_append]
  have hrequests : (s.send kind).requests = [s.idSeq + 1] := by
    change s.requests ++ [s.idSeq + 1] = _
    rw [hreq.1, List.nil_append]
  refine ⟨.inr ⟨s.idSeq + 1, hreaders, hdone, .inl ⟨hrequests, hreq.2, hfresh⟩⟩, ?_, hs.done,
    hs.returned, hs.unique, fun n b h => Nat.le_succ_of_le (hs.fresh n b h), ?_⟩
  · intro w hw
    obtain rfl := Option.some.inj hw
    exact .inl hreaders
  · intro n hn
    rw [hrequests] at hn
    exact Nat.le_of_eq (List.mem_singleton.mp hn)

/-- The server answers its oldest request. -/
theorem Tidy.respond {s : Stdio R} (hs : s.Tidy) {n : Nat} {rest : List Nat}
    (hreq : s.requests = n :: rest) (b : R) :
    ({ s with
        requests := rest
        pipe := s.pipe ++ [.response n b]
        answered := s.answered ++ [(n, b)] } : Stdio R).Tidy := by
  obtain ⟨m, hr, hdone, ⟨hm, hnoise, hun⟩ | ⟨hm, -⟩⟩ : ∃ m, s.readers = [m] ∧ s.done m = none ∧
      s.Owes m := by
    rcases hs.readers with ⟨-, h, -⟩ | h
    · rw [hreq] at h
      cases h
    · exact h
  swap
  · rw [hreq] at hm
    cases hm
  obtain ⟨rfl, rfl⟩ : n = m ∧ rest = [] := by
    rw [hreq] at hm
    exact List.cons.inj hm
  refine ⟨.inr ⟨n, hr, hdone, .inr ⟨rfl, s.pipe, [], b, rfl, hnoise, (fun _ h => nomatch h), ?_⟩⟩,
    hs.waiting, fun k d hd => List.mem_append_left _ (hs.done k d hd),
    fun k d hd => List.mem_append_left _ (hs.returned k d hd), ?_, ?_, (fun _ h => nomatch h)⟩
  · exact List.mem_append_right _ (List.mem_singleton_self _)
  · -- the request had no response before
    intro k d d' hk hk'
    rcases List.mem_append.mp hk with hd | hd
    · rcases List.mem_append.mp hk' with hd' | hd'
      · exact hs.unique k d d' hd hd'
      · obtain ⟨rfl, rfl⟩ := Prod.mk.inj (List.mem_singleton.mp hd')
        exact absurd hd (hun d)
    · obtain ⟨rfl, rfl⟩ := Prod.mk.inj (List.mem_singleton.mp hd)
      rcases List.mem_append.mp hk' with hd' | hd'
      · exact absurd hd' (hun d')
      · exact (Prod.mk.inj (List.mem_singleton.mp hd')).2.symm
  · intro k d hd
    rcases List.mem_append.mp hd with hd | hd
    · exact hs.fresh k d hd
    · obtain ⟨rfl, rfl⟩ := Prod.mk.inj (List.mem_singleton.mp hd)
      exact hs.asked k (by rw [hreq]; exact List.mem_cons_self)

/-- The server writes a line of its own. -/
theorem Tidy.emit {s : Stdio R} (hs : s.Tidy) {l : Line R} (hl : l.isNoise = true) :
    ({ s with pipe := s.pipe ++ [l] } : Stdio R).Tidy := by
  have hext : ∀ ls : List (Line R), (∀ x ∈ ls, x.isNoise = true) →
      ∀ x ∈ ls ++ [l], x.isNoise = true := by
    intro ls h x hx
    rcases List.mem_append.mp hx with hx | hx
    · exact h x hx
    · rw [List.mem_singleton.mp hx]
      exact hl
  refine ⟨?_, hs.waiting, hs.done, hs.returned, hs.unique, hs.fresh, hs.asked⟩
  rcases hs.readers with ⟨hr, hreq, hn⟩ | ⟨m, hr, hdone, ⟨hreq, hn, hun⟩ | ⟨hreq, before, after, b,
    hp, hb, ha, hans⟩⟩
  · exact .inl ⟨hr, hreq, hext _ hn⟩
  · exact .inr ⟨m, hr, hdone, .inl ⟨hreq, hext _ hn, hun⟩⟩
  · refine .inr ⟨m, hr, hdone, .inr ⟨hreq, before, after ++ [l], b, ?_, hb, hext _ ha, hans⟩⟩
    change s.pipe ++ [l] = _
    rw [hp, List.append_assoc, List.cons_append]

/-- A reader reads a line: one it skips, or the response it waits for. -/
theorem Tidy.read {s t : Stdio R} (hs : s.Tidy) {n : Nat} (h : s.step (.read n) = some t) :
    t.Tidy := by
  obtain ⟨hn, l, rest, hpipe⟩ : n ∈ s.readers ∧ ∃ l rest, s.pipe = l :: rest := by
    unfold step at h
    dsimp only at h
    split_ifs at h with hn
    cases hp : s.pipe with
    | nil =>
      rw [hp] at h
      cases h
    | cons l rest => exact ⟨hn, l, rest, rfl⟩
  obtain ⟨m, hr, hdone, howes⟩ : ∃ m, s.readers = [m] ∧ s.done m = none ∧ s.Owes m := by
    rcases hs.readers with ⟨hr, -⟩ | h
    · rw [hr] at hn
      cases hn
    · exact h
  obtain rfl : n = m := by
    rw [hr] at hn
    exact List.mem_singleton.mp hn
  -- a line that is skipped
  have hskip : l.isNoise = true → t = { s with pipe := rest } := by
    intro hl
    simp only [step, hn, if_true, hpipe, Line.answer_of_isNoise n hl, Option.some.injEq] at h
    exact h.symm
  rcases howes with ⟨hreq, hnoise, hun⟩ | ⟨hreq, before, after, b, hp, hb, ha, hans⟩
  · obtain rfl := hskip (hnoise l (by rw [hpipe]; exact List.mem_cons_self))
    have hrest : ∀ x ∈ rest, x.isNoise = true := fun x hx =>
      hnoise x (by rw [hpipe]; exact List.mem_cons_of_mem _ hx)
    exact ⟨.inr ⟨n, hr, hdone, .inl ⟨hreq, hrest, hun⟩⟩, hs.waiting, hs.done, hs.returned, hs.unique,
      hs.fresh, hs.asked⟩
  · cases before with
    | cons x before =>
      obtain ⟨rfl, rfl⟩ : l = x ∧ rest = before ++ .response n b :: after :=
        List.cons.inj (hpipe.symm.trans hp)
      obtain rfl := hskip (hb l List.mem_cons_self)
      exact ⟨.inr ⟨n, hr, hdone, .inr ⟨hreq, before, after, b, rfl,
          fun y hy => hb y (List.mem_cons_of_mem _ hy), ha, hans⟩⟩,
        hs.waiting, hs.done, hs.returned, hs.unique, hs.fresh, hs.asked⟩
    | nil =>
      obtain ⟨rfl, rfl⟩ : l = .response n b ∧ rest = after := List.cons.inj (hpipe.symm.trans hp)
      obtain rfl : { s with
          pipe := rest
          readers := []
          done := Function.update s.done n (some b) } = t := by
        simpa [step, hn, hpipe, hr] using h
      refine ⟨.inl ⟨rfl, hreq, ha⟩, fun w hw => .inr ⟨rfl, ?_⟩, fun k d hd => ?_, hs.returned,
        hs.unique, hs.fresh, hs.asked⟩
      · rcases hs.waiting w hw with hwr | ⟨hwr, -⟩
        · obtain rfl : n = w.id := List.singleton_inj.mp (hr.symm.trans hwr)
          change (Function.update s.done w.id (some b) w.id).isSome = true
          rw [Function.update_self]
          rfl
        · rw [hr] at hwr
          cases hwr
      · by_cases hk : k = n
        · subst hk
          change Function.update s.done k (some b) k = some d at hd
          rw [Function.update_self, Option.some.injEq] at hd
          rwa [← hd]
        · change Function.update s.done n (some b) k = some d at hd
          rw [Function.update_of_ne hk] at hd
          exact hs.done k d hd

/-- The waiting rpc ends. -/
theorem Tidy.finish {s : Stdio R} (hs : s.Tidy) (i : Bool) (n : Nat) {o : Option R}
    (ho : ∀ b, o = some b → (n, b) ∈ s.answered) :
    ({ s with
        initialized := i
        waiting := none
        returned := s.returned ++ [(n, o)] } : Stdio R).Tidy := by
  refine ⟨hs.readers, (fun _ h => nomatch h), hs.done, fun k d hd => ?_, hs.unique, hs.fresh, hs.asked⟩
  rcases List.mem_append.mp hd with hd | hd
  · exact hs.returned k d hd
  · obtain ⟨rfl, rfl⟩ := Prod.mk.inj (List.mem_singleton.mp hd)
    exact ho d rfl

/-- The waiting rpc receives from its channel: its reader is gone. -/
theorem Tidy.readers_of_done {s : Stdio R} (hs : s.Tidy) {w : Rpc} {b : R}
    (hw : s.waiting = some w) (hb : s.done w.id = some b) : s.readers = [] := by
  rcases hs.waiting w hw with hr | ⟨hr, -⟩
  · rcases hs.readers with ⟨hr', -⟩ | ⟨m, hm, hdone, -⟩
    · exact hr'
    · obtain rfl : m = w.id := List.singleton_inj.mp (hm.symm.trans hr)
      rw [hb] at hdone
      cases hdone
  · exact hr

/-- **Every step keeps the transport tidy** when calls start alone. -/
theorem Tidy.step {s t : Stdio R} (hs : s.Tidy) {a : Act R} (hok : s.StartsAlone a)
    (h : s.step a = some t) : t.Tidy := by
  cases a with
  | call =>
    simp only [Stdio.step] at h
    split_ifs at h
    · obtain rfl := Option.some.inj h
      exact hs.send (hok rfl) _
    · obtain rfl := Option.some.inj h
      exact hs.send (hok rfl) _
  | respond b =>
    cases hreq : s.requests with
    | nil => simp [Stdio.step, hreq] at h
    | cons n rest =>
      simp only [Stdio.step, hreq] at h
      obtain rfl := Option.some.inj h
      exact hs.respond hreq b
  | emit l =>
    simp only [Stdio.step] at h
    split_ifs at h with hl
    obtain rfl := Option.some.inj h
    exact hs.emit hl
  | read n => exact hs.read h
  | deliver =>
    cases hw : s.waiting with
    | none => simp [Stdio.step, hw] at h
    | some w =>
      cases hb : s.done w.id with
      | none => simp [Stdio.step, hw, hb] at h
      | some b =>
        have hans : ∀ d, some b = some d → (w.id, d) ∈ s.answered := by
          intro d hd
          obtain rfl := Option.some.inj hd
          exact hs.done _ _ hb
        cases hk : w.kind with
        | handshake =>
          simp only [Stdio.step, hw, hb, hk] at h
          obtain rfl := Option.some.inj h
          -- the caller whose handshake is answered sends its call at once
          exact (hs.finish true w.id hans).send (hs.readers_of_done hw hb) .call
        | call =>
          simp only [Stdio.step, hw, hb, hk] at h
          obtain rfl := Option.some.inj h
          exact hs.finish s.initialized w.id hans
  | timeout =>
    cases hw : s.waiting with
    | none => simp [Stdio.step, hw] at h
    | some w =>
      simp only [Stdio.step, hw] at h
      obtain rfl := Option.some.inj h
      exact hs.finish s.initialized w.id fun b hb => nomatch hb

/-! ### Matching -/

/-- A reader skips the lines that are nobody's response. -/
theorem exec_skip {n : Nat} (before after : List (Line R))
    (hb : ∀ l ∈ before, l.isNoise = true) {s : Stdio R} (hn : n ∈ s.readers)
    (hp : s.pipe = before ++ after) :
    (machine R).exec s (List.replicate before.length (.read n)) = some { s with pipe := after } := by
  induction before generalizing s with
  | nil =>
    obtain rfl : s.pipe = after := hp
    rfl
  | cons l before ih =>
    have hstep : (machine R).step s (.read n) = some { s with pipe := before ++ after } := by
      have hl := Line.answer_of_isNoise n (hb l List.mem_cons_self)
      change s.step (.read n) = _
      simp [step, hn, hp, hl]
    rw [List.length_cons, List.replicate_succ, Machine.exec_cons, hstep]
    exact ih (fun x hx => hb x (List.mem_cons_of_mem _ hx)) hn rfl

/-- The waiting rpc receives what is in its channel. -/
theorem step_deliver {s : Stdio R} {w : Rpc} {b : R} (hw : s.waiting = some w)
    (hb : s.done w.id = some b) :
    ∃ t, s.step .deliver = some t ∧ t.returned = s.returned ++ [(w.id, some b)] := by
  cases hk : w.kind with
  | handshake =>
    simp only [step, hw, hb, hk]
    exact ⟨_, rfl, rfl⟩
  | call =>
    simp only [step, hw, hb, hk]
    exact ⟨_, rfl, rfl⟩

/-- A written response reaches the rpc that waits for it. -/
theorem Tidy.canReturn {s : Stdio R} (hs : s.Tidy) {w : Rpc} {b : R} (hw : s.waiting = some w)
    (ha : (w.id, b) ∈ s.answered) : s.CanReturn w.id b := by
  cases hd : s.done w.id with
  | some d =>
    -- the reader has sent it
    obtain rfl : d = b := hs.unique _ _ _ (hs.done _ _ hd) ha
    obtain ⟨t, ht, hret⟩ := step_deliver hw hd
    exact ⟨0, t, Machine.exec_cons_eq_some.mpr ⟨t, ht, rfl⟩, hret⟩
  | none =>
    have hr : s.readers = [w.id] := by
      rcases hs.waiting w hw with hr | ⟨-, hr⟩
      · exact hr
      · rw [hd] at hr
        cases hr
    obtain ⟨before, after, d, hp, hb, hans⟩ : ∃ before after d,
        s.pipe = before ++ .response w.id d :: after ∧ (∀ l ∈ before, l.isNoise = true) ∧
          (w.id, d) ∈ s.answered := by
      rcases hs.readers with ⟨hr', -⟩ | ⟨m, hm, -, ⟨-, -, hun⟩ | ⟨-, before, after, d, hp, hb, -, h⟩⟩
      · rw [hr] at hr'
        cases hr'
      · obtain rfl : m = w.id := List.singleton_inj.mp (hm.symm.trans hr)
        exact absurd ha (hun b)
      · obtain rfl : m = w.id := List.singleton_inj.mp (hm.symm.trans hr)
        exact ⟨before, after, d, hp, hb, h⟩
    obtain rfl : d = b := hs.unique _ _ _ hans ha
    have hmem : w.id ∈ s.readers := by
      rw [hr]
      exact List.mem_singleton_self _
    -- skip what is in front, take the response, hand it over
    let s₁ : Stdio R := { s with pipe := .response w.id d :: after }
    let s₂ : Stdio R := { s with
      pipe := after
      readers := s.readers.erase w.id
      done := Function.update s.done w.id (some d) }
    have h₁ : (machine R).exec s (List.replicate before.length (.read w.id)) = some s₁ :=
      exec_skip before _ hb hmem hp
    have h₂ : s₁.step (.read w.id) = some s₂ := by
      simp [Stdio.step, s₁, s₂, hmem]
    obtain ⟨t, h₃, hret⟩ := step_deliver (s := s₂) hw (Function.update_self _ _ _)
    refine ⟨before.length + 1, t, ?_, hret⟩
    rw [List.replicate_succ', List.append_assoc, Machine.exec_append_eq_some]
    exact ⟨s₁, h₁, Machine.exec_cons_eq_some.mpr ⟨s₂, h₂,
      Machine.exec_cons_eq_some.mpr ⟨t, h₃, rfl⟩⟩⟩

/-- A tidy transport matches responses with requests. -/
theorem Tidy.matched {s : Stdio R} (hs : s.Tidy) : s.Matched where
  delivered _ _ hw ha := hs.canReturn hw ha
  own n b b' h := by
    have hb := hs.returned n b h
    exact ⟨fun hb' => hs.unique n b' b hb' hb, fun he => he ▸ hb⟩
  noTheft m hm n b rest hp := by
    rcases hs.readers with ⟨hr, -⟩ | ⟨k, hr, -, ⟨-, hnoise, -⟩ | ⟨-, before, after, d, hp', hb, -⟩⟩
    · rw [hr] at hm
      cases hm
    · have hl := hnoise (.response n b) (by rw [hp]; exact List.mem_cons_self)
      cases hl
    · obtain rfl : m = k := by
        rw [hr] at hm
        exact List.mem_singleton.mp hm
      cases before with
      | nil =>
        -- the next line is the response that is owed to the reader
        have hl : Line.response n b = Line.response m d :=
          (List.cons.inj (hp.symm.trans hp')).1
        obtain ⟨rfl, -⟩ : n = m ∧ b = d := by simpa [Line.response] using hl
        exact Nat.lt_irrefl _
      | cons x before =>
        have hl : Line.response n b = x := (List.cons.inj (hp.symm.trans hp')).1
        have hx := hb x List.mem_cons_self
        rw [← hl] at hx
        cases hx

/-- **Responses are matched in every run whose calls start alone**: when no call starts while the
reader of an earlier rpc is running, an rpc that waits can return its response from the moment it is
written, what it returns is that response, and no reader takes the response of a later rpc. -/
theorem responses_matched {acts : List (Act R)} {s : Stdio R}
    (hok : (machine R).Along StartsAlone (new R) acts)
    (hrun : (machine R).exec (new R) acts = some s) : s.Matched :=
  (Machine.invariant (M := machine R) (I := Tidy) (fun _ _ _ hs hok hstep => hs.step hok hstep)
    new_tidy hok hrun).matched

/-- The handshake and a call that is answered. -/
theorem responses_matched_first : ∃ s : Stdio Nat, (machine Nat).exec (new Nat)
    [.call, .respond 10, .read 1, .deliver, .respond 20] = some s ∧ s.Matched := by
  -- the one call starts before any reader
  have hok : (machine Nat).Along StartsAlone (new Nat)
      [.call, .respond 10, .read 1, .deliver, .respond 20] :=
    ⟨fun _ => rfl, fun s h => ⟨fun ha => (nomatch ha), fun s h => ⟨fun ha => (nomatch ha),
      fun s h => ⟨fun ha => (nomatch ha), fun s h => ⟨fun ha => (nomatch ha), fun _ _ => trivial⟩⟩⟩⟩⟩
  exact ⟨_, rfl, responses_matched hok rfl⟩

/-- A call that times out, and a second one: each of the two readers reads the response to the other
call. -/
def lateReader : List (Act Nat) :=
  [
    .call, .respond 10, .read 1, .deliver, .timeout,
    .call, .respond 20, .respond 30, .read 3, .read 2]

/-- **The response to a waiting call is lost.** The second call is rpc 3; its response 30 is written
and was read by the reader of rpc 2. -/
theorem late_reader_loses_response : ∃ s, (machine Nat).exec (new Nat) lateReader = some s ∧
    s.waiting = some ⟨3, .call⟩ ∧ (3, 30) ∈ s.answered ∧ s.pipe = [] ∧ ¬ s.Matched := by
  have hview : ((machine Nat).exec (new Nat) lateReader).map
      (fun s => (s.waiting, s.answered, s.pipe, s.done 3))
      = some (some ⟨3, .call⟩, [(1, 10), (2, 20), (3, 30)], [], none) := by decide
  obtain ⟨s, hs, hv⟩ := Option.map_eq_some_iff.mp hview
  obtain ⟨hw, ha, hp, hd⟩ : s.waiting = some ⟨3, .call⟩ ∧ s.answered = [(1, 10), (2, 20), (3, 30)] ∧
      s.pipe = [] ∧ s.done 3 = none := by simpa using hv
  have hans : (3, 30) ∈ s.answered := by
    rw [ha]
    decide
  refine ⟨s, hs, hw, hans, hp, fun hm => ?_⟩
  obtain ⟨k, t, hrun, -⟩ := hm.delivered _ _ hw hans
  -- there is nothing left to read and nothing to receive
  cases k with
  | zero =>
    obtain ⟨s', hstep, -⟩ := Machine.exec_cons_eq_some.mp hrun
    change s.step .deliver = some s' at hstep
    simp [step, hw, hd] at hstep
  | succ k =>
    obtain ⟨s', hstep, -⟩ := Machine.exec_cons_eq_some.mp hrun
    change s.step (.read 3) = some s' at hstep
    simp [step, hp] at hstep

end Stdio

end Devrouter
