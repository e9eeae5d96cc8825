import Mathlib.Logic.Function.Basic
import Devrouter.Lib.Machine
import Devrouter.Lib.Prog

/-!
# Many programs on one service

`World V T L` is a service shared by threads. A thread is a program that returns a local state: it is
idle in the local state `l` when its program is `ret l`. A move of a world starts a job on an idle
thread, or lets a thread issue its next command: the service carries it out and the answer arrives
(`ok`), the service carries it out and the answer is lost (`lost`), or the command does not reach the
service (`fail`). In the last two cases the thread sees a failure. Any sequence of moves is an
interleaving; `World.machine` is the `Machine` of them.

The world keeps the log of the commands the service has carried out, each with the thread that issued
it and the state it met, and for every thread how long the log was when its job began.

`World.step_cases` is the one case analysis of a move. `World.thread_invariant` is the rule for
properties of one thread at a time: what the thread's own moves keep and the commands of the others
do not disturb holds of every thread in every interleaving. `Prog.Obeys` says what a program does
whatever the others make the service answer: a `Monitor` watches its commands and the answers.
-/

/-- A command the service carried out. -/
structure Done (V : Service) (T : Type) where
  thread : T
  cmd : V.Cmd
  before : V.State

/-- A service and its threads. -/
structure World (V : Service) (T L : Type) where
  shared : V.State
  threads : T → Prog V L
  /-- The commands carried out, oldest first. -/
  log : List (Done V T)
  /-- The length of the log when the thread's job began. -/
  began : T → Nat

/-- A move: a thread begins a job, or its next command is carried out, is carried out with the answer
lost, or fails. -/
inductive Move (T J : Type) where
  | start (t : T) (j : J)
  | ok (t : T)
  | lost (t : T)
  | fail (t : T)
  deriving DecidableEq

namespace World

variable {V : Service} {T L J : Type}

/-- Idle threads on a service. -/
def idle (s : V.State) (l : T → L) : World V T L where
  shared := s
  threads t := .ret (l t)
  log := []
  began _ := 0

/-- The states the service has been in, the present one last. -/
def past (w : World V T L) : List V.State := w.log.map (·.before) ++ [w.shared]

theorem past_length (w : World V T L) : w.past.length = w.log.length + 1 := by
  simp [past]

theorem past_last (w : World V T L) : w.past[w.log.length]? = some w.shared := by
  simp [past]

variable [DecidableEq T]

/-- The thread begins the program `p`. -/
def begin (w : World V T L) (t : T) (p : Prog V L) : World V T L :=
  { w with
    threads := Function.update w.threads t p
    began := Function.update w.began t w.log.length }

@[simp] theorem begin_threads_self (w : World V T L) (t : T) (p : Prog V L) :
    (w.begin t p).threads t = p := Function.update_self _ _ _

/-- The thread's command is carried out, and the thread goes on with `p`. -/
def answer (w : World V T L) (t : T) (c : V.Cmd) (p : Prog V L) : World V T L where
  shared := (V.apply c w.shared).2
  threads := Function.update w.threads t p
  log := w.log ++ [⟨t, c, w.shared⟩]
  began := w.began

/-- The state the command leaves is the last one. -/
theorem past_answer (w : World V T L) (t : T) (c : V.Cmd) (p : Prog V L) :
    (w.answer t c p).past = w.past ++ [(V.apply c w.shared).2] := by
  simp [past, answer]

/-- The thread's command fails. -/
def drop (w : World V T L) (t : T) (p : Prog V L) : World V T L :=
  { w with threads := Function.update w.threads t p }

/-- One move. -/
def step (prog : J → L → Prog V L) (w : World V T L) : Move T J → Option (World V T L)
  | .start t j =>
    match w.threads t with
    | .ret l => some (w.begin t (prog j l))
    | .exec _ _ => none
  | .ok t =>
    match w.threads t with
    | .ret _ => none
    | .exec c k => some (w.answer t c (k (some (V.apply c w.shared).1)))
  | .lost t =>
    -- the command is carried out, and its answer does not come
    match w.threads t with
    | .ret _ => none
    | .exec c k => some (w.answer t c (k none))
  | .fail t =>
    -- the command does not reach the server
    match w.threads t with
    | .ret _ => none
    | .exec _ k => some (w.drop t (k none))

/-- The interleavings. -/
def machine (V : Service) (T : Type) {L J : Type} [DecidableEq T] (prog : J → L → Prog V L) :
    Machine (World V T L) (Move T J) := ⟨step prog⟩

/-- **What a move can do.** -/
theorem step_cases {prog : J → L → Prog V L} {w w' : World V T L} {m : Move T J}
    (h : w.step prog m = some w') :
    (∃ t j l, m = .start t j ∧ w.threads t = .ret l ∧ w' = w.begin t (prog j l)) ∨
    (∃ t c k, m = .ok t ∧ w.threads t = .exec c k ∧
      w' = w.answer t c (k (some (V.apply c w.shared).1))) ∨
    (∃ t c k, m = .lost t ∧ w.threads t = .exec c k ∧ w' = w.answer t c (k none)) ∨
    (∃ t c k, m = .fail t ∧ w.threads t = .exec c k ∧ w' = w.drop t (k none)) := by
  -- only a thread that has returned starts a job, and only one that waits is answered
  cases m with
  | start t j =>
    cases ht : w.threads t with
    | ret l =>
      simp only [step, ht, Option.some.injEq] at h
      exact .inl ⟨t, j, l, rfl, ht, h.symm⟩
    | exec c k => simp [step, ht] at h
  | ok t =>
    cases ht : w.threads t with
    | ret l => simp [step, ht] at h
    | exec c k =>
      simp only [step, ht, Option.some.injEq] at h
      exact .inr (.inl ⟨t, c, k, rfl, ht, h.symm⟩)
  | lost t =>
    cases ht : w.threads t with
    | ret l => simp [step, ht] at h
    | exec c k =>
      simp only [step, ht, Option.some.injEq] at h
      exact .inr (.inr (.inl ⟨t, c, k, rfl, ht, h.symm⟩))
  | fail t =>
    cases ht : w.threads t with
    | ret l => simp [step, ht] at h
    | exec c k =>
      simp only [step, ht, Option.some.injEq] at h
      exact .inr (.inr (.inr ⟨t, c, k, rfl, ht, h.symm⟩))

/-- The thread invariant `P` relates a thread's program to the rest of the world. -/
abbrev ThreadInv (V : Service) (T L : Type) := T → Prog V L → World V T L → Prop

/-- **Rule for thread invariants.** `P` of every thread is kept by an allowed move when the mover's own
program keeps it (`start`, `answer`, `lose`, `drop`) and the others are not disturbed (`begin_ne`,
`answer_ne`, `drop_ne`). -/
structure Keeps (prog : J → L → Prog V L) (ok : World V T L → Move T J → Prop)
    (P : ThreadInv V T L) : Prop where
  start : ∀ w t j l, (∀ t, P t (w.threads t) w) → ok w (.start t j) → w.threads t = .ret l →
    P t (prog j l) (w.begin t (prog j l))
  answer : ∀ w t c k, (∀ t, P t (w.threads t) w) → ok w (.ok t) → w.threads t = .exec c k →
    P t (k (some (V.apply c w.shared).1)) (w.answer t c (k (some (V.apply c w.shared).1)))
  lose : ∀ w t c k, (∀ t, P t (w.threads t) w) → ok w (.lost t) → w.threads t = .exec c k →
    P t (k none) (w.answer t c (k none))
  drop : ∀ w t c k, (∀ t, P t (w.threads t) w) → ok w (.fail t) → w.threads t = .exec c k →
    P t (k none) (w.drop t (k none))
  begin_ne : ∀ w t t' p, t' ≠ t → P t' (w.threads t') w → P t' (w.threads t') (w.begin t p)
  answer_ne : ∀ w t t' c k p, (∀ t, P t (w.threads t) w) → ok w (.ok t) ∨ ok w (.lost t) →
    w.threads t = .exec c k → t' ≠ t → P t' (w.threads t') (w.answer t c p)
  drop_ne : ∀ w t t' p, t' ≠ t → P t' (w.threads t') w → P t' (w.threads t') (w.drop t p)

theorem Keeps.step {prog : J → L → Prog V L} {ok : World V T L → Move T J → Prop}
    {P : ThreadInv V T L} (hP : Keeps prog ok P) {w w' : World V T L} {m : Move T J}
    (hw : ∀ t, P t (w.threads t) w) (hok : ok w m) (h : w.step prog m = some w') :
    ∀ t, P t (w'.threads t) w' := by
  -- the mover's program is replaced, the others' stay
  have hthreads : ∀ (w' : World V T L) t p, w'.threads = Function.update w.threads t p →
      P t p w' → (∀ t', t' ≠ t → P t' (w.threads t') w') → ∀ t, P t (w'.threads t) w' := by
    intro w' t p hupd hself hne
    rw [hupd]
    exact (Function.forall_update_iff w.threads fun t p => P t p w').mpr ⟨hself, hne⟩
  rcases step_cases h with ⟨t, j, l, rfl, ht, rfl⟩ | ⟨t, c, k, rfl, ht, rfl⟩ |
    ⟨t, c, k, rfl, ht, rfl⟩ | ⟨t, c, k, rfl, ht, rfl⟩
  · exact hthreads _ t _ rfl (hP.start w t j l hw hok ht)
      fun t' hne => hP.begin_ne w t t' _ hne (hw t')
  · exact hthreads _ t _ rfl (hP.answer w t c k hw hok ht)
      fun t' hne => hP.answer_ne w t t' c k _ hw (.inl hok) ht hne
  · exact hthreads _ t _ rfl (hP.lose w t c k hw hok ht)
      fun t' hne => hP.answer_ne w t t' c k _ hw (.inr hok) ht hne
  · exact hthreads _ t _ rfl (hP.drop w t c k hw hok ht)
      fun t' hne => hP.drop_ne w t t' _ hne (hw t')

/-- **Thread invariants hold in every interleaving.** -/
theorem thread_invariant {prog : J → L → Prog V L} {ok : World V T L → Move T J → Prop}
    {P : ThreadInv V T L} (hP : Keeps prog ok P) {w w' : World V T L} {ms : List (Move T J)}
    (hw : ∀ t, P t (w.threads t) w) (hok : (machine V T prog).Along ok w ms)
    (h : (machine V T prog).exec w ms = some w') : ∀ t, P t (w'.threads t) w' :=
  Machine.invariant (M := machine V T prog) (I := fun w => ∀ t, P t (w.threads t) w)
    (fun _ _ _ hw hok hs => hP.step hw hok hs) hw hok h

end World

/-! ### Programs in any environment -/

/-- An observer of the commands a program issues and of their answers. -/
structure Monitor (V : Service) where
  State : Type
  next : State → (c : V.Cmd) → Option (V.Reply c) → State
  allows : State → V.Cmd → Prop

namespace Prog

variable {V : Service} {α β : Type}

/-- Whatever it is answered, the program issues only commands the monitor allows, and what it returns
meets `Q` in the monitor's last state. -/
def Obeys (M : Monitor V) (Q : α → M.State → Prop) : Prog V α → M.State → Prop
  | .ret a, σ => Q a σ
  | .exec c k, σ => M.allows σ c ∧ ∀ r, (k r).Obeys M Q (M.next σ c r)

variable {M : Monitor V} {σ : M.State}

@[simp] theorem obeys_ret {Q : α → M.State → Prop} (a : α) :
    (Prog.ret a).Obeys M Q σ ↔ Q a σ := Iff.rfl

@[simp] theorem obeys_pure {Q : α → M.State → Prop} (a : α) :
    (pure a : Prog V α).Obeys M Q σ ↔ Q a σ := Iff.rfl

@[simp] theorem obeys_bind {Q : β → M.State → Prop} (p : Prog V α) (f : α → Prog V β) :
    (p >>= f).Obeys M Q σ ↔ p.Obeys M (fun a σ' => (f a).Obeys M Q σ') σ := by
  induction p generalizing σ with
  | ret a => rfl
  | exec c k ih => exact and_congr Iff.rfl (forall_congr' fun r => ih r)

theorem Obeys.mono {Q Q' : α → M.State → Prop} {p : Prog V α} (hp : p.Obeys M Q σ)
    (h : ∀ a σ, Q a σ → Q' a σ) : p.Obeys M Q' σ := by
  induction p generalizing σ with
  | ret a => exact h a σ hp
  | exec c k ih => exact ⟨hp.1, fun r => ih r (hp.2 r)⟩

end Prog

/-- **A program is followed through an interleaving.** As long as its thread begins no other job, what
is left of it obeys the monitor. -/
theorem World.obeys_of_no_start {V : Service} {T L J : Type} [DecidableEq T]
    {prog : J → L → Prog V L} {M : Monitor V} {Q : L → M.State → Prop} {t : T}
    {w w' : World V T L} {ms : List (Move T J)} (hw : ∃ σ, (w.threads t).Obeys M Q σ)
    (hno : ∀ j, .start t j ∉ ms) (h : (machine V T prog).exec w ms = some w') :
    ∃ σ, (w'.threads t).Obeys M Q σ := by
  -- the invariant speaks of the one thread, and is trivial for the others
  have hkeep : Keeps prog (fun _ m => ∀ j, m ≠ .start t j)
      (fun t' p (_ : World V T L) => t' = t → ∃ σ, p.Obeys M Q σ) :=
    { start := fun _ t' j _ _ hok _ he => absurd (by rw [he]) (hok j)
      answer := fun _ t' c k hw _ ht he => by
        obtain ⟨σ, hσ⟩ := hw t' he
        rw [ht] at hσ
        exact ⟨_, hσ.2 _⟩
      lose := fun _ t' c k hw _ ht he => by
        obtain ⟨σ, hσ⟩ := hw t' he
        rw [ht] at hσ
        exact ⟨_, hσ.2 _⟩
      drop := fun _ t' c k hw _ ht he => by
        obtain ⟨σ, hσ⟩ := hw t' he
        rw [ht] at hσ
        exact ⟨_, hσ.2 _⟩
      begin_ne := fun _ _ _ _ _ hp => hp
      answer_ne := fun _ _ t' _ _ _ hw _ _ _ => hw t'
      drop_ne := fun _ _ _ _ _ hp => hp }
  have hall : (machine V T prog).Along (fun _ m => ∀ j, m ≠ .start t j) w ms := by
    refine Machine.Along.of_forall_mem (fun m hm _ j he => hno j ?_) w
    rw [← he]
    exact hm
  exact thread_invariant hkeep (fun t' he => by rw [he]; exact hw) hall h t rfl
