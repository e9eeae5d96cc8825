import Mathlib.Tactic.Common

/-!
# Programs that talk to a shared service

A `Service` is a server with a state that answers commands, one at a time. A `Prog V α` is a client
program of the service `V`: it issues a command, receives either the server's answer or a failure
(`none`), and goes on from there until it returns a value.

A program is read in three ways.

* `Prog.run` runs it alone, with no failure: the sequential meaning.
* `Prog.Outcome` runs it alone, any of its commands failing without effect.
* `World.step` (in `Lib/Interleave.lean`) runs many programs against one state, one command at a
  time.

`Prog.wp` is the weakest precondition under failures. `Outcome.of_wp` is its soundness, and since
the sequential run is an outcome (`outcome_run`), a fact shown by `wp` holds of `run` as well
(`run_of_wp`).
-/

/-- A server: its state, the commands it answers, and what one command does to the state. -/
structure Service where
  State : Type
  Cmd : Type
  /-- The type of the answer to a command. -/
  Reply : Cmd → Type
  apply : (c : Cmd) → State → Reply c × State

/-- A client program of the service `V`. A command's continuation is given `none` when the command
failed. -/
inductive Prog (V : Service) (α : Type) : Type where
  | ret (a : α)
  | exec (c : V.Cmd) (k : Option (V.Reply c) → Prog V α)

namespace Prog

variable {V : Service} {α β : Type}

/-- Sequencing: run the first program, then the second on the value it returned. -/
def bind : Prog V α → (α → Prog V β) → Prog V β
  | .ret a, f => f a
  | .exec c k, f => .exec c fun r => (k r).bind f

instance : Monad (Prog V) where
  pure := .ret
  bind := bind

/-- The program that issues one command and returns its answer. -/
def call (c : V.Cmd) : Prog V (Option (V.Reply c)) := .exec c .ret

theorem bind_ret (p : Prog V α) : p.bind .ret = p := by
  induction p with
  | ret a => rfl
  | exec c k ih => exact congrArg (Prog.exec c) (funext ih)

theorem bind_bind {γ : Type} (p : Prog V α) (f : α → Prog V β) (g : β → Prog V γ) :
    (p.bind f).bind g = p.bind fun a => (f a).bind g := by
  induction p with
  | ret a => rfl
  | exec c k ih => exact congrArg (Prog.exec c) (funext ih)

instance : LawfulMonad (Prog V) :=
  LawfulMonad.mk' _ bind_ret (fun _ _ => rfl) bind_bind

@[simp] theorem ret_bind (a : α) (f : α → Prog V β) : (Prog.ret a >>= f) = f a := rfl

@[simp] theorem exec_bind (c : V.Cmd) (k : Option (V.Reply c) → Prog V α) (f : α → Prog V β) :
    (Prog.exec c k >>= f) = .exec c fun r => k r >>= f := rfl

@[simp] theorem pure_eq_ret (a : α) : (pure a : Prog V α) = .ret a := rfl

/-- What a program that has ended returns. -/
def value? : Prog V α → Option α
  | .ret a => some a
  | .exec _ _ => none

theorem value?_eq_some {p : Prog V α} {a : α} : p.value? = some a ↔ p = .ret a := by
  cases p with
  | ret b => simp [value?]
  | exec c k => simp [value?]

/-! ### The sequential run -/

/-- Run a program alone, every command succeeding. -/
def run : Prog V α → V.State → α × V.State
  | .ret a, s => (a, s)
  | .exec c k, s => (k (some (V.apply c s).1)).run (V.apply c s).2

@[simp] theorem run_ret (a : α) (s : V.State) : (Prog.ret a).run s = (a, s) := rfl

@[simp] theorem run_pure (a : α) (s : V.State) : (pure a : Prog V α).run s = (a, s) := rfl

@[simp] theorem run_call (c : V.Cmd) (s : V.State) :
    (call c).run s = (some (V.apply c s).1, (V.apply c s).2) := rfl

@[simp] theorem run_bind (p : Prog V α) (f : α → Prog V β) (s : V.State) :
    (p >>= f).run s = (f (p.run s).1).run (p.run s).2 := by
  induction p generalizing s with
  | ret a => rfl
  | exec c k ih => exact ih _ _

@[simp] theorem run_map (p : Prog V α) (f : α → β) (s : V.State) :
    (f <$> p).run s = (f (p.run s).1, (p.run s).2) := by
  rw [map_eq_pure_bind, run_bind, run_pure]

/-! ### Runs with failures -/

/-- `Outcome p s a s'`: run alone from `s`, `p` can return `a` and leave the state `s'`. Each command
either succeeds, or fails and leaves the state as it was. -/
inductive Outcome : Prog V α → V.State → α → V.State → Prop where
  | ret (a : α) (s : V.State) : Outcome (.ret a) s a s
  | ok {c : V.Cmd} {k : Option (V.Reply c) → Prog V α} {s s' : V.State} {a : α} :
      Outcome (k (some (V.apply c s).1)) (V.apply c s).2 a s' → Outcome (.exec c k) s a s'
  | fail {c : V.Cmd} {k : Option (V.Reply c) → Prog V α} {s s' : V.State} {a : α} :
      Outcome (k none) s a s' → Outcome (.exec c k) s a s'

/-- The sequential run is one of the outcomes. -/
theorem outcome_run (p : Prog V α) (s : V.State) : Outcome p s (p.run s).1 (p.run s).2 := by
  induction p generalizing s with
  | ret a => exact .ret a s
  | exec c k ih => exact .ok (ih _ _)

/-- The weakest precondition of a program under failures: whatever fails, the program ends with a
value and a state in `Q`. -/
def wp : Prog V α → (α → V.State → Prop) → V.State → Prop
  | .ret a, Q, s => Q a s
  | .exec c k, Q, s =>
    (k none).wp Q s ∧ (k (some (V.apply c s).1)).wp Q (V.apply c s).2

variable {Q Q' : α → V.State → Prop}

@[simp] theorem wp_ret (a : α) (s : V.State) : (Prog.ret a).wp Q s ↔ Q a s := Iff.rfl

@[simp] theorem wp_pure (a : α) (s : V.State) : (pure a : Prog V α).wp Q s ↔ Q a s := Iff.rfl

@[simp] theorem wp_call (c : V.Cmd) (Q : Option (V.Reply c) → V.State → Prop) (s : V.State) :
    (call c).wp Q s ↔ Q none s ∧ Q (some (V.apply c s).1) (V.apply c s).2 := Iff.rfl

@[simp] theorem wp_bind (p : Prog V α) (f : α → Prog V β) (Q : β → V.State → Prop) (s : V.State) :
    (p >>= f).wp Q s ↔ p.wp (fun a s' => (f a).wp Q s') s := by
  induction p generalizing s with
  | ret a => rfl
  | exec c k ih => exact and_congr (ih _ _) (ih _ _)

@[simp] theorem wp_map (p : Prog V α) (f : α → β) (Q : β → V.State → Prop) (s : V.State) :
    (f <$> p).wp Q s ↔ p.wp (fun a s' => Q (f a) s') s := by
  rw [map_eq_pure_bind, wp_bind]
  rfl

/-- **Consequence.** A stronger postcondition has a stronger precondition. -/
theorem wp_mono {p : Prog V α} {s : V.State} (hp : p.wp Q s) (h : ∀ a s', Q a s' → Q' a s') :
    p.wp Q' s := by
  induction p generalizing s with
  | ret a => exact h a s hp
  | exec c k ih => exact ⟨ih _ hp.1, ih _ hp.2⟩

/-- Two postconditions at once. -/
theorem wp_and {p : Prog V α} {s : V.State} (hp : p.wp Q s) (hp' : p.wp Q' s) :
    p.wp (fun a s' => Q a s' ∧ Q' a s') s := by
  induction p generalizing s with
  | ret a => exact ⟨hp, hp'⟩
  | exec c k ih => exact ⟨ih _ hp.1 hp'.1, ih _ hp.2 hp'.2⟩

theorem wp_of_forall (p : Prog V α) (h : ∀ a s, Q a s) (s : V.State) : p.wp Q s := by
  induction p generalizing s with
  | ret a => exact h a s
  | exec c k ih => exact ⟨ih _ _, ih _ _⟩

/-- A program whose outcome does not matter for what follows. -/
theorem wp_bind_of_forall {p : Prog V α} {f : α → Prog V β} {R : β → V.State → Prop}
    (h : ∀ a s, (f a).wp R s) (s : V.State) : (p >>= f).wp R s :=
  (wp_bind p f R s).mpr (p.wp_of_forall h s)

/-- **Soundness of `wp`.** -/
theorem Outcome.of_wp {p : Prog V α} {s s' : V.State} {a : α} (ho : Outcome p s a s')
    (hp : p.wp Q s) : Q a s' := by
  induction ho with
  | ret a s => exact hp
  | ok _ ih => exact ih hp.2
  | fail _ ih => exact ih hp.1

/-- What `wp` shows under failures holds of the sequential run. -/
theorem run_of_wp {p : Prog V α} {s : V.State} (hp : p.wp Q s) : Q (p.run s).1 (p.run s).2 :=
  (outcome_run p s).of_wp hp

/-- Run a program alone; `fails` names the commands that fail, by their position. -/
def runFaults : Prog V α → (ℕ → Bool) → V.State → α × V.State
  | .ret a, _, s => (a, s)
  | .exec c k, fails, s =>
    if fails 0 then (k none).runFaults (fun n => fails (n + 1)) s
    else (k (some (V.apply c s).1)).runFaults (fun n => fails (n + 1)) (V.apply c s).2

/-- One more command in front. -/
def consFault (b : Bool) (fails : ℕ → Bool) : ℕ → Bool
  | 0 => b
  | n + 1 => fails n

theorem consFault_false : consFault false (fun _ => false) = fun _ => false := by
  funext n
  cases n with
  | zero => rfl
  | succ n => rfl

/-- The outcomes are the runs with some commands failing. -/
theorem outcome_iff_runFaults {p : Prog V α} {s s' : V.State} {a : α} :
    Outcome p s a s' ↔ ∃ fails, p.runFaults fails s = (a, s') := by
  constructor
  · intro ho
    induction ho with
    -- a call that is answered takes `false` from the oracle, one that fails takes `true`
    | ret a s => exact ⟨fun _ => false, rfl⟩
    | ok _ ih =>
      obtain ⟨fails, h⟩ := ih
      exact ⟨consFault false fails, h⟩
    | fail _ ih =>
      obtain ⟨fails, h⟩ := ih
      exact ⟨consFault true fails, h⟩
  · rintro ⟨fails, h⟩
    induction p generalizing fails s with
    | ret b =>
      obtain ⟨rfl, rfl⟩ := Prod.mk.inj h
      exact .ret b s
    | exec c k ih =>
      unfold runFaults at h
      split_ifs at h
      · exact .fail (ih _ _ h)
      · exact .ok (ih _ _ h)

theorem runFaults_of_wp {p : Prog V α} {s : V.State} (hp : p.wp Q s) (fails : ℕ → Bool) :
    Q (p.runFaults fails s).1 (p.runFaults fails s).2 :=
  (outcome_iff_runFaults.mpr ⟨fails, rfl⟩).of_wp hp

/-- `wp` is what all runs with failures have in common. -/
theorem wp_iff_runFaults {p : Prog V α} {s : V.State} :
    p.wp Q s ↔ ∀ fails : ℕ → Bool, Q (p.runFaults fails s).1 (p.runFaults fails s).2 := by
  refine ⟨fun hp fails => runFaults_of_wp hp fails, fun h => ?_⟩
  induction p generalizing s with
  | ret a => exact h fun _ => false
  | exec c k ih => exact ⟨ih _ fun fails => h (consFault true fails), ih _ fun fails => h (consFault false fails)⟩

@[simp] theorem runFaults_map (p : Prog V α) (f : α → β) (fails : ℕ → Bool) (s : V.State) :
    (f <$> p).runFaults fails s = (f (p.runFaults fails s).1, (p.runFaults fails s).2) := by
  induction p generalizing fails s with
  | ret a => rfl
  | exec c k ih =>
    show (Prog.exec c fun r => f <$> k r).runFaults fails s = _
    unfold runFaults
    split_ifs
    · exact ih _ _ _
    · exact ih _ _ _

/-- A postcondition that nothing of the run matters to. -/
theorem wp_const (p : Prog V α) (C : Prop) (s : V.State) : p.wp (fun _ _ => C) s ↔ C :=
  ⟨fun h => run_of_wp h, fun h => p.wp_of_forall (fun _ _ => h) s⟩

/-- No command fails. -/
@[simp] theorem runFaults_false (p : Prog V α) (s : V.State) :
    p.runFaults (fun _ => false) s = p.run s := by
  induction p generalizing s with
  | ret a => rfl
  | exec c k ih => exact ih _ _

/-! ### The commands a program issues -/

/-- Every command the program can come to issue, whatever the service answers, meets `P`. -/
def Issues (P : V.Cmd → Prop) : Prog V α → Prop
  | .ret _ => True
  | .exec c k => P c ∧ ∀ r, (k r).Issues P

variable {P : V.Cmd → Prop}

@[simp] theorem issues_ret (a : α) : (Prog.ret a : Prog V α).Issues P := trivial

@[simp] theorem issues_pure (a : α) : (pure a : Prog V α).Issues P := trivial

theorem Issues.bind {p : Prog V α} {f : α → Prog V β} (hp : p.Issues P)
    (hf : ∀ a, (f a).Issues P) : (p >>= f).Issues P := by
  induction p with
  | ret a => exact hf a
  | exec c k ih => exact ⟨hp.1, fun r => ih r (hp.2 r)⟩

theorem issues_call {c : V.Cmd} (hc : P c) : (call c).Issues P := ⟨hc, fun _ => trivial⟩

theorem Issues.map {p : Prog V α} (hp : p.Issues P) (f : α → β) : (f <$> p).Issues P := by
  rw [map_eq_pure_bind]
  exact hp.bind fun _ => issues_pure _

/-! ### What every outcome keeps -/

/-- Every outcome of the program is related by `R` to the state it started in. -/
def Within (R : V.State → V.State → Prop) (p : Prog V α) : Prop :=
  ∀ s, p.wp (fun _ s' => R s s') s

section Within

variable {R : V.State → V.State → Prop}

theorem within_pure (hrefl : ∀ s, R s s) (a : α) : (pure a : Prog V α).Within R := hrefl

theorem within_call (hrefl : ∀ s, R s s) {c : V.Cmd} (hc : ∀ s, R s (V.apply c s).2) :
    (call c).Within R := fun s => ⟨hrefl s, hc s⟩

theorem Within.map {p : Prog V α} (hp : p.Within R) (f : α → β) : (f <$> p).Within R := by
  intro s
  rw [map_eq_pure_bind, wp_bind]
  exact wp_mono (hp s) fun _ _ h => h

theorem Within.bind (htrans : ∀ s₁ s₂ s₃, R s₁ s₂ → R s₂ s₃ → R s₁ s₃) {p : Prog V α}
    {f : α → Prog V β} (hp : p.Within R) (hf : ∀ a, (f a).Within R) : (p >>= f).Within R := by
  intro s
  rw [wp_bind]
  exact wp_mono (hp s) fun a s' h => wp_mono (hf a s') fun _ s'' h' => htrans _ _ _ h h'

/-- What every command keeps. -/
theorem Issues.within (hrefl : ∀ s, R s s) (htrans : ∀ s₁ s₂ s₃, R s₁ s₂ → R s₂ s₃ → R s₁ s₃)
    (hP : ∀ c, P c → ∀ s, R s (V.apply c s).2) {p : Prog V α} (hp : p.Issues P) : p.Within R := by
  induction p with
  | ret a => exact hrefl
  | exec c k ih =>
    intro s
    refine ⟨ih none (hp.2 none) s, ?_⟩
    exact wp_mono (ih _ (hp.2 _) _) fun _ s' h => htrans _ _ _ (hP c hp.1 s) h

end Within

end Prog
