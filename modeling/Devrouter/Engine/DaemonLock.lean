import Devrouter.Lib.LockFile
import Devrouter.Lib.Machine
import Mathlib.Logic.Function.Basic

/-!
# The lock of the daemon

Model of `startDaemonProcess` in `codegraph/src/mcp/index.ts` with `tryAcquireDaemonLock`, `clearStaleDaemonLock` and
`cleanupLockfile` in `mcp/daemon.ts`: processes that compete for `daemon.pid`. One step is one look at the file, or one
change of it, or one test whether a process is alive; the steps of the processes interleave in any order, and a process
can be killed at any time. An id is never used again.

`clearStaleDaemonLock` looks at the file once more before it removes it, but between that look and the removal others
can run. There is one daemon in every run in which no removal takes away a record that was not looked at
(`one_daemon`). Without this two candidates can find the same stale record, and the second of them removes the record
of the first, which is then a daemon.
-/

namespace Devrouter.Engine

namespace DaemonLock

/-- What `decodeLockInfo` finds: nothing, or the id of a process. -/
inductive Record where
  | garbage
  | of (pid : ℕ)
  deriving DecidableEq, Repr

/-- `TAKEOVER_MAX_RETRIES`. -/
def takeoverMaxRetries : ℕ := 5

/-- Where a process is, with the number of its attempt. -/
inductive Pc where
  | unborn
  /-- Before the link. -/
  | link (attempt : ℕ)
  /-- The lock was taken: before the look at who has it. -/
  | read (attempt : ℕ)
  | judge (attempt : ℕ) (existing : Option Record)
  /-- In `clearStaleDaemonLock`: before its look, before its test, before the removal. -/
  | reread (attempt : ℕ) (expectedDeadPid : Option ℕ)
  | test (attempt : ℕ) (pid : ℕ)
  | unlink (attempt : ℕ) (raw : Record)
  | sleep (attempt : ℕ)
  | daemon
  /-- In `cleanupLockfile`: before its look, before the removal. -/
  | cleanup
  | remove
  | dead
  deriving DecidableEq, Repr

structure World where
  file : Option Record := none
  pc : ℕ → Pc := fun _ => .unborn

inductive Act where
  | spawn (pid : ℕ)
  /-- The next step of a process. -/
  | act (pid : ℕ)
  /-- A daemon is told to stop, or its idle timer ends. -/
  | stop (pid : ℕ)
  | kill (pid : ℕ)
  deriving DecidableEq, Repr

namespace World

variable (w : World)

def isProcessAlive (pid : ℕ) : Bool := 0 < pid && w.pc pid ≠ .unborn && w.pc pid ≠ .dead

def set (pid : ℕ) (pc : Pc) : World := { w with pc := Function.update w.pc pid pc }

/-- The pid that the caller of `clearStaleDaemonLock` expects. -/
def expected : Option Record → Option ℕ
  | some (.of pid) => some pid
  | _ => none

def act (pid : ℕ) : Option World :=
  match w.pc pid with
  | .unborn | .daemon | .dead => none
  | .link k =>
    match w.file with
    | none => some { w.set pid .daemon with file := some (.of pid) }
    | some _ => some (w.set pid (.read k))
  | .read k => some (w.set pid (.judge k w.file))
  | .judge k existing =>
    -- the holder is alive, so that this process is not needed
    if (expected existing).any w.isProcessAlive then some (w.set pid .dead)
    else some (w.set pid (.reread k (expected existing)))
  | .reread k expectedDeadPid =>
    match w.file with
    | none => some (w.set pid (.sleep k))
    | some .garbage => some (w.set pid (.unlink k .garbage))
    | some (.of q) =>
      if expectedDeadPid.all (q = ·) then some (w.set pid (.test k q)) else some (w.set pid (.sleep k))
  | .test k q =>
    if w.isProcessAlive q then some (w.set pid (.sleep k)) else some (w.set pid (.unlink k (.of q)))
  | .unlink k _ => some { w.set pid (.sleep k) with file := none }
  | .sleep k => some (w.set pid (if k + 1 < takeoverMaxRetries then .link (k + 1) else .dead))
  | .cleanup => some (w.set pid (if w.file = some (.of pid) then .remove else .dead))
  | .remove => some { w.set pid .dead with file := none }

def step : Act → Option World
  | .spawn pid => if 0 < pid ∧ w.pc pid = .unborn then some (w.set pid (.link 0)) else none
  | .act pid => w.act pid
  | .stop pid => if w.pc pid = .daemon then some (w.set pid .cleanup) else none
  | .kill pid => if w.isProcessAlive pid then some (w.set pid .dead) else none

end World

def machine : Machine World Act := ⟨World.step⟩

/-- A process that has the lock: a daemon, also one that stops and has not removed its record. -/
def Pc.owns : Pc → Bool
  | .daemon | .cleanup | .remove => true
  | _ => false

/-- A process that a process has read of, and whether it found it dead. -/
def Pc.mentions : Pc → ℕ → Prop
  | .judge _ existing, q => existing = some (.of q)
  | .reread _ expectedDeadPid, q => expectedDeadPid = some q
  | .test _ pid, q => pid = q
  | .unlink _ raw, q => raw = .of q
  | _, _ => False

namespace World

variable {w w' : World} {p q pid : ℕ} {pc : Pc}

/-- The lock is held under the record of the holder. -/
def Holds (w : World) (p : ℕ) (r : Record) : Prop := (w.pc p).owns = true ∧ r = .of p

structure Sound (w : World) : Prop where
  exclusive : LockFile.Exclusive w.file w.Holds
  known : ∀ q, w.file = some (.of q) → w.pc q ≠ .unborn
  mentioned : ∀ p q, (w.pc p).mentions q → w.pc q ≠ .unborn
  positive : ∀ q, w.pc q ≠ .unborn → 0 < q ∨ w.pc q = .dead
  /-- What is about to be removed was left by a dead process. -/
  stale : ∀ p k q, w.pc p = .unlink k (.of q) → w.pc q = .dead

/-- A removal takes away what was looked at, or nothing. -/
def Undisturbed (w : World) : Act → Prop
  | .act pid => ∀ k raw, w.pc pid = .unlink k raw → w.file = none ∨ w.file = some raw
  | _ => True

theorem set_pc_self (w : World) (pid : ℕ) (pc : Pc) : (w.set pid pc).pc pid = pc := Function.update_self ..

theorem set_pc_of_ne (w : World) (h : q ≠ pid) (pc : Pc) : (w.set pid pc).pc q = w.pc q := Function.update_of_ne h ..

/-- A step of a live process, with what it does to the file. -/
theorem Sound.move (h : w.Sound) (pc : Pc) (file : Option Record) (hlive : w.pc pid ≠ .dead) (hpos : 0 < pid)
    (hborn : pc ≠ .unborn) (hmentions : ∀ q, pc.mentions q → w.pc q ≠ .unborn)
    (hstale : ∀ k q, pc = .unlink k (.of q) → w.pc q = .dead) (hexclusive : LockFile.Exclusive file (w.set pid pc).Holds)
    (hknown : ∀ q, file = some (.of q) → q = pid ∨ w.file = some (.of q)) :
    Sound { w.set pid pc with file := file } := by
  have hstays : ∀ q, w.pc q ≠ .unborn → (w.set pid pc).pc q ≠ .unborn := by
    intro q hq
    by_cases hqp : q = pid
    · rw [hqp, set_pc_self]
      exact hborn
    · rwa [set_pc_of_ne w hqp]
  have hdead : ∀ q, w.pc q = .dead → (w.set pid pc).pc q = .dead := by
    intro q hq
    have hqp : q ≠ pid := fun heq => hlive (heq ▸ hq)
    rwa [set_pc_of_ne w hqp]
  refine
    { exclusive := hexclusive, known := fun q hq => ?_, mentioned := fun p q hpq => ?_, positive := fun q hq => ?_,
      stale := fun p k q hp => ?_ }
  · obtain rfl | hold := hknown q hq
    · show (w.set q pc).pc q ≠ .unborn
      rw [set_pc_self]
      exact hborn
    · exact hstays q (h.known q hold)
  · change ((w.set pid pc).pc p).mentions q at hpq
    by_cases heq : p = pid
    · rw [heq, set_pc_self] at hpq
      exact hstays q (hmentions q hpq)
    · rw [set_pc_of_ne w heq] at hpq
      exact hstays q (h.mentioned p q hpq)
  · change (w.set pid pc).pc q ≠ .unborn at hq
    show 0 < q ∨ (w.set pid pc).pc q = .dead
    by_cases heq : q = pid
    · exact .inl (heq ▸ hpos)
    · rw [set_pc_of_ne w heq] at hq ⊢
      exact h.positive q hq
  · change (w.set pid pc).pc p = .unlink k (.of q) at hp
    by_cases heq : p = pid
    · rw [heq, set_pc_self] at hp
      exact hdead q (hstale k q hp)
    · rw [set_pc_of_ne w heq] at hp
      exact hdead q (h.stale p k q hp)

/-- Who has the lock after a step of a process had it before, or is that process. -/
theorem holds_set {r : Record} (hp : (w.set pid pc).Holds p r) (h : pc.owns = true → p = pid → w.Holds p r) :
    w.Holds p r := by
  obtain ⟨howns, rfl⟩ := hp
  by_cases heq : p = pid
  · refine h ?_ heq
    rwa [heq, set_pc_self] at howns
  · rw [set_pc_of_ne w heq] at howns
    exact ⟨howns, rfl⟩

/-- A step of a live process that leaves the file alone. -/
theorem Sound.set (h : w.Sound) (hlive : w.pc pid ≠ .dead) (hpos : 0 < pid) (hborn : pc ≠ .unborn)
    (howns : pc.owns = true → (w.pc pid).owns = true) (hmentions : ∀ q, pc.mentions q → w.pc q ≠ .unborn)
    (hstale : ∀ k q, pc = .unlink k (.of q) → w.pc q = .dead) : (w.set pid pc).Sound := by
  refine h.move pc w.file hlive hpos hborn hmentions hstale (h.exclusive.mono fun p r hp => ?_) fun _ hfile => .inr hfile
  exact holds_set hp fun hpc heq => ⟨heq ▸ howns hpc, hp.2⟩

/-- What was read of and is not alive is dead. -/
theorem Sound.dead_of_not_alive (h : w.Sound) (hborn : w.pc q ≠ .unborn) (hnot : w.isProcessAlive q = false) :
    w.pc q = .dead := by
  by_contra hlive
  have hpos : 0 < q := (h.positive q hborn).resolve_right hlive
  have halive : w.isProcessAlive q = true := by
    simp only [isProcessAlive, Bool.and_eq_true, decide_eq_true_eq]
    exact ⟨⟨hpos, hborn⟩, hlive⟩
  exact Bool.false_ne_true (hnot.symm.trans halive)

theorem Sound.act (h : w.Sound) (hclear : w.Undisturbed (.act pid)) (hact : w.act pid = some w') : w'.Sound := by
  have hlive : w.pc pid ≠ .dead := fun hpc => by
    rw [World.act, hpc] at hact
    exact absurd hact nofun
  have hborn : w.pc pid ≠ .unborn := fun hpc => by
    rw [World.act, hpc] at hact
    exact absurd hact nofun
  have hpos : 0 < pid := (h.positive pid hborn).resolve_right hlive
  rw [World.act] at hact
  cases hpc : w.pc pid with
  | unborn => exact absurd hpc hborn
  | dead => exact absurd hpc hlive
  | daemon =>
    rw [hpc] at hact
    exact absurd hact nofun
  | link k =>
    simp only [hpc] at hact
    cases hfile : w.file with
    | none =>
      simp only [hfile] at hact
      obtain rfl := Option.some.inj hact
      have hfree : LockFile.Exclusive none w.Holds := hfile ▸ h.exclusive
      refine h.move .daemon _ hlive hpos nofun (fun _ hq => hq.elim) nofun (hfree.create fun q r hq => ?_) fun q hq => ?_
      · by_cases heq : q = pid
        · exact .inr (heq ▸ hq.2)
        · exact .inl (holds_set hq fun _ hself => absurd hself heq)
      · exact .inl (Record.of.inj (Option.some.inj hq)).symm
    | some r =>
      simp only [hfile] at hact
      obtain rfl := Option.some.inj hact
      exact h.set hlive hpos nofun nofun (fun _ hq => hq.elim) nofun
  | read k =>
    simp only [hpc] at hact
    obtain rfl := Option.some.inj hact
    exact h.set hlive hpos nofun nofun h.known nofun
  | judge k existing =>
    simp only [hpc] at hact
    split at hact
    · obtain rfl := Option.some.inj hact
      exact h.set hlive hpos nofun nofun (fun _ hq => hq.elim) nofun
    · obtain rfl := Option.some.inj hact
      refine h.set hlive hpos nofun nofun (fun q hq => ?_) nofun
      refine h.mentioned pid q ?_
      rw [hpc]
      cases existing with
      | none => exact absurd hq nofun
      | some r =>
        cases r with
        | garbage => exact absurd hq nofun
        | of q' => exact congrArg _ (congrArg _ (Option.some.inj hq))
  | reread k expectedDeadPid =>
    simp only [hpc] at hact
    split at hact
    · obtain rfl := Option.some.inj hact
      exact h.set hlive hpos nofun nofun (fun _ hq => hq.elim) nofun
    · obtain rfl := Option.some.inj hact
      exact h.set hlive hpos nofun nofun nofun nofun
    · next q hfile =>
      split at hact
      · obtain rfl := Option.some.inj hact
        refine h.set hlive hpos nofun nofun (fun q' hq => ?_) nofun
        exact hq ▸ h.known q hfile
      · obtain rfl := Option.some.inj hact
        exact h.set hlive hpos nofun nofun (fun _ hq => hq.elim) nofun
  | test k q =>
    have hmentioned : w.pc q ≠ .unborn := h.mentioned pid q (by rw [hpc]; rfl)
    simp only [hpc] at hact
    split at hact
    · obtain rfl := Option.some.inj hact
      exact h.set hlive hpos nofun nofun (fun _ hq => hq.elim) nofun
    · next hdead =>
      obtain rfl := Option.some.inj hact
      refine h.set hlive hpos nofun nofun (fun q' hq => ?_) ?_
      · exact Record.of.inj hq ▸ hmentioned
      · rintro _ _ ⟨⟩
        exact h.dead_of_not_alive hmentioned (Bool.eq_false_iff.mpr hdead)
  | unlink k raw =>
    simp only [hpc] at hact
    obtain rfl := Option.some.inj hact
    refine h.move (.sleep k) none hlive hpos nofun (fun _ hq => hq.elim) nofun ?_ nofun
    have hnone : LockFile.Exclusive none w.Holds := by
      refine h.exclusive.remove (hclear k raw hpc) ?_
      -- who holds the lock under the record is not dead
      rintro p r ⟨⟩ ⟨howns, rfl⟩
      rw [h.stale pid k p hpc] at howns
      exact Bool.false_ne_true howns
    exact hnone.mono fun p r hp => holds_set hp nofun
  | sleep k =>
    simp only [hpc] at hact
    obtain rfl := Option.some.inj hact
    split
    · exact h.set hlive hpos nofun nofun (fun _ hq => hq.elim) nofun
    · exact h.set hlive hpos nofun nofun (fun _ hq => hq.elim) nofun
  | cleanup =>
    simp only [hpc] at hact
    obtain rfl := Option.some.inj hact
    split
    · exact h.set hlive hpos nofun (fun _ => by rw [hpc]; rfl) (fun _ hq => hq.elim) nofun
    · exact h.set hlive hpos nofun nofun (fun _ hq => hq.elim) nofun
  | remove =>
    simp only [hpc] at hact
    obtain rfl := Option.some.inj hact
    refine h.move .dead none hlive hpos nofun (fun _ hq => hq.elim) nofun ⟨fun p r hp => ?_⟩ nofun
    have hself : w.Holds pid (.of pid) := ⟨by rw [hpc]; rfl, rfl⟩
    have hother : w.Holds p r := holds_set hp nofun
    obtain rfl : p = pid := Record.of.inj (hother.2.symm.trans (h.exclusive.eq hother hself))
    exact absurd hp.1 (by rw [set_pc_self]; exact Bool.false_ne_true)

theorem Sound.step (h : w.Sound) {a : Act} (hclear : w.Undisturbed a) (hstep : w.step a = some w') : w'.Sound := by
  cases a with
  | spawn pid =>
    obtain ⟨⟨hpos, hunborn⟩, hs⟩ := Option.ite_none_right_eq_some.mp hstep
    obtain rfl := Option.some.inj hs
    exact h.set (by rw [hunborn]; exact nofun) hpos nofun nofun (fun _ hq => hq.elim) nofun
  | act pid => exact h.act hclear hstep
  | stop pid =>
    obtain ⟨hpc, hs⟩ := Option.ite_none_right_eq_some.mp hstep
    obtain rfl := Option.some.inj hs
    have hlive : w.pc pid ≠ .dead := by rw [hpc]; exact nofun
    have hpos : 0 < pid := (h.positive pid (by rw [hpc]; exact nofun)).resolve_right hlive
    exact h.set hlive hpos nofun (fun _ => by rw [hpc]; rfl) (fun _ hq => hq.elim) nofun
  | kill pid =>
    obtain ⟨halive, hs⟩ := Option.ite_none_right_eq_some.mp hstep
    obtain rfl := Option.some.inj hs
    simp only [isProcessAlive, Bool.and_eq_true, decide_eq_true_eq] at halive
    exact h.set halive.2 halive.1.1 nofun nofun (fun _ hq => hq.elim) nofun

/-- No process runs, and the file, if any, was left by a dead one. -/
structure Idle (w : World) : Prop where
  pc : ∀ p, w.pc p = .unborn ∨ w.pc p = .dead
  file : ∀ q, w.file = some (.of q) → w.pc q = .dead

theorem Idle.sound (h : w.Idle) : w.Sound := by
  have howns : ∀ p, (w.pc p).owns = false := fun p => by
    obtain hpc | hpc := h.pc p <;> rw [hpc] <;> rfl
  have hmentions : ∀ p q, ¬ (w.pc p).mentions q := fun p q => by
    obtain hpc | hpc := h.pc p <;> rw [hpc] <;> exact id
  exact
    { exclusive := ⟨fun p r hp => absurd (hp.1.symm.trans (howns p)) nofun⟩
      known := fun q hq => by rw [h.file q hq]; exact nofun
      mentioned := fun p q hpq => absurd hpq (hmentions p q)
      positive := fun q hq => .inr ((h.pc q).resolve_left hq)
      stale := fun p k q hp => absurd (show (w.pc p).mentions q by rw [hp]; rfl) (hmentions p q) }

/-- **One daemon.** However the processes interleave, as long as each removal takes away what its process looked at
there is one daemon at most, and the lock names it. -/
theorem one_daemon {w₀ : World} (hidle : w₀.Idle) {acts : List Act} (h : machine.exec w₀ acts = some w)
    (hclear : machine.Along Undisturbed w₀ acts) :
    (∀ p, w.pc p = .daemon → w.file = some (.of p)) ∧ ∀ p q, w.pc p = .daemon → w.pc q = .daemon → p = q := by
  have hsound : w.Sound :=
    Machine.invariant (I := Sound) (fun _ _ _ hs hok hstep => hs.step hok hstep) hidle.sound hclear h
  have hholds : ∀ p, w.pc p = .daemon → w.Holds p (.of p) := fun p hp => ⟨by rw [hp]; rfl, rfl⟩
  refine ⟨fun p hp => hsound.exclusive.file_eq p _ (hholds p hp), fun p q hp hq => ?_⟩
  exact Record.of.inj (hsound.exclusive.eq (hholds p hp) (hholds q hq))

/-- The first daemon of a project. -/
theorem one_daemon_first :
    ∃ w, machine.exec {} [.spawn 1, .act 1] = some w ∧ w.pc 1 = .daemon ∧ w.file = some (.of 1) := by
  obtain ⟨w, hw, hpc⟩ := Option.map_eq_some_iff.mp
    (show (machine.exec {} [.spawn 1, .act 1]).map (·.pc 1) = some .daemon by decide +kernel)
  have hidle : Idle {} := ⟨fun _ => .inl rfl, nofun⟩
  have hclear : machine.Along Undisturbed {} [.spawn 1, .act 1] := by
    refine ⟨trivial, fun w₁ hw₁ => ⟨fun k raw hunlink => ?_, fun _ _ => trivial⟩⟩
    obtain rfl := Option.some.inj hw₁
    exact absurd (hunlink : Pc.link 0 = _) nofun
  exact ⟨w, hw, hpc, (one_daemon hidle hw hclear).1 1 hpc⟩

/-- Two candidates look at the record of a dead daemon. The one is a daemon when the other removes its record. -/
example :
    let w₀ : World := { file := some (.of 9), pc := fun p => if p = 9 then .dead else .unborn }
    (machine.exec w₀
      ([.spawn 1, .spawn 2] ++ List.replicate 5 (.act 1) ++ List.replicate 8 (.act 2) ++ List.replicate 3 (.act 1))).map
        (fun w => (w.pc 1, w.pc 2, w.file)) = some (.daemon, .daemon, some (.of 1)) := by
  decide +kernel

end World

end DaemonLock

end Devrouter.Engine
