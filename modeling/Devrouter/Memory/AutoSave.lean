import Devrouter.Lib.Interleave
import Devrouter.Memory.Resave

/-!
# Auto saves and the agent's records

Saves of files, functions and flows run as threads on one server, one Redis command at a time. An auto
save reads the source of the record first and stops at a record of the agent's; the embedding and the
write come later, and a read that fails looks like a missing record.

`AutoCmd` tells the commands of auto saves from those of the agent's saves (`Record.issues_auto`,
`Record.issues_agent`). `agent_kept` is the run: as long as no guard read fails over an agent's record
and no agent's save writes a key that an auto save is about to write (`Unhurried`), no command of an auto
save changes a record of the agent's. `Poised` is the thread invariant that carries it: an auto save that
has passed its guard has no agent's record in front of it.
-/

open Prog

namespace Devrouter.Memory

variable {F T : Type}

/-! ### The threads -/

/-- A save, with what the other programs answer during it. -/
structure Job (F : Type) where
  env : Env F
  m : Record

/-- The program of a save. -/
def Job.prog (K : Keyspace) (j : Job F) (_ : Option SaveErr) : Prog (memdb F) (Option SaveErr) :=
  j.m.save j.env K

/-- The key holds a record of the agent's. -/
def AgentAt (s : Server F) (key : String) : Prop :=
  ∃ h, s.hashAt key = some h ∧ h.text "source" = "agent"

/-- The commands of auto saves: the guard's read and the write of an auto record. -/
def AutoCmd : Cmd F → Prop
  | .hget _ _ => True
  | .hset _ fields => ("source", .text "auto") ∈ fields
  | _ => False

/-- The write that ends a save. -/
def writeProg (key : String) (fields : List (String × Value F)) : Prog (memdb F) (Option SaveErr) :=
  .exec (.hset key fields) fun r => .ret (errOf r.join)

theorem embedAndWrite_eq (env : Env F) (key text : String)
    (fields : List F → List (String × Value F)) :
    embedAndWrite env key text fields
      = (env.embed text).elim (.ret (some .embed)) fun vec => writeProg key (fields vec) := by
  unfold embedAndWrite
  cases env.embed text with
  | none => rfl
  | some vec => rfl

namespace Record

variable (env : Env F) (K : Keyspace)

/-- An agent's save embeds and writes. -/
theorem save_of_not_auto {m : Record} (hm : m.source ≠ "auto") :
    m.save env K = embedAndWrite env (m.key K) m.text (m.fields env) := by
  rw [save_eq]
  unfold saveRecord existingSource
  rw [if_neg hm, pure_eq_ret, ret_bind, if_neg (by decide)]

/-- An auto save reads the source, and embeds and writes unless it reads the agent's. -/
theorem save_of_auto {m : Record} (hm : m.source = "auto") :
    m.save env K = .exec (.hget (m.key K) "source") fun r =>
      if readText r.join = "agent" then .ret none
      else embedAndWrite env (m.key K) m.text (m.fields env) := by
  rw [save_eq]
  unfold saveRecord existingSource
  rw [if_pos hm]
  rfl

/-- The write of a memory names one source. -/
theorem source_of_mem {m : Record} {vec : List F} {src : String}
    (h : ("source", .text src) ∈ m.fields env vec) : m.source = src := by
  have htext := m.text_source_written env vec fun _ => none
  unfold Hash.text at htext
  rw [hsetFields_of_mem (m.names_nodup env vec) h] at htext
  exact htext.symm

theorem embedAndWrite_issues {P : Cmd F → Prop} {m : Record}
    (hP : ∀ vec, P (.hset (m.key K) (m.fields env vec))) :
    (embedAndWrite env (m.key K) m.text (m.fields env)).Issues P := by
  rw [embedAndWrite_eq]
  cases env.embed m.text with
  | none => trivial
  | some vec => exact ⟨hP vec, fun _ => trivial⟩

/-- What an auto save issues. -/
theorem issues_auto {m : Record} (hm : m.source = "auto") : (m.save env K).Issues AutoCmd := by
  have hwrite : (embedAndWrite env (m.key K) m.text (m.fields env)).Issues AutoCmd := by
    refine m.embedAndWrite_issues env K fun vec => ?_
    have hsource := m.source_mem env vec
    rw [hm] at hsource
    exact hsource
  rw [m.save_of_auto env K hm]
  refine ⟨trivial, fun r => ?_⟩
  dsimp only
  split_ifs
  · trivial
  · exact hwrite

/-- What an agent's save issues. -/
theorem issues_agent {m : Record} (hm : m.source ≠ "auto") :
    (m.save env K).Issues fun c => ¬ AutoCmd c := by
  rw [m.save_of_not_auto env K hm]
  exact m.embedAndWrite_issues env K fun vec hmem => hm (m.source_of_mem env hmem)

end Record

/-! ### The condition -/

/-- The guard of the thread does not stand before a record of the agent's. -/
def GuardClear (w : World (memdb F) T (Option SaveErr)) (t : T) : Prop :=
  ∀ key k, w.threads t = .exec (.hget key "source") k → ¬ AgentAt w.shared key

/-- If the thread is about to write a record of the agent's, no other thread is about to write an auto
record to the key. -/
def WriteClear (w : World (memdb F) T (Option SaveErr)) (t : T) : Prop :=
  ∀ key fields k, w.threads t = .exec (.hset key fields) k → ("source", .text "agent") ∈ fields →
    ∀ t' fields' k', t' ≠ t → w.threads t' = .exec (.hset key fields') k' →
      ("source", .text "auto") ∉ fields'

/-- **The condition on a run**: no guard read fails over a record of the agent's, and no agent's save
writes a key between the guard and the write of an auto save. -/
def Unhurried (w : World (memdb F) T (Option SaveErr)) : Move T (Job F) → Prop
  | .start _ _ => True
  | .ok t => WriteClear w t
  | .lost t => GuardClear w t ∧ WriteClear w t
  | .fail t => GuardClear w t

/-! ### The invariant -/

/-- **A poised thread**: it is idle, at the guard of an auto save, or about to write a memory; and an auto
memory is about to be written only where there is no record of the agent's. -/
inductive Poised (K : Keyspace) (s : Server F) : Prog (memdb F) (Option SaveErr) → Prop
  | idle (l : Option SaveErr) : Poised K s (.ret l)
  | guard (env : Env F) (m : Record) (hm : m.source = "auto") : Poised K s (m.save env K)
  | write (env : Env F) (m : Record) (vec : List F)
      (hclear : m.source = "auto" → ¬ AgentAt s (m.key K)) :
      Poised K s (writeProg (m.key K) (m.fields env vec))

/-- A poised thread with a command to issue is at its guard or at its write. -/
theorem Poised.exec_cases {K : Keyspace} {s : Server F} {p : Prog (memdb F) (Option SaveErr)}
    (h : Poised K s p) {c : Cmd F} {k : Option c.Reply → Prog (memdb F) (Option SaveErr)}
    (hp : p = .exec c k) :
    (∃ (env : Env F) (m : Record), m.source = "auto" ∧ (Prog.exec c k : Prog (memdb F) (Option SaveErr))
      = .exec (.hget (m.key K) "source") fun r =>
        if readText r.join = "agent" then .ret none
        else embedAndWrite env (m.key K) m.text (m.fields env)) ∨
    ∃ (env : Env F) (m : Record) (vec : List F), (m.source = "auto" → ¬ AgentAt s (m.key K)) ∧
      (Prog.exec c k : Prog (memdb F) (Option SaveErr)) = writeProg (m.key K) (m.fields env vec) := by
  cases h with
  | idle l => exact absurd hp (by simp)
  | guard env m hm => exact .inl ⟨env, m, hm, hp ▸ m.save_of_auto env K hm⟩
  | write env m vec hclear => exact .inr ⟨env, m, vec, hclear, hp.symm⟩

/-- What follows the guard is poised. -/
theorem Poised.embedAndWrite {K : Keyspace} {s : Server F} (env : Env F) (m : Record)
    (hclear : m.source = "auto" → ¬ AgentAt s (m.key K)) :
    Poised K s (embedAndWrite env (m.key K) m.text (m.fields env)) := by
  rw [embedAndWrite_eq]
  cases env.embed m.text with
  | none => exact .idle _
  | some vec => exact .write env m vec hclear

/-- The record a write leaves is the agent's only if an agent's save wrote it, or it was. -/
theorem agentAt_hset {K : Keyspace} {s : Server F} {env : Env F} {m : Record} {vec : List F}
    {key : String} (h : AgentAt ((Cmd.hset (m.key K) (m.fields env vec)).apply s).2 key) :
    AgentAt s key ∨ key = m.key K ∧ m.source = "agent" := by
  by_cases hs : s.hashAt (m.key K) = none
  · left
    simpa [Cmd.apply, hs] using h
  · obtain ⟨old, hold⟩ := Option.ne_none_iff_exists'.mp hs
    have happly : ((Cmd.hset (m.key K) (m.fields env vec)).apply s).2
        = s.putHash (m.key K) (hsetFields old (m.fields env vec)) := by
      simp [Cmd.apply, hold]
    rw [happly] at h
    obtain ⟨g, hg, hsrc⟩ := h
    by_cases hkey : key = m.key K
    · subst hkey
      rw [s.hashAt_putHash_self, Option.some.injEq] at hg
      rw [← hg, m.text_source_written env vec old] at hsrc
      exact .inr ⟨rfl, hsrc⟩
    · rw [s.hashAt_putHash_ne _ hkey] at hg
      exact .inl ⟨g, hg, hsrc⟩

/-- A guard that was answered and went on did not see a record of the agent's. -/
theorem not_agentAt_of_readText {s : Server F} {key : String}
    (h : readText (some ((s.hashAt key).map fun g => g "source")).join ≠ "agent") :
    ¬ AgentAt s key := by
  rintro ⟨g, hg, hsrc⟩
  refine h ?_
  rw [hg, Option.map_some, Option.join_some, readText_some]
  exact hsrc

variable [DecidableEq T] (K : Keyspace)

/-- The interleavings of saves. -/
abbrev saves (F T : Type) [DecidableEq T] : Machine (World (memdb F) T (Option SaveErr))
    (Move T (Job F)) := World.machine (memdb F) T (Job.prog K)

/-- Unhurried moves keep every thread poised. -/
theorem poised_keeps : World.Keeps (T := T) (Job.prog K) Unhurried
    (fun _ p (w : World (memdb F) T (Option SaveErr)) => Poised K w.shared p) where
  start w t j l hw _ ht := by
    change Poised K w.shared (j.m.save j.env K)
    by_cases hm : j.m.source = "auto"
    · exact .guard j.env j.m hm
    · rw [j.m.save_of_not_auto j.env K hm]
      exact .embedAndWrite j.env j.m fun h => absurd h hm
  answer w t c k hw hok ht := by
    have hp := hw t
    rcases hp.exec_cases ht with ⟨env, m, hm, heq⟩ | ⟨env, m, vec, hclear, heq⟩
    · cases heq
      -- the guard's read does not change the server
      change Poised K w.shared (if readText _ = "agent" then _ else _)
      split_ifs with hagent
      · exact .idle _
      · exact .embedAndWrite env m fun _ => not_agentAt_of_readText hagent
    · cases heq
      exact .idle _
  lose w t c k hw hok ht := by
    have hp := hw t
    rcases hp.exec_cases ht with ⟨env, m, hm, heq⟩ | ⟨env, m, vec, hclear, heq⟩
    · cases heq
      -- the guard goes on as if there were no record
      exact .embedAndWrite env m fun _ => hok.1 _ _ ht
    · cases heq
      exact .idle _
  drop w t c k hw hok ht := by
    have hp := hw t
    rcases hp.exec_cases ht with ⟨env, m, hm, heq⟩ | ⟨env, m, vec, hclear, heq⟩
    · cases heq
      exact .embedAndWrite env m fun _ => hok _ _ ht
    · cases heq
      exact .idle _
  begin_ne _ _ _ _ _ h := h
  answer_ne w t t' c k p hw hok ht hne := by
    have hwrite : WriteClear w t := hok.elim id fun h => h.2
    have hp := hw t'
    generalize hq : w.threads t' = q at hp ⊢
    cases hp with
    | idle l => exact .idle l
    | guard env m hm => exact .guard env m hm
    | write env m vec hclear =>
      refine .write env m vec fun hm hagent => ?_
      rcases (hw t).exec_cases ht with ⟨env', m', hm', heq⟩ | ⟨env', m', vec', hclear', heq⟩
      · cases heq
        exact hclear hm hagent
      · cases heq
        rcases agentAt_hset hagent with hold | ⟨hkey, hsrc⟩
        · exact hclear hm hold
        · -- the mover writes a record of the agent's where this thread is about to write
          have hauto := m.source_mem env vec
          rw [hm] at hauto
          have hsource := m'.source_mem env' vec'
          rw [hsrc] at hsource
          refine hwrite _ _ _ ht hsource t' (m.fields env vec) (fun r => .ret (errOf r.join)) hne ?_
            hauto
          rw [hq, ← hkey]
          rfl
  drop_ne _ _ _ _ _ h := h

/-! ### The run -/

/-- A command of an auto save that met a record of the agent's left it as it was. -/
def SparesAgent (d : Done (memdb F) T) : Prop :=
  AutoCmd d.cmd → ∀ key h, d.before.hashAt key = some h → h.text "source" = "agent" →
    (Cmd.apply d.cmd d.before).2.hashAt key = some h

omit [DecidableEq T] in
/-- The next command of a poised thread spares the agent's records. -/
theorem Poised.spares {s : Server F} {p : Prog (memdb F) (Option SaveErr)} (hp : Poised K s p)
    {c : Cmd F} {k : Option c.Reply → Prog (memdb F) (Option SaveErr)} (hc : p = .exec c k) (t : T) :
    SparesAgent (⟨t, c, s⟩ : Done (memdb F) T) := by
  intro hauto key h hh hsrc
  rcases hp.exec_cases hc with ⟨env, m, hm, heq⟩ | ⟨env, m, vec, hclear, heq⟩
  · cases heq
    exact hh
  · cases heq
    have hm : m.source = "auto" := m.source_of_mem env hauto
    have hne : key ≠ m.key K := fun hkey => hclear hm ⟨h, hkey ▸ hh, hsrc⟩
    cases hold : s.hashAt (m.key K) with
    | none => simpa [Cmd.apply, hold] using hh
    | some old =>
      simp only [Cmd.apply, hold]
      rw [s.hashAt_putHash_ne _ hne]
      exact hh

/-- **Auto saves spare the agent's records** in every unhurried interleaving of saves of any number of
threads on one server: no command of an auto save changes a record of the agent's. -/
theorem agent_kept (s : Server F) (l : T → Option SaveErr)
    {w : World (memdb F) T (Option SaveErr)} {ms : List (Move T (Job F))}
    (hok : (saves K F T).Along Unhurried (World.idle s l) ms)
    (hrun : (saves K F T).exec (World.idle s l) ms = some w) : ∀ d ∈ w.log, SparesAgent d := by
  have hkeep := poised_keeps (F := F) (T := T) K
  refine (Machine.invariant (M := saves K F T)
    (I := fun w => (∀ t, Poised K w.shared (w.threads t)) ∧ ∀ d ∈ w.log, SparesAgent d)
    (fun w m w' hI hm hs => ⟨hkeep.step hI.1 hm hs, ?_⟩) ⟨fun t => .idle (l t), ?_⟩ hok hrun).2
  · rcases World.step_cases hs with ⟨t, j, l, -, -, rfl⟩ | ⟨t, c, k, -, ht, rfl⟩ |
      ⟨t, c, k, -, ht, rfl⟩ | ⟨t, c, k, -, -, rfl⟩
    · exact hI.2
    · exact List.forall_mem_append.mpr
        ⟨hI.2, List.forall_mem_singleton.mpr ((hI.1 t).spares K ht t)⟩
    · exact List.forall_mem_append.mpr
        ⟨hI.2, List.forall_mem_singleton.mpr ((hI.1 t).spares K ht t)⟩
    · exact hI.2
  · exact fun d hd => absurd hd List.not_mem_nil

/-- One thread none of whose commands fails is unhurried. -/
theorem unhurried_alone [Subsingleton T] {ms : List (Move T (Job F))}
    (h : ∀ t, Move.fail t ∉ ms ∧ Move.lost t ∉ ms) (w : World (memdb F) T (Option SaveErr)) :
    (saves K F T).Along Unhurried w ms := by
  refine Machine.Along.of_forall_mem (fun m hm w => ?_) w
  cases m with
  | start t j => trivial
  | ok t => exact fun _ _ _ _ _ t' _ _ hne => absurd (Subsingleton.elim t' t) hne
  | lost t => exact absurd hm (h t).2
  | fail t => exact absurd hm (h t).1

/-- A file memory of the path `a.go`. -/
def goFile (source purpose : String) : Job ℕ where
  env := .still
  m := .file { fileAt "a.go" with source, purpose }

/-- The save of auto-population. -/
def populate : Job ℕ := goFile "auto" "(not yet explored by agent)"

/-- What the key of `a.go` holds. -/
def purposeOf (w : World (memdb ℕ) T (Option SaveErr)) : Option String :=
  (w.shared.hashAt (fileKey .mem "r" "a.go")).map (·.text "purpose")

/-- Threads on a fresh server. -/
def fresh (T : Type) : World (memdb ℕ) T (Option SaveErr) := .idle (Server.empty ℕ) fun _ => none

/-- An auto save after an agent's save writes nothing. -/
theorem agent_kept_second :
    let ms : List (Move Unit (Job ℕ)) :=
      [.start () (goFile "agent" "entry point"), .ok (), .start () populate, .ok ()]
    ∃ w, (saves .mem ℕ Unit).exec (fresh Unit) ms = some w ∧ w.log.length = 2 ∧
      ∀ d ∈ w.log, SparesAgent d := by
  intro ms
  obtain ⟨w, hw⟩ : ∃ w, (saves .mem ℕ Unit).exec (fresh Unit) ms = some w := ⟨_, rfl⟩
  refine ⟨w, hw, ?_, agent_kept .mem (Server.empty ℕ) (fun _ => none)
    (unhurried_alone .mem (fun t => ?_) _) hw⟩
  · obtain rfl := Option.some.inj hw
    decide +kernel
  · simp [ms]

/-- **The agent's record is overwritten** by an auto save that was between its guard and its write when
the agent saved, and by one whose guard read failed. -/
theorem populate_overwrites_agent :
    let race : List (Move Bool (Job ℕ)) :=
      [.start false populate, .ok false, .start true (goFile "agent" "entry point"), .ok true]
    let failure : List (Move Bool (Job ℕ)) :=
      [.start true (goFile "agent" "entry point"), .ok true, .start false populate, .fail false]
    (((saves .mem ℕ Bool).exec (fresh Bool) race).map purposeOf = some (some "entry point") ∧
      ((saves .mem ℕ Bool).exec (fresh Bool) (race ++ [.ok false])).map purposeOf
        = some (some "(not yet explored by agent)")) ∧
    ((saves .mem ℕ Bool).exec (fresh Bool) failure).map purposeOf = some (some "entry point") ∧
      ((saves .mem ℕ Bool).exec (fresh Bool) (failure ++ [.ok false])).map purposeOf
        = some (some "(not yet explored by agent)") := by
  decide +kernel

end Devrouter.Memory
