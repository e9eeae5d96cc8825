import Devrouter.Memory.Lineage
import Devrouter.Memory.Resave

/-!
# What a save has written

A save that returns no error has embedded its text and written its fields over the hash at its key, unless it is an
auto save, which may stop at a record of the agent's. `embedAndWrite_ok` says so, and `text_hsetFields` what such a
field then reads as.
-/

open Prog

namespace Devrouter.Memory

variable {F : Type}

section Fields

variable {fields : List (String × Value F)} {name value : String}

/-- A field that is set to a text reads as it. -/
theorem text_hsetFields (hnodup : (fields.map Prod.fst).Nodup) (hmem : (name, .text value) ∈ fields) (h : Hash F) :
    (hsetFields h fields).text name = value := by
  have hfield : hsetFields h fields name = some (.text value) := hsetFields_of_mem hnodup hmem h
  unfold Hash.text
  rw [hfield]
  rfl

theorem text_hsetFields_of_notMem (hname : name ∉ fields.map Prod.fst) (h : Hash F) :
    (hsetFields h fields).text name = h.text name := by
  unfold Hash.text
  rw [hsetFields_of_notMem hname]

/-- The fields that are there after a write. -/
theorem hsetFields_ne_none_iff (h : Hash F) :
    hsetFields h fields name ≠ none ↔ name ∈ fields.map Prod.fst ∨ h name ≠ none := by
  induction fields generalizing h with
  | nil => simp [hsetFields]
  | cons p fields ih =>
    have hstep : hsetFields h (p :: fields) = hsetFields (Function.update h p.1 (some p.2)) fields := rfl
    rw [hstep, ih, List.map_cons, List.mem_cons]
    by_cases hp : name = p.1
    · subst hp
      simp
    · rw [Function.update_of_ne hp]
      simp [hp]

end Fields

theorem DecisionMemory.fields_nodup (env : Env F) (m : DecisionMemory) (vec : List F) :
    ((m.fields env vec).map Prod.fst).Nodup := by
  change List.Nodup ["mem_type", "repo", "decision_type", "name", "decision", "rationale", "alternatives",
    "constraint", "scope", "files", "status", "supersedes", "superseded_by", "source", "updated_at", "embedding"]
  decide

/-- **A write without an error.** -/
theorem embedAndWrite_ok {env : Env F} {key text : String} {fields : List F → List (String × Value F)} {s : Server F}
    (hok : ((embedAndWrite env key text fields).run s).1 = none) :
    ∃ h vec, s.hashAt key = some h ∧ env.embed text = some vec ∧
      ((embedAndWrite env key text fields).run s).2 = s.putHash key (hsetFields h (fields vec)) := by
  unfold embedAndWrite at hok ⊢
  cases hembed : env.embed text with
  | none =>
    rw [hembed] at hok
    exact absurd hok (by simp)
  | some vec =>
    rw [hembed] at hok
    dsimp only at hok ⊢
    rw [run_map, Mdb.hset_run] at hok ⊢
    cases hh : s.hashAt key with
    | none =>
      rw [hh] at hok
      exact absurd hok (by simp [errOf])
    | some h => exact ⟨h, vec, rfl, rfl, rfl⟩

end Devrouter.Memory
