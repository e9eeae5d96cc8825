import Mathlib.Data.List.Nodup
import Devrouter.Memory.Keys

/-!
# Saving a memory again

A save writes with `HSET`, which keeps the fields it does not name. Most fields of a memory are always
named (`Record.base`); `git_hash`, `query_id` and `subgraph_json` are named only when they are not empty
(`Record.optionals`), so an older record can show through there.

`resave_iff` says when a second save leaves the record that it would have left without the first:
`Replaces`, a condition on the two memories and on the record they met. It is the comparison of
`hset_hset_eq_iff`, a fact about two writes over one hash, taken at the fields of the memories.
-/

open Prog

namespace Devrouter.Memory

variable {F : Type}

/-! ### Two writes over one hash -/

/-- A write whose values are all there already changes nothing, and only such a write. -/
theorem hsetFields_eq_self_iff {fields : List (String × Value F)}
    (hnodup : (fields.map Prod.fst).Nodup) (h : Hash F) :
    hsetFields h fields = h ↔ ∀ p ∈ fields, h p.1 = some p.2 := by
  constructor
  · intro heq p hp
    rw [← hsetFields_of_mem hnodup hp h, heq]
  · intro hall
    ext1 f
    by_cases hf : f ∈ fields.map Prod.fst
    · obtain ⟨p, hp, rfl⟩ := List.mem_map.mp hf
      rw [hsetFields_of_mem hnodup hp h, hall p hp]
    · exact hsetFields_of_notMem hf h

/-- **What shows through.** A first write leaves no trace under a second one when every field it sets is
set by the second, or had its value before. -/
theorem hset_hset_eq_iff {fs₁ fs₂ : List (String × Value F)} (hnodup : (fs₁.map Prod.fst).Nodup)
    (h : Hash F) :
    hsetFields (hsetFields h fs₁) fs₂ = hsetFields h fs₂ ↔
      ∀ p ∈ fs₁, p.1 ∈ fs₂.map Prod.fst ∨ h p.1 = some p.2 := by
  constructor
  · intro heq p hp
    by_cases hset : p.1 ∈ fs₂.map Prod.fst
    · exact .inl hset
    · -- a field that the second write leaves alone keeps what the first one wrote
      right
      have hp1 := congrFun heq p.1
      rw [hsetFields_of_notMem hset, hsetFields_of_notMem hset, hsetFields_of_mem hnodup hp] at hp1
      exact hp1.symm
  · intro hall
    ext1 f
    by_cases hset : f ∈ fs₂.map Prod.fst
    · exact hsetFields_congr hset _ _
    · rw [hsetFields_of_notMem hset, hsetFields_of_notMem hset]
      -- nor does the second write touch it; it is what the first wrote, or what was there
      by_cases hf : f ∈ fs₁.map Prod.fst
      · obtain ⟨p, hp, rfl⟩ := List.mem_map.mp hf
        rw [hsetFields_of_mem hnodup hp h, (hall p hp).resolve_left hset]
      · exact hsetFields_of_notMem hf h

/-! ### The fields of a memory -/

namespace Record

variable (env : Env F)

/-- The fields that are written only when they are not empty. -/
def optionals : Record → List (String × Value F)
  | .file m => optional "git_hash" (m.gitHash env)
  | .func m => optional "git_hash" (m.gitHash env)
  | .flow m => optional "query_id" m.queryID ++ optional "subgraph_json" m.subgraphJSON

/-- The names of the fields that are always written. -/
def base : Record → List String
  | .file _ =>
    ["mem_type", "repo", "path", "purpose", "key_symbols", "source", "scope", "updated_at",
      "embedding"]
  | .func _ =>
    ["mem_type", "repo", "name", "qualified_name", "file", "purpose", "callers", "callees", "source",
      "scope", "updated_at", "embedding"]
  | .flow _ =>
    ["mem_type", "repo", "name", "purpose", "files", "entry_points", "source", "scope",
      "updated_at", "embedding"]

theorem optional_names (name value : String) :
    (optional name value : List (String × Value F)).map Prod.fst
      = if value = "" then [] else [name] := by
  unfold optional
  split_ifs
  · rfl
  · rfl

/-- A memory's fields: those of its kind and the optional ones. -/
theorem names_eq (m : Record) (vec : List F) :
    (m.fields env vec).map Prod.fst = m.base ++ (m.optionals env).map Prod.fst := by
  cases m with
  | file m => exact List.map_append
  | func m => exact List.map_append
  | flow m =>
    change (_ ++ _ ++ _ : List (String × Value F)).map Prod.fst = _
    rw [List.append_assoc, List.map_append]
    rfl

theorem names_nodup (m : Record) (vec : List F) : ((m.fields env vec).map Prod.fst).Nodup := by
  rw [names_eq]
  cases m with
  | file m =>
    simp only [base, optionals, optional_names]
    split_ifs <;> decide
  | func m =>
    simp only [base, optionals, optional_names]
    split_ifs <;> decide
  | flow m =>
    simp only [base, optionals, List.map_append, optional_names]
    split_ifs <;> decide

theorem optionals_subset (m : Record) (vec : List F) : m.optionals env ⊆ m.fields env vec := by
  cases m with
  | file m => exact List.subset_append_right _ _
  | func m => exact List.subset_append_right _ _
  | flow m =>
    change optional "query_id" m.queryID ++ optional "subgraph_json" m.subgraphJSON
      ⊆ (_ ++ optional "query_id" m.queryID) ++ optional "subgraph_json" m.subgraphJSON
    rw [List.append_assoc]
    exact List.subset_append_right _ _

/-- A field of a memory is one of its kind's, or optional. -/
theorem mem_fields {m : Record} {vec : List F} {p : String × Value F} (hp : p ∈ m.fields env vec) :
    p.1 ∈ m.base ∨ p ∈ m.optionals env := by
  cases m with
  | file m => exact (List.mem_append.mp hp).imp_left fun h => List.mem_map_of_mem (f := Prod.fst) h
  | func m => exact (List.mem_append.mp hp).imp_left fun h => List.mem_map_of_mem (f := Prod.fst) h
  | flow m =>
    have hp' : p ∈ (_ ++ optional "query_id" m.queryID) ++ optional "subgraph_json" m.subgraphJSON := hp
    rw [List.append_assoc] at hp'
    exact (List.mem_append.mp hp').imp_left fun h => List.mem_map_of_mem (f := Prod.fst) h

/-- The source is written as a text. -/
theorem source_mem (m : Record) (vec : List F) : ("source", .text m.source) ∈ m.fields env vec := by
  cases m with
  | file m => simp [fields, FileMemory.fields, source]
  | func m => simp [fields, FuncMemory.fields, source]
  | flow m => simp [fields, FlowMemory.fields, source]

theorem text_source_written (m : Record) (vec : List F) (h : Hash F) :
    (hsetFields h (m.fields env vec)).text "source" = m.source := by
  unfold Hash.text
  rw [hsetFields_of_mem (m.names_nodup env vec) (m.source_mem env vec) h]
  rfl

/-- Memories with one key are of one kind. -/
theorem base_of_key {K : Keyspace} {m₁ m₂ : Record} (hkey : m₁.key K = m₂.key K) :
    m₁.base = m₂.base := by
  have hsave : (Save.record m₁).key K = (Save.record m₂).key K := hkey
  rw [Save.key_eq, Save.key_eq] at hsave
  have hkind := (Ident.key_inj.mp hsave).2.1
  cases m₁ <;> cases m₂ <;> first
    | rfl
    | exact absurd hkind (by simp [Save.ident, Ident.kind])

/-! ### When a save writes -/

/-- The save writes nothing over a record of the source `src`: it is an auto save of an agent's record,
or the embedding fails. -/
def StoppedBy (m : Record) (src : String) : Prop :=
  m.source = "auto" ∧ src = "agent" ∨ env.embed m.text = none

theorem writes_of_stopped {m : Record} {h : Hash F} (hstop : m.StoppedBy env (h.text "source")) :
    m.writes env h = none := by
  unfold writes saveWrites
  rcases hstop with hguard | hembed
  · rw [if_pos hguard]
  · rw [hembed]
    split_ifs
    · rfl
    · rfl

theorem writes_of_not_stopped {m : Record} {h : Hash F}
    (hgo : ¬ m.StoppedBy env (h.text "source")) :
    ∃ vec, env.embed m.text = some vec ∧ m.writes env h = some (m.fields env vec) := by
  obtain ⟨hguard, hembed⟩ := not_or.mp hgo
  obtain ⟨vec, hvec⟩ := Option.ne_none_iff_exists'.mp hembed
  refine ⟨vec, hvec, ?_⟩
  unfold writes saveWrites
  rw [if_neg hguard, hvec]
  rfl

end Record

/-! ### The second save -/

/-- **When the second save replaces the whole record** `h`: the first save wrote nothing; or the second
one writes, with and without the first, and the optional fields the first sets are set by the second or
had their values before; or the second one writes nothing, with and without the first, and the first
rewrote what was there. -/
def Replaces (env₁ env₂ : Env F) (m₁ m₂ : Record) (h : Hash F) : Prop :=
  m₁.StoppedBy env₁ (h.text "source") ∨
  (¬ m₂.StoppedBy env₂ m₁.source ∧ ¬ m₂.StoppedBy env₂ (h.text "source") ∧
    ∀ p ∈ m₁.optionals env₁, p.1 ∈ (m₂.optionals env₂).map Prod.fst ∨ h p.1 = some p.2) ∨
  (m₂.StoppedBy env₂ m₁.source ∧ m₂.StoppedBy env₂ (h.text "source") ∧
    ∀ vec, env₁.embed m₁.text = some vec → ∀ p ∈ m₁.fields env₁ vec, h p.1 = some p.2)

/-- The optional fields decide what shows through: the other fields of the two memories have the same
names. -/
theorem resave_fields_iff {env₁ env₂ : Env F} {m₁ m₂ : Record} (hbase : m₁.base = m₂.base)
    (vec₁ vec₂ : List F) (h : Hash F) :
    hsetFields (hsetFields h (m₁.fields env₁ vec₁)) (m₂.fields env₂ vec₂)
        = hsetFields h (m₂.fields env₂ vec₂) ↔
      ∀ p ∈ m₁.optionals env₁, p.1 ∈ (m₂.optionals env₂).map Prod.fst ∨ h p.1 = some p.2 := by
  have hnodup := m₁.names_nodup env₁ vec₁
  rw [hset_hset_eq_iff hnodup]
  constructor
  · intro hall p hp
    refine (hall p (m₁.optionals_subset env₁ vec₁ hp)).imp_left fun hmem => ?_
    -- an optional name of the first is none of its kind's names, which are the second's too
    rw [m₂.names_eq] at hmem
    refine (List.mem_append.mp hmem).resolve_left fun hin => ?_
    rw [m₁.names_eq] at hnodup
    exact List.disjoint_of_nodup_append hnodup (hbase ▸ hin) (List.mem_map_of_mem (f := Prod.fst) hp)
  · intro hall p hp
    rw [m₂.names_eq, List.mem_append]
    rcases m₁.mem_fields env₁ hp with hin | hopt
    · exact .inl (.inl (hbase ▸ hin))
    · exact (hall p hopt).imp_left .inr

/-- When the guard decides differently, the two records have different sources. -/
theorem elim_ne_of_source {h h' : Hash F} (hne : h.text "source" ≠ h'.text "source") : h ≠ h' :=
  fun heq => hne (congrArg (Hash.text · "source") heq)

/-- The comparison over one hash. -/
theorem resave_hash_iff {env₁ env₂ : Env F} {m₁ m₂ : Record} (hbase : m₁.base = m₂.base)
    (h h₁ : Hash F) (hfirst : h₁ = (m₁.writes env₁ h).elim h (hsetFields h)) :
    (m₂.writes env₂ h₁).elim h₁ (hsetFields h₁) = (m₂.writes env₂ h).elim h (hsetFields h) ↔
      Replaces env₁ env₂ m₁ m₂ h := by
  by_cases hstop₁ : m₁.StoppedBy env₁ (h.text "source")
  · rw [m₁.writes_of_stopped env₁ hstop₁] at hfirst
    obtain rfl : h₁ = h := hfirst
    simp [Replaces, hstop₁]
  · obtain ⟨vec₁, hvec₁, hw₁⟩ := m₁.writes_of_not_stopped env₁ hstop₁
    rw [hw₁] at hfirst
    obtain rfl : h₁ = hsetFields h (m₁.fields env₁ vec₁) := hfirst
    have hsrc := m₁.text_source_written env₁ vec₁ h
    have hsrc₂ := fun vec₂ => m₂.text_source_written env₂ vec₂
    unfold Replaces
    -- what the guard decides about the second save, after the first and without it
    by_cases hafter : m₂.StoppedBy env₂ m₁.source
    · rw [m₂.writes_of_stopped env₂ (by rw [hsrc]; exact hafter), Option.elim_none]
      by_cases halone : m₂.StoppedBy env₂ (h.text "source")
      · rw [m₂.writes_of_stopped env₂ halone, Option.elim_none,
          hsetFields_eq_self_iff (m₁.names_nodup env₁ vec₁)]
        simp [hstop₁, hafter, halone, hvec₁]
      · obtain ⟨vec₂, hvec₂, hw₂⟩ := m₂.writes_of_not_stopped env₂ halone
        have hguard := hafter.resolve_right (by simp [hvec₂])
        have hne : hsetFields h (m₁.fields env₁ vec₁) ≠ hsetFields h (m₂.fields env₂ vec₂) := by
          refine elim_ne_of_source ?_
          rw [hsrc, hsrc₂, hguard.1, hguard.2]
          decide
        simp [hw₂, hne, hstop₁, hafter, halone]
    · obtain ⟨vec₂, hvec₂, hw₂⟩ := m₂.writes_of_not_stopped env₂
        (h := hsetFields h (m₁.fields env₁ vec₁)) (by rw [hsrc]; exact hafter)
      rw [hw₂, Option.elim_some]
      by_cases halone : m₂.StoppedBy env₂ (h.text "source")
      · have hguard := halone.resolve_right (by simp [hvec₂])
        have hne : hsetFields (hsetFields h (m₁.fields env₁ vec₁)) (m₂.fields env₂ vec₂) ≠ h := by
          refine elim_ne_of_source ?_
          rw [hsrc₂, hguard.1, hguard.2]
          decide
        simp [m₂.writes_of_stopped env₂ halone, hne, hstop₁, hafter, halone]
      · obtain ⟨vec, hvec, hw⟩ := m₂.writes_of_not_stopped env₂ halone
        obtain rfl : vec = vec₂ := Option.some.inj (hvec.symm.trans hvec₂)
        rw [hw, Option.elim_some, resave_fields_iff hbase]
        simp [hstop₁, hafter, halone]

/-- **Saving twice.** After `Save(m₁)` and `Save(m₂)` the stored hash is the one `Save(m₂)` alone would
have left, exactly when `m₂` replaces the whole record. -/
theorem resave_iff (K : Keyspace) (env₁ env₂ : Env F) (m₁ m₂ : Record)
    (hkey : m₁.key K = m₂.key K) (s : Server F) :
    ((m₂.save env₂ K).run ((m₁.save env₁ K).run s).2).2.hashAt (m₂.key K)
        = ((m₂.save env₂ K).run s).2.hashAt (m₂.key K) ↔
      ∀ h, s.hashAt (m₂.key K) = some h → Replaces env₁ env₂ m₁ m₂ h := by
  have hfirst : ((m₁.save env₁ K).run s).2.hashAt (m₂.key K)
      = (s.hashAt (m₂.key K)).map fun h => (m₁.writes env₁ h).elim h (hsetFields h) := by
    rw [← hkey]
    exact m₁.save_hashAt env₁ K s
  rw [m₂.save_hashAt, m₂.save_hashAt, hfirst]
  cases s.hashAt (m₂.key K) with
  | none => simp
  | some h =>
    simp only [Option.map_some, Option.some.injEq, forall_eq']
    exact resave_hash_iff (Record.base_of_key hkey) h _ rfl

/-- A flow of the repo `r`, saved by the agent. -/
def flowAt (files subgraphJSON : String) : FlowMemory where
  repo := "r"
  name := "login"
  purpose := "how a login works"
  files := files
  entryPoints := ""
  source := "agent"
  scope := "global"
  queryID := ""
  subgraphJSON := subgraphJSON

/-- A flow without a snapshot is replaced whole. -/
theorem resave_iff_login :
    (((Record.flow (flowAt "b.go" "")).save Env.still .mem).run
        (((Record.flow (flowAt "a.go" "")).save .still .mem).run (Server.empty ℕ)).2).2.hashAt
        (flowKey .mem "r" "login")
      = (((Record.flow (flowAt "b.go" "")).save .still .mem).run (Server.empty ℕ)).2.hashAt
        (flowKey .mem "r" "login") := by
  refine (resave_iff .mem .still .still (.flow (flowAt "a.go" "")) (.flow (flowAt "b.go" "")) rfl
    (Server.empty ℕ)).mpr fun h _ => .inr (.inl ⟨?_, ?_, ?_⟩)
  · simp [Record.StoppedBy, Record.source, flowAt, sourceOr, Env.still]
  · simp [Record.StoppedBy, Record.source, flowAt, sourceOr, Env.still]
  · simp [Record.optionals, flowAt, optional]

/-- The call graph of the first save is stored with the second, which has none. -/
theorem subgraph_survives :
    (Record.flow (flowAt "a.go" "\x7b\x7d")).key .mem = (Record.flow (flowAt "b.go" "")).key .mem ∧
    ¬ (((Record.flow (flowAt "b.go" "")).save Env.still .mem).run
        (((Record.flow (flowAt "a.go" "\x7b\x7d")).save .still .mem).run
          (Server.empty ℕ)).2).2.hashAt (flowKey .mem "r" "login")
      = (((Record.flow (flowAt "b.go" "")).save .still .mem).run (Server.empty ℕ)).2.hashAt
        (flowKey .mem "r" "login") := by
  refine ⟨by decide, fun heq => ?_⟩
  have htext := congrArg (Option.map (Hash.text · "subgraph_json")) heq
  revert htext
  decide +kernel

end Devrouter.Memory
