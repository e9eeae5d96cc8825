import Devrouter.Lib.Lineage
import Devrouter.Lib.Machine
import Devrouter.Memory.Keys

/-!
# The lineage of decisions

Model of `SupersedeDecision` in `internal/memory/store.go` and of the two tools over it,
`SaveDecisionMemory` and `SupersedeDecision` in `internal/router/router.go`, with any of their commands
failing.

A decision is what the store finds under a name: the repo and the sanitised name (`DecisionId`). The
decisions of a server form a `Lineage` (`lineage`), and each call of a tool changes it in one of the
library's ways: a save makes a decision anew, a supersede links two of them, or half links them when its
last write fails (`save_lineage`, `supersede_lineage`). When the lineage stays sound along a run is then
read off the library (`lineage_sound_iff`).
-/

open Prog

namespace Devrouter.Memory

variable {F : Type}

/-! ### The tools -/

/-- The arguments of `decision_save`. `decisionScope` is not read. -/
structure DecisionArgs where
  repo : String
  name : String
  decisionType : String
  decision : String
  rationale : String
  alternatives : String
  constraint : String
  decisionScope : String
  files : String
  scope : String
  deriving DecidableEq, Repr

namespace DecisionArgs

/-- The required arguments are there. -/
def Complete (a : DecisionArgs) : Prop :=
  ¬ (a.repo = "" || a.name = "" || a.decisionType = "" || a.decision = "" || a.rationale = "")

instance (a : DecisionArgs) : Decidable a.Complete := inferInstanceAs (Decidable (¬ _))

/-- The decision that is saved. `scopeFor` is the scope git suggests for the repo and the files. -/
def memory (scopeFor : String → String → String) (a : DecisionArgs) : DecisionMemory where
  repo := a.repo
  name := a.name
  decisionType := a.decisionType
  decision := a.decision
  rationale := a.rationale
  alternatives := a.alternatives
  constraint := a.constraint
  -- a scope that is not given is computed from the files
  scope := if a.scope = "" then scopeFor a.repo a.files else a.scope
  files := a.files
  status := ""
  supersedes := ""
  supersededBy := ""

end DecisionArgs

/-- The errors of the two tools. -/
inductive DecisionErr where
  | required
  | save (e : SaveErr)
  | notFound (name : String)
  | markOld
  | redis
  deriving DecidableEq, Repr

/-- `SaveDecisionMemory`. -/
def saveDecisionMemory (env : Env F) (scopeFor : String → String → String) (K : Keyspace)
    (a : DecisionArgs) : Prog (memdb F) (Option DecisionErr) :=
  if a.Complete then Option.map .save <$> saveDecision env K (a.memory scopeFor)
  else return some .required

/-- The two writes of `SupersedeDecision`. -/
def linkDecisions (K : Keyspace) (repo oldName newName : String) :
    Prog (memdb F) (Option DecisionErr) := do
  match ← Mdb.hset (decisionKey K repo oldName)
    [("status", .text "superseded"), ("superseded_by", .text newName)] with
  | none => return some .markOld
  | some _ =>
    let r ← Mdb.hset (decisionKey K repo newName) [("supersedes", .text oldName)]
    return (errOf r).map fun _ => .redis

/-- `SupersedeDecision` of the store. -/
def supersedeStore (K : Keyspace) (repo oldName newName : String) :
    Prog (memdb F) (Option DecisionErr) := do
  -- an error counts as a missing decision
  let old ← Mdb.existsKey (decisionKey K repo oldName)
  if old.getD 0 = 0 then return some (.notFound oldName)
  else
    let new ← Mdb.existsKey (decisionKey K repo newName)
    if new.getD 0 = 0 then return some (.notFound newName)
    else linkDecisions K repo oldName newName

/-- `SupersedeDecision` of the router. -/
def supersedeDecision (K : Keyspace) (repo oldName newName : String) :
    Prog (memdb F) (Option DecisionErr) :=
  if repo = "" || oldName = "" || newName = "" then return some .required
  else supersedeStore K repo oldName newName

/-! ### Decisions as versions -/

theorem sanitizeRune_idem (r : Char) : sanitizeRune (sanitizeRune r) = sanitizeRune r := by
  unfold sanitizeRune
  split_ifs <;> rfl

theorem sanitizeKey_idem (s : String) : sanitizeKey (sanitizeKey s) = sanitizeKey s := by
  unfold sanitizeKey
  rw [String.toList_ofList, List.map_map]
  congr 1
  exact List.map_congr_left fun r _ => sanitizeRune_idem r

/-- What names a decision: its repo and its sanitised name. -/
structure DecisionId where
  repo : String
  slug : String
  clean : sanitizeKey slug = slug
  deriving DecidableEq

namespace DecisionId

/-- The decision the store finds under a name. -/
def of (repo name : String) : DecisionId := ⟨repo, sanitizeKey name, sanitizeKey_idem name⟩

def key (K : Keyspace) (d : DecisionId) : String := keyPrefix K ++ d.repo ++ ":decision:" ++ d.slug

@[simp] theorem key_of (K : Keyspace) (repo name : String) :
    (of repo name).key K = decisionKey K repo name := rfl

theorem key_inj {K : Keyspace} {d e : DecisionId} : d.key K = e.key K ↔ d = e := by
  have hkey : ∀ d : DecisionId, d.key K = (Ident.decision d.slug).key K d.repo := by
    intro d
    simp [key, Ident.key, decisionKey, d.clean]
  rw [hkey, hkey, Ident.key_inj]
  simp only [Ident.kind, Ident.text, d.clean, e.clean, true_and]
  constructor
  · rintro ⟨hrepo, hslug⟩
    cases d
    cases e
    cases hrepo
    cases hslug
    rfl
  · rintro rfl
    exact ⟨rfl, rfl⟩

end DecisionId

/-- The decision a link field names; none when the field is empty. -/
def linkOf (repo name : String) : Option DecisionId := if name = "" then none else some (.of repo name)

/-- A decision's hash as a version. -/
def versionOf (repo : String) (h : Hash F) : Version DecisionId where
  retired := decide (h.text "status" = "superseded")
  next := linkOf repo (h.text "superseded_by")
  prev := linkOf repo (h.text "supersedes")

/-- The decisions of the server. -/
def lineage (K : Keyspace) (s : Server F) : Lineage DecisionId := fun d =>
  match s.keys.lookup (d.key K) with
  | some (.hash h) => some (versionOf d.repo h)
  | _ => none

/-- The decisions are hashes, and active or superseded. -/
def Kept (K : Keyspace) (s : Server F) : Prop :=
  ∀ d e, s.keys.lookup (DecisionId.key K d) = some e →
    ∃ h, e = .hash h ∧ (h.text "status" = "active" ∨ h.text "status" = "superseded")

/-- **Sound decisions**: a consistent lineage, whose versions are the active and the superseded
decisions. -/
structure Sound (K : Keyspace) (s : Server F) : Prop where
  kept : Kept K s
  consistent : (lineage K s).Consistent

theorem Sound.empty (K : Keyspace) : Sound K (Server.empty F) where
  kept _ _ h := nomatch h
  consistent := Lineage.Consistent.empty

variable {K : Keyspace} {s : Server F}

/-- There are finitely many decisions. -/
theorem support_finite (K : Keyspace) (s : Server F) : (lineage K s).support.Finite := by
  have hkeys : {k | k ∈ s.keys.keys}.Finite := List.finite_toSet _
  have hinj : Function.Injective (DecisionId.key K) := fun _ _ h => DecisionId.key_inj.mp h
  refine (hkeys.preimage hinj.injOn).subset fun d hd => ?_
  change d.key K ∈ s.keys.keys
  rw [← AList.mem_keys, ← AList.lookup_isSome]
  by_contra hnone
  rw [Bool.not_eq_true, Option.isSome_eq_false_iff, Option.isNone_iff_eq_none] at hnone
  refine hd ?_
  unfold lineage
  rw [hnone]

/-- A decision that exists is a version. -/
theorem Kept.mem_support (hs : Kept K s) {d : DecisionId}
    (hd : (s.keys.lookup (d.key K)).isSome = true) : d ∈ (lineage K s).support := by
  obtain ⟨e, he⟩ := Option.isSome_iff_exists.mp hd
  obtain ⟨h, rfl, -⟩ := hs d e he
  unfold Lineage.support lineage
  simp [he]

/-- The key of a decision can be read and written as a hash. -/
theorem Kept.hashAt (hs : Kept K s) (repo name : String) :
    ∃ h, s.hashAt (decisionKey K repo name) = some h ∧
      ((s.keys.lookup (decisionKey K repo name)).isSome = true →
        s.keys.lookup (decisionKey K repo name) = some (.hash h)) := by
  unfold Server.hashAt
  cases hd : s.keys.lookup (decisionKey K repo name) with
  | none => exact ⟨_, rfl, fun h => nomatch h⟩
  | some e =>
    obtain ⟨h, rfl, -⟩ := hs (.of repo name) e hd
    exact ⟨h, rfl, fun _ => rfl⟩

/-- Writing the hash of one decision. -/
theorem lineage_putHash (d : DecisionId) (h : Hash F) :
    lineage K (s.putHash (d.key K) h)
      = Function.update (lineage K s) d (some (versionOf d.repo h)) := by
  ext1 e
  unfold lineage
  by_cases he : e = d
  · subst he
    rw [Function.update_self, Server.lookup_putHash_self]
  · rw [Function.update_of_ne he, s.lookup_putHash_ne h fun hkey => he (DecisionId.key_inj.mp hkey)]

theorem Kept.putHash (hs : Kept K s) {d : DecisionId} {h : Hash F}
    (hstatus : h.text "status" = "active" ∨ h.text "status" = "superseded") :
    Kept K (s.putHash (d.key K) h) := by
  intro e v hv
  by_cases he : e = d
  · subst he
    rw [Server.lookup_putHash_self] at hv
    exact ⟨h, (Option.some.inj hv).symm, hstatus⟩
  · rw [s.lookup_putHash_ne h fun hkey => he (DecisionId.key_inj.mp hkey)] at hv
    exact hs e v hv

/-! ### What a call does to the lineage -/

/-- The tools. -/
inductive Tool (F : Type) where
  | save (env : Env F) (a : DecisionArgs)
  | supersede (repo oldName newName : String)

/-- A call of a tool, with the commands that fail in it. -/
structure ToolCall (F : Type) where
  tool : Tool F
  fails : ℕ → Bool

/-- The save comes to write, and its write does not fail. -/
def Saves (scopeFor : String → String → String) (env : Env F) (a : DecisionArgs)
    (fails : ℕ → Bool) : Prop :=
  a.Complete ∧ env.embed (a.memory scopeFor).text ≠ none ∧ fails 0 = false

/-- The supersede comes to mark the old decision, and that write does not fail. -/
def Marks (K : Keyspace) (s : Server F) (repo oldName newName : String) (fails : ℕ → Bool) : Prop :=
  ¬ (repo = "" || oldName = "" || newName = "") ∧
    (s.keys.lookup (decisionKey K repo oldName)).isSome = true ∧
    (s.keys.lookup (decisionKey K repo newName)).isSome = true ∧
    fails 0 = false ∧ fails 1 = false ∧ fails 2 = false

instance (scopeFor : String → String → String) (env : Env F) (a : DecisionArgs)
    (fails : ℕ → Bool) : Decidable (Saves scopeFor env a fails) :=
  haveI : Decidable (env.embed (a.memory scopeFor).text ≠ none) :=
    decidable_of_iff _ Option.isSome_iff_ne_none
  inferInstanceAs (Decidable (_ ∧ _ ∧ _))

instance (K : Keyspace) (s : Server F) (repo oldName newName : String) (fails : ℕ → Bool) :
    Decidable (Marks K s repo oldName newName fails) :=
  inferInstanceAs (Decidable (_ ∧ _))

/-- The fields of a save, as a version: active, without links. -/
theorem versionOf_saved (scopeFor : String → String → String) (env : Env F) (a : DecisionArgs)
    (vec : List F) (h : Hash F) :
    (hsetFields h ((a.memory scopeFor).fields env vec)).text "status" = "active" ∧
      versionOf a.repo (hsetFields h ((a.memory scopeFor).fields env vec)) = ⟨false, none, none⟩ := by
  -- no field is written twice, so each one holds what was saved
  have hnodup : (((a.memory scopeFor).fields env vec).map Prod.fst).Nodup := by
    change List.Nodup ["mem_type", "repo", "decision_type", "name", "decision", "rationale",
      "alternatives", "constraint", "scope", "files", "status", "supersedes", "superseded_by",
      "source", "updated_at", "embedding"]
    decide
  have hfield : ∀ p ∈ (a.memory scopeFor).fields env vec,
      hsetFields h ((a.memory scopeFor).fields env vec) p.1 = some p.2 :=
    fun p hp => hsetFields_of_mem hnodup hp h
  have hstatus := hfield ("status", .text "active") (by simp [DecisionMemory.fields, DecisionArgs.memory])
  have hnext := hfield ("superseded_by", .text "")
    (by simp [DecisionMemory.fields, DecisionArgs.memory])
  have hprev := hfield ("supersedes", .text "") (by simp [DecisionMemory.fields, DecisionArgs.memory])
  dsimp only at hstatus hnext hprev
  unfold versionOf Hash.text
  rw [hstatus, hnext, hprev]
  exact ⟨rfl, rfl⟩

/-- **A save** makes its decision anew, or does nothing. -/
theorem save_lineage (scopeFor : String → String → String) (env : Env F) (a : DecisionArgs)
    (fails : ℕ → Bool) (hs : Kept K s) :
    Kept K ((saveDecisionMemory env scopeFor K a).runFaults fails s).2 ∧
      lineage K ((saveDecisionMemory env scopeFor K a).runFaults fails s).2
        = if Saves scopeFor env a fails then (lineage K s).reset (.of a.repo a.name)
          else lineage K s := by
  unfold saveDecisionMemory saveDecision embedAndWrite
  by_cases hcomplete : a.Complete
  · rw [if_pos hcomplete]
    -- an embedding that fails ends the call before anything is written
    cases hembed : env.embed (a.memory scopeFor).text with
    | none =>
      rw [if_neg fun h => h.2.1 hembed]
      exact ⟨hs, rfl⟩
    | some vec =>
      obtain ⟨h, hh, -⟩ := hs.hashAt (a.memory scopeFor).repo (a.memory scopeFor).name
      rw [← comp_map, map_eq_pure_bind, Mdb.hset_bind_runFaults fails hh]
      -- the one write fails or succeeds
      by_cases hfail : fails 0 = true
      · rw [if_pos hfail, if_neg fun h => absurd (hfail.symm.trans h.2.2) (by decide)]
        exact ⟨hs, rfl⟩
      · -- it succeeds: the memory is active again and its links are cleared
        obtain ⟨hstatus, hversion⟩ := versionOf_saved scopeFor env a vec h
        rw [if_neg hfail, if_pos ⟨hcomplete, by rw [hembed]; simp, by simpa using hfail⟩]
        refine ⟨Kept.putHash (d := .of a.repo a.name) hs (.inl hstatus), ?_⟩
        exact (lineage_putHash (.of a.repo a.name) _).trans (congrArg _ (congrArg some hversion))
  · -- the handler refuses an incomplete decision
    rw [if_neg hcomplete, if_neg fun h => hcomplete h.1]
    exact ⟨hs, rfl⟩

/-- The first write of a supersede marks the old decision. -/
theorem retire_putHash (hs : Kept K s) {repo o n : String} (hn : n ≠ "") {h : Hash F}
    (ho : s.keys.lookup (decisionKey K repo o) = some (.hash h)) :
    let s' := s.putHash (decisionKey K repo o)
      (hsetFields h [("status", .text "superseded"), ("superseded_by", .text n)])
    Kept K s' ∧ lineage K s' = (lineage K s).retire (.of repo o) (.of repo n) := by
  refine ⟨Kept.putHash (d := .of repo o) hs (.inr rfl), ?_⟩
  have hversion : lineage K s (.of repo o) = some (versionOf repo h) := by
    unfold lineage
    rw [DecisionId.key_of, ho]
    rfl
  refine (lineage_putHash (.of repo o) _).trans ?_
  unfold Lineage.retire
  rw [hversion]
  have hlink : linkOf repo n = some (.of repo n) := if_neg hn
  rw [← hlink]
  rfl

/-- The second write tells the new decision what it replaced. -/
theorem adopt_putHash (hs : Kept K s) {repo o n : String} (ho : o ≠ "") {h : Hash F}
    (hn : s.keys.lookup (decisionKey K repo n) = some (.hash h)) :
    let s' := s.putHash (decisionKey K repo n) (hsetFields h [("supersedes", .text o)])
    Kept K s' ∧ lineage K s' = (lineage K s).adopt (.of repo n) (.of repo o) := by
  have hstatus : h.text "status" = "active" ∨ h.text "status" = "superseded" := by
    obtain ⟨h', hh', hstatus⟩ := hs (.of repo n) _ hn
    cases hh'
    exact hstatus
  refine ⟨Kept.putHash (d := .of repo n) hs hstatus, ?_⟩
  have hversion : lineage K s (.of repo n) = some (versionOf repo h) := by
    unfold lineage
    rw [DecisionId.key_of, hn]
    rfl
  refine (lineage_putHash (.of repo n) _).trans ?_
  unfold Lineage.adopt
  rw [hversion]
  have hlink : linkOf repo o = some (.of repo o) := if_neg ho
  rw [← hlink]
  rfl

/-- The two writes on decisions that exist: no link, half a link, or a link. -/
theorem linkDecisions_lineage {repo o n : String} (ho : o ≠ "") (hn : n ≠ "") (fails : ℕ → Bool)
    (hs : Kept K s) (hexo : (s.keys.lookup (decisionKey K repo o)).isSome = true)
    (hexn : (s.keys.lookup (decisionKey K repo n)).isSome = true) :
    Kept K ((linkDecisions K repo o n).runFaults fails s).2 ∧
      lineage K ((linkDecisions K repo o n).runFaults fails s).2
        = if fails 0 then lineage K s
          else if fails 1 then (lineage K s).retire (.of repo o) (.of repo n)
          else (lineage K s).link (.of repo o) (.of repo n) := by
  obtain ⟨hold, hhold, hlold⟩ := hs.hashAt repo o
  obtain ⟨hs₁, hl₁⟩ := retire_putHash hs hn (hlold hexo)
  unfold linkDecisions
  rw [Mdb.hset_bind_runFaults _ hhold]
  -- a first write that fails ends the program before anything is linked
  by_cases h0 : fails 0 = true
  · rw [if_pos h0, if_pos h0]
    exact ⟨hs, rfl⟩
  rw [if_neg h0, if_neg h0]
  obtain ⟨hnew, hhnew, hlnew⟩ := hs₁.hashAt repo n
  dsimp only
  rw [Mdb.hset_bind_runFaults _ hhnew]
  by_cases h1 : fails 1 = true
  · rw [if_pos h1, if_pos h1]
    exact ⟨hs₁, hl₁⟩
  rw [if_neg h1, if_neg h1]
  -- the new decision is still there, also when it is the old one
  have hexn₁ : ((s.putHash (decisionKey K repo o) (hsetFields hold
      [("status", .text "superseded"), ("superseded_by", .text n)])).keys.lookup
        (decisionKey K repo n)).isSome = true := by
    by_cases heq : decisionKey K repo n = decisionKey K repo o
    · rw [heq, Server.lookup_putHash_self]
      rfl
    · rw [s.lookup_putHash_ne _ heq]
      exact hexn
  obtain ⟨hs₂, hl₂⟩ := adopt_putHash hs₁ ho (hlnew hexn₁)
  refine ⟨hs₂, hl₂.trans ?_⟩
  unfold Lineage.link
  rw [hl₁]

/-- **A supersede** links the two decisions, or half links them when its last write fails, or does
nothing. -/
theorem supersede_lineage (repo o n : String) (fails : ℕ → Bool) (hs : Kept K s) :
    Kept K ((supersedeDecision K repo o n).runFaults fails s).2 ∧
      lineage K ((supersedeDecision K repo o n).runFaults fails s).2
        = if Marks K s repo o n fails then
            if fails 3 then (lineage K s).retire (.of repo o) (.of repo n)
            else (lineage K s).link (.of repo o) (.of repo n)
          else lineage K s := by
  -- nothing changes when the program stops before its first write
  have hstop : ¬ Marks K s repo o n fails → Kept K s ∧ lineage K s
      = if Marks K s repo o n fails then
          if fails 3 then (lineage K s).retire (.of repo o) (.of repo n)
          else (lineage K s).link (.of repo o) (.of repo n)
        else lineage K s := fun h => ⟨hs, (if_neg h).symm⟩
  unfold supersedeDecision
  by_cases hnamed : repo = "" || o = "" || n = ""
  · rw [if_pos hnamed]
    exact hstop fun h => h.1 hnamed
  rw [if_neg hnamed]
  unfold supersedeStore
  rw [Mdb.existsKey_bind_runFaults]
  -- the two checks, in their order; a check that fails reads as a missing decision
  by_cases h0 : fails 0 = true
  · rw [if_pos h0]
    exact hstop fun h => absurd (h0.symm.trans h.2.2.2.1) (by decide)
  rw [if_neg h0]
  by_cases hexo : (s.keys.lookup (decisionKey K repo o)).isSome = true
  swap
  · rw [if_neg hexo]
    exact hstop fun h => hexo h.2.1
  rw [if_pos hexo]
  dsimp only [Option.getD_some]
  rw [if_neg one_ne_zero, Mdb.existsKey_bind_runFaults]
  by_cases h1 : fails (0 + 1) = true
  · rw [if_pos h1]
    exact hstop fun h => absurd (h1.symm.trans h.2.2.2.2.1) (by decide)
  rw [if_neg h1]
  by_cases hexn : (s.keys.lookup (decisionKey K repo n)).isSome = true
  swap
  · rw [if_neg hexn]
    exact hstop fun h => hexn h.2.2.1
  rw [if_pos hexn]
  dsimp only [Option.getD_some]
  rw [if_neg one_ne_zero]
  have hnames := hnamed
  simp only [Bool.or_eq_true, decide_eq_true_eq, not_or] at hnames
  obtain ⟨⟨-, ho⟩, hn⟩ := hnames
  -- both decisions exist: the two writes follow
  obtain ⟨hs', hl'⟩ := linkDecisions_lineage ho hn (fun k => fails (k + 1 + 1)) hs hexo hexn
  refine ⟨hs', hl'.trans ?_⟩
  by_cases h2 : fails 2 = true
  · rw [if_pos h2, if_neg fun h => absurd (h2.symm.trans h.2.2.2.2.2) (by decide)]
  · have hmarks : Marks K s repo o n fails :=
      ⟨hnamed, hexo, hexn, Bool.eq_false_of_not_eq_true h0, Bool.eq_false_of_not_eq_true h1,
        Bool.eq_false_of_not_eq_true h2⟩
    rw [if_neg h2, if_pos hmarks]

/-! ### Runs -/

/-- The call, as it is carried out. -/
def ToolCall.apply (scopeFor : String → String → String) (K : Keyspace) (s : Server F)
    (c : ToolCall F) : Server F :=
  match c.tool with
  | .save env a => ((saveDecisionMemory env scopeFor K a).runFaults c.fails s).2
  | .supersede repo o n => ((supersedeDecision K repo o n).runFaults c.fails s).2

/-- The runs of the two tools. -/
def toolRuns (scopeFor : String → String → String) (K : Keyspace) :
    Machine (Server F) (ToolCall F) := ⟨fun s c => some (c.apply scopeFor K s)⟩

/-- **The condition on a call**: a save that writes is one of a decision without links; a supersede that
marks the old decision links two decisions that can be linked, or, when its last write fails, two that
are linked already. -/
def KeepsLineage (scopeFor : String → String → String) (K : Keyspace) (s : Server F)
    (c : ToolCall F) : Prop :=
  match c.tool with
  | .save env a => Saves scopeFor env a c.fails →
      (lineage K s).next (.of a.repo a.name) = none ∧
        (lineage K s).prev (.of a.repo a.name) = none
  | .supersede repo o n => Marks K s repo o n c.fails →
      if c.fails 3 then (lineage K s).next (.of repo o) = some (.of repo n)
      else (lineage K s).Replaceable (.of repo o) (.of repo n)

/-- **One call** keeps the decisions sound exactly when it meets the condition. -/
theorem sound_step (scopeFor : String → String → String) (hs : Sound K s) (c : ToolCall F) :
    Kept K (c.apply scopeFor K s) ∧
      ((lineage K (c.apply scopeFor K s)).Consistent ↔ KeepsLineage scopeFor K s c) := by
  obtain ⟨hkept, hcon⟩ := hs
  have hfin := support_finite K s
  obtain ⟨tool, fails⟩ := c
  cases tool with
  | save env a =>
    obtain ⟨hkept', hl⟩ := save_lineage scopeFor env a fails hkept
    refine ⟨hkept', ?_⟩
    unfold KeepsLineage ToolCall.apply
    dsimp only
    rw [hl]
    -- a save resets the memory it writes, if it writes
    by_cases hsaves : Saves scopeFor env a fails
    · rw [if_pos hsaves, Lineage.consistent_reset_iff hfin hcon]
      exact ⟨fun h _ => h, fun h => h hsaves⟩
    · rw [if_neg hsaves]
      exact ⟨fun _ h => absurd h hsaves, fun _ => hcon⟩
  | supersede repo o n =>
    obtain ⟨hkept', hl⟩ := supersede_lineage repo o n fails hkept
    refine ⟨hkept', ?_⟩
    unfold KeepsLineage ToolCall.apply
    dsimp only
    rw [hl]
    -- a call that marks the old memory goes on to the link, which the fourth fault stops
    by_cases hmarks : Marks K s repo o n fails
    · have ho := hkept.mem_support (d := .of repo o) hmarks.2.1
      have hn := hkept.mem_support (d := .of repo n) hmarks.2.2.1
      rw [if_pos hmarks]
      by_cases h3 : fails 3 = true
      · rw [if_pos h3, if_pos h3, Lineage.consistent_retire_iff hfin hcon ho]
        exact ⟨fun h _ => h, fun h => h hmarks⟩
      · rw [if_neg h3, if_neg h3, Lineage.consistent_link_iff hfin hcon ho hn]
        exact ⟨fun h _ => h, fun h => h hmarks⟩
    · -- nothing is marked, so nothing is linked
      rw [if_neg hmarks]
      exact ⟨fun _ h => absurd h hmarks, fun _ => hcon⟩

/-- **The lineage is sound throughout a run**, whatever commands fail in it, exactly when every call
meets the condition. -/
theorem lineage_sound_iff (scopeFor : String → String → String) (hs : Sound K s)
    (calls : List (ToolCall F)) :
    (toolRuns scopeFor K).Along (KeepsLineage scopeFor K) s calls ↔
      ∀ calls₁ calls₂ t, calls = calls₁ ++ calls₂ → (toolRuns scopeFor K).exec s calls₁ = some t →
        Sound K t := by
  refine Machine.along_iff_reached (J := fun _ => True) ?_ (fun s c => ⟨_, rfl⟩) trivial hs calls
  rintro s c t - hs ht
  obtain rfl := Option.some.inj ht
  obtain ⟨hkept, hiff⟩ := sound_step scopeFor hs c
  exact ⟨trivial, fun h => hiff.mp h.consistent, fun h => ⟨hkept, hiff.mpr h⟩⟩

/-- The decision `name` of the repo `r`. -/
def decisionNamed (name : String) : DecisionArgs where
  repo := "r"
  name := name
  decisionType := "architecture"
  decision := "d"
  rationale := "w"
  alternatives := ""
  constraint := ""
  decisionScope := ""
  files := ""
  scope := "global"

/-- The save of the decision `name`; nothing fails. -/
def saveCall (name : String) : ToolCall ℕ := ⟨.save .still (decisionNamed name), fun _ => false⟩

/-- The supersede of `o` by `n`, with the commands that fail in it. -/
def supersedeCall (o n : String) (fails : ℕ → Bool) : ToolCall ℕ := ⟨.supersede "r" o n, fails⟩

/-- The server after some calls on an empty one. -/
def afterCalls (calls : List (ToolCall ℕ)) : Server ℕ :=
  calls.foldl (ToolCall.apply (fun _ _ => "global") .mem) (Server.empty ℕ)

/-- Two saves and a supersede, on an empty server. -/
theorem lineage_sound_redis :
    Sound .mem (afterCalls [saveCall "redis", saveCall "postgres",
      supersedeCall "redis" "postgres" fun _ => false]) := by
  refine (lineage_sound_iff (fun _ _ => "global") (Sound.empty .mem) [saveCall "redis",
    saveCall "postgres", supersedeCall "redis" "postgres" fun _ => false]).mp ?_ _ [] _
      (List.append_nil _).symm rfl
  refine ⟨fun _ => ⟨rfl, rfl⟩, fun s hs => ⟨fun _ => ?_, fun t ht => ⟨fun _ => ?_, fun _ _ => trivial⟩⟩⟩
  · obtain rfl := Option.some.inj hs
    decide +kernel
  · obtain rfl := Option.some.inj hs
    obtain rfl := Option.some.inj ht
    refine .inr ⟨by decide +kernel, by decide +kernel, ?_⟩
    exact Lineage.not_reaches (by decide +kernel) (by decide +kernel)

/-- **Three ways to lose the lineage**: saving a superseded decision again, superseding a decision by
itself, and a supersede whose last write fails. -/
theorem lineage_lost :
    ¬ Sound .mem (afterCalls [saveCall "redis", saveCall "postgres",
        supersedeCall "redis" "postgres" fun _ => false, saveCall "redis"]) ∧
      ¬ Sound .mem (afterCalls [saveCall "redis", supersedeCall "redis" "redis" fun _ => false]) ∧
      ¬ Sound .mem (afterCalls [saveCall "redis", saveCall "postgres",
        supersedeCall "redis" "postgres" fun n => n == 3]) := by
  refine ⟨fun h => ?_, fun h => ?_, fun h => ?_⟩
  · -- the newer decision still names the one saved again
    have hlink := (h.consistent.link (.of "r" "redis") (.of "r" "postgres")).mpr (by decide +kernel)
    exact absurd hlink (by decide +kernel)
  · exact h.consistent.acyclic (.of "r" "redis") (.single (by unfold Lineage.Step; decide +kernel))
  · have hlink := (h.consistent.link (.of "r" "redis") (.of "r" "postgres")).mp (by decide +kernel)
    exact absurd hlink (by decide +kernel)

end Devrouter.Memory
