import Devrouter.Lib.LastWins
import Devrouter.Router.Shown

/-!
# The decisions of an answer

Model of the decision section of `HandleQueryWithPlan` in `internal/router/router.go`: `buildDecisionContext`, the
lineage that is appended to it, `buildDecisionInstruction`, and what the number of memories decides (`modelHint` and
the `memory_coverage` signal).

A superseded decision should speak only as the predecessor of an active one. Those that no active decision names are
dropped from the hits by `dropUnlinked`, and an answer is compared with the answer without them. The context and the
instructions skip them (`decisionContext_dropUnlinked`); the number of memories counts them, and a predecessor that
two decisions name is appended twice. `decisions_lineage_iff` says for which hits neither shows.
-/

namespace Devrouter

/-! ### The section -/

/-- A decision in an answer; its confidence is always 0.9. -/
structure DecisionContextEntry where
  name : String
  decisionType : String
  decision : String
  rationale : String
  alternatives : String
  constraint_ : String
  scope : String
  status : String
  supersedes : String
  supersededBy : String
  confidence : ℚ
  deriving DecidableEq, Repr

structure ModelHint where
  model : String
  reason : String
  deriving DecidableEq, Repr

namespace DecisionMemoryHit

def entry (d : DecisionMemoryHit) : DecisionContextEntry where
  name := d.name
  decisionType := d.decisionType
  decision := d.decision
  rationale := d.rationale
  alternatives := d.alternatives
  constraint_ := d.constraint_
  scope := d.scope
  status := d.status
  supersedes := d.supersedes
  supersededBy := d.supersededBy
  confidence := 9 / 10

def superseded (d : DecisionMemoryHit) : Bool := decide (d.status = "superseded")

end DecisionMemoryHit

def buildDecisionContext (decisions : List DecisionMemoryHit) : List DecisionContextEntry := decisions.map (·.entry)

/-- The lines of `buildDecisionInstruction`, by type of decision. -/
def decisionLines : List (String × String) :=
  [("refactor", "REFACTOR DECISIONS: Before refactoring, review the existing decisions below — " ++
      "some refactors were explicitly rejected."),
    ("optimization", "OPTIMIZATION DECISIONS: Performance targets and prior optimization decisions " ++
      "are recorded below."),
    ("coding_standard", "CODING STANDARDS: Coding standards are in effect for this area — " ++
      "apply them to any new code."),
    ("architecture", "ARCHITECTURE DECISIONS: Architectural choices have been recorded — " ++
      "do not contradict them without explicit discussion."),
    ("constraint", "CONSTRAINTS: Hard constraints limit design choices in this area — see decisions below."),
    ("tradeoff", "TRADEOFF DECISIONS: Tradeoffs were deliberately made — " ++
      "understand them before suggesting alternatives.")]

def buildDecisionInstruction (decisions : List DecisionMemoryHit) : String :=
  -- superseded decisions are skipped
  let typesSeen := (decisions.filter fun d => !d.superseded).map (·.decisionType)
  "\n".intercalate ((decisionLines.filter fun l => decide (l.1 ∈ typesSeen)).map Prod.snd)

/-- `supersededByName`: a later decision of a name takes the place of an earlier one. -/
def supersededByName (decisions : List DecisionMemoryHit) : List DecisionMemoryHit :=
  (decisions.filter (·.superseded)).lastWins fun a b => decide (a.name = b.name)

/-- The decisions of an answer, before they are capped: the active ones, then the predecessors they name. -/
def decisionContext (decisions : List DecisionMemoryHit) : List DecisionContextEntry :=
  let activeDecisions := decisions.filter fun d => !d.superseded
  buildDecisionContext activeDecisions ++
    activeDecisions.filterMap fun active =>
      if active.supersedes = "" then none
      else ((supersededByName decisions).find? fun d => decide (d.name = active.supersedes)).map (·.entry)

def modelHint (memCount : ℕ) : ModelHint :=
  if 3 ≤ memCount then ⟨"haiku", "strong memory coverage"⟩
  else if 1 ≤ memCount then ⟨"sonnet", "partial memory coverage"⟩
  else ⟨"opus", "no memories, needs deep exploration"⟩

/-- The signal `memory_coverage`; it is not set without memories. -/
def memoryCoverage (memCount : ℕ) : Option ℚ :=
  if 0 < memCount then
    let cov : ℚ := memCount / 10
    some (if 1 < cov then 1 else cov)
  else none

def primaryContextInstruction : String :=
  "PRIMARY CONTEXT (HIGHEST PRIORITY):\n" ++
    "These are high-confidence learned behaviors from prior analysis.\n" ++
    "Use these FIRST to understand system behavior.\n" ++
    "Only use code/graph to validate or expand.\n" ++
    "Do NOT ignore PRIMARY CONTEXT unless directly contradicted by code."

def graphFirstInstruction : String :=
  "NO MEMORIES AVAILABLE — USE GRAPH CONTEXT FIRST:\n" ++
    "No prior memories exist for this topic. However, the symbols, call chains,\n" ++
    "file paths, and code snippets below were retrieved from the code graph.\n" ++
    "\n" ++
    "1. Read the CODE SNIPPETS provided — they are the most relevant files found.\n" ++
    "2. Follow the CALL CHAIN to understand upstream callers and downstream callees.\n" ++
    "3. Use SYMBOLS and GRAPH relationships to navigate related files.\n" ++
    "4. Only search or read additional files if the above context is insufficient.\n" ++
    "Do NOT skip the provided context and jump straight to file exploration."

/-- What an answer says by its decisions and by the number of its memories. -/
structure DecisionAnswer where
  decisions : List DecisionContextEntry
  instructions : String
  modelHint : ModelHint
  memoryCoverage : Option ℚ
  deriving DecidableEq, Repr

section Answer

variable {R : Type} [Scores R]

/-- This part of `HandleQueryWithPlan`; `hasGraphData` says whether the graph answered anything. -/
def decisionAnswer (memRes : MemoryResults R) (primaryCtx : List (PrimaryContextEntry R)) (hasGraphData : Bool) :
    DecisionAnswer :=
  let decisions := memRes.agent.elim [] (·.decisions)
  let decisionCtx := decisionContext decisions
  let instructions := if primaryCtx.isEmpty then "" else primaryContextInstruction
  let instructions :=
    if decisionCtx.isEmpty then instructions else buildDecisionInstruction decisions ++ "\n\n" ++ instructions
  -- without any memory the graph is recommended instead
  let instructions := if primaryCtx.isEmpty && hasGraphData then graphFirstInstruction else instructions
  { decisions := decisionCtx
    instructions := instructions
    modelHint := Devrouter.modelHint memRes.memCount
    memoryCoverage := Devrouter.memoryCoverage memRes.memCount }

end Answer

/-! ### Lineage -/

namespace DecisionMemoryHit

/-- An active decision that names the other one in its `supersedes` field. -/
def succeeds (a d : DecisionMemoryHit) : Bool := !a.superseded && decide (a.supersedes ≠ "" ∧ a.supersedes = d.name)

/-- A superseded decision that no active one names. -/
def unlinked (decisions : List DecisionMemoryHit) (d : DecisionMemoryHit) : Bool :=
  d.superseded && !decisions.any (·.succeeds d)

end DecisionMemoryHit

/-- **The order of the context.** -/
structure LineageOnly (decisions : List DecisionMemoryHit) (ctx : List DecisionContextEntry) : Prop where
  /-- Each active decision appears once, -/
  active : ∀ d ∈ decisions, d.superseded = false → ctx.count d.entry = 1
  /-- in front of all that are superseded, -/
  front : ctx.Pairwise fun a b => a.status = "superseded" → b.status = "superseded"
  /-- and each of these at most once. -/
  superseded : ∀ d ∈ decisions, d.superseded = true → ctx.count d.entry ≤ 1

/-- How many active decisions name the decision. -/
def successors (decisions : List DecisionMemoryHit) (d : DecisionMemoryHit) : ℕ := decisions.countP (·.succeeds d)

section Lineage

variable {decisions : List DecisionMemoryHit}

theorem oneKey_name (n : String) :
    List.OneKey (fun a b : DecisionMemoryHit => decide (a.name = b.name)) fun d => decide (d.name = n) where
  same_of ha hb := by simpa using (of_decide_eq_true hb).trans (of_decide_eq_true ha).symm
  of_same h := by rw [of_decide_eq_true h]

/-- The predecessor of a name is the last superseded decision that has it. -/
theorem find?_supersededByName (n : String) : (supersededByName decisions).find? (fun d => decide (d.name = n))
    = (decisions.filter fun d => d.superseded && decide (d.name = n)).getLast? := by
  unfold supersededByName
  rw [List.find?_lastWins (oneKey_name n), ← List.head?_filter, List.filter_reverse, List.head?_reverse,
    List.filter_filter]
  exact congrArg List.getLast? (List.filter_congr fun d _ => Bool.and_comm _ _)

/-- Dropping the unlinked decisions drops no active one. -/
theorem active_dropUnlinked :
    (decisions.filter fun d => !d.unlinked decisions).filter (fun d => !d.superseded)
      = decisions.filter fun d => !d.superseded := by
  rw [List.filter_filter]
  refine List.filter_congr fun d _ => ?_
  unfold DecisionMemoryHit.unlinked
  cases d.superseded with
  | false => rfl
  | true => rfl

/-- A superseded decision that an active one names is not dropped. -/
theorem supersededByName_dropUnlinked {a : DecisionMemoryHit} (ha : a ∈ decisions) (hactive : a.superseded = false)
    (hnames : a.supersedes ≠ "") :
    (supersededByName (decisions.filter fun d => !d.unlinked decisions)).find? (fun d => decide (d.name = a.supersedes))
      = (supersededByName decisions).find? fun d => decide (d.name = a.supersedes) := by
  rw [find?_supersededByName, find?_supersededByName, List.filter_filter]
  refine congrArg List.getLast? (List.filter_congr fun d _ => ?_)
  by_cases hname : d.name = a.supersedes
  · have hlinked : decisions.any (·.succeeds d) = true := by
      refine List.any_eq_true.mpr ⟨a, ha, ?_⟩
      unfold DecisionMemoryHit.succeeds
      simp [hactive, hnames, hname]
    unfold DecisionMemoryHit.unlinked
    simp [hlinked]
  · simp [hname]

/-- **The context skips what is unlinked**, -/
theorem decisionContext_dropUnlinked :
    decisionContext (decisions.filter fun d => !d.unlinked decisions) = decisionContext decisions := by
  unfold decisionContext
  dsimp only
  rw [active_dropUnlinked]
  refine congrArg _ (List.filterMap_congr fun a ha => ?_)
  obtain ⟨hmem, hactive⟩ := List.mem_filter.mp ha
  split_ifs with hnames
  · rfl
  · rw [supersededByName_dropUnlinked hmem (by simpa using hactive) hnames]

/-- and so do the instructions. -/
theorem buildDecisionInstruction_dropUnlinked :
    buildDecisionInstruction (decisions.filter fun d => !d.unlinked decisions)
      = buildDecisionInstruction decisions := by
  unfold buildDecisionInstruction
  rw [active_dropUnlinked]

/-! ### The number of memories -/

theorem memoryCoverage_of_pos {n : ℕ} (hn : 0 < n) : memoryCoverage n = some (min ((n : ℚ) / 10) 1) := by
  unfold memoryCoverage
  rw [if_pos hn]
  dsimp only
  split_ifs with hcov
  · rw [min_eq_right hcov.le]
  · rw [min_eq_left (not_lt.mp hcov)]

/-- **The hint and the signal** do not show that some memories more are counted, exactly when there are ten without
them. -/
theorem counted_iff (n u : ℕ) : (modelHint (n + u) = modelHint n ∧ memoryCoverage (n + u) = memoryCoverage n) ↔
    u = 0 ∨ 10 ≤ n := by
  constructor
  · rintro ⟨-, hcov⟩
    by_contra h
    -- fewer than ten memories and one more: the coverage rises
    rw [not_or, not_le] at h
    obtain ⟨hu, hn⟩ := h
    rw [memoryCoverage_of_pos (by omega)] at hcov
    rcases Nat.eq_zero_or_pos n with rfl | hpos
    · cases hcov
    · rw [memoryCoverage_of_pos hpos] at hcov
      have hlt : ((n : ℚ) / 10) < 1 := by
        rw [div_lt_one (by norm_num)]
        exact_mod_cast hn
      have hmore : ((n : ℚ) / 10) < ((n + u : ℕ) : ℚ) / 10 := by
        refine div_lt_div_of_pos_right ?_ (by norm_num)
        exact_mod_cast Nat.lt_add_of_pos_right (Nat.pos_of_ne_zero hu)
      have hsame := Option.some.inj hcov
      rw [min_eq_left hlt.le] at hsame
      exact absurd hsame (lt_min hmore hlt).ne'
  · rintro (rfl | hn)
    · exact ⟨rfl, rfl⟩
    · -- from ten memories on the coverage is full
      have hfull : ∀ m : ℕ, 10 ≤ m → min ((m : ℚ) / 10) 1 = 1 := by
        intro m hm
        rw [min_eq_right]
        rw [le_div_iff₀ (by norm_num)]
        exact_mod_cast hm
      refine ⟨?_, ?_⟩
      · unfold modelHint
        rw [if_pos (by omega), if_pos (by omega)]
      · rw [memoryCoverage_of_pos (by omega), memoryCoverage_of_pos (by omega), hfull _ (by omega), hfull _ hn]

/-! ### The order of the context -/

theorem entry_status {d : DecisionMemoryHit} : d.entry.status = "superseded" ↔ d.superseded = true := by
  unfold DecisionMemoryHit.superseded
  rw [decide_eq_true_eq]
  rfl

/-- Names tell the entries of the decisions apart. -/
theorem entry_inj (hnodup : (decisions.map (·.name)).Nodup) {a d : DecisionMemoryHit} (ha : a ∈ decisions)
    (hd : d ∈ decisions) (h : a.entry = d.entry) : a = d :=
  List.inj_on_of_nodup_map hnodup ha hd (congrArg DecisionContextEntry.name h)

/-- The predecessor that is appended for an active decision. -/
def predecessor (decisions : List DecisionMemoryHit) (active : DecisionMemoryHit) : Option DecisionContextEntry :=
  if active.supersedes = "" then none
  else ((supersededByName decisions).find? fun d => decide (d.name = active.supersedes)).map (·.entry)

theorem decisionContext_eq : decisionContext decisions
    = (decisions.filter fun d => !d.superseded).map (·.entry)
      ++ (decisions.filter fun d => !d.superseded).filterMap (predecessor decisions) := rfl

/-- A predecessor is a superseded decision of the name. -/
theorem exists_of_predecessor {a : DecisionMemoryHit} {e : DecisionContextEntry}
    (h : predecessor decisions a = some e) :
    a.supersedes ≠ "" ∧ ∃ d ∈ decisions, d.superseded = true ∧ d.name = a.supersedes ∧ d.entry = e := by
  unfold predecessor at h
  split_ifs at h with hnames
  obtain ⟨d, hd, rfl⟩ := Option.map_eq_some_iff.mp h
  rw [find?_supersededByName] at hd
  obtain ⟨hmem, hprop⟩ := List.mem_filter.mp (List.mem_of_getLast? hd)
  obtain ⟨hsup, hname⟩ := (Bool.and_eq_true _ _).mp hprop
  exact ⟨hnames, d, hmem, hsup, of_decide_eq_true hname, rfl⟩

/-- **The predecessor of a decision** is the superseded one it names. -/
theorem predecessor_eq_iff (hnodup : (decisions.map (·.name)).Nodup) {a d : DecisionMemoryHit}
    (hactive : a.superseded = false) (hd : d ∈ decisions) (hsup : d.superseded = true) :
    predecessor decisions a = some d.entry ↔ a.succeeds d = true := by
  unfold DecisionMemoryHit.succeeds
  rw [hactive, Bool.not_false, Bool.true_and, decide_eq_true_eq]
  constructor
  · intro h
    obtain ⟨hnames, d', hd', -, hname, hentry⟩ := exists_of_predecessor h
    obtain rfl := entry_inj hnodup hd' hd hentry
    exact ⟨hnames, hname.symm⟩
  · rintro ⟨hnames, hname⟩
    -- no other superseded decision has the name
    have hone : (decisions.filter fun d' => d'.superseded && decide (d'.name = a.supersedes)) = [d] := by
      have hmem : d ∈ decisions.filter fun d' => d'.superseded && decide (d'.name = a.supersedes) :=
        List.mem_filter.mpr ⟨hd, by simp [hsup, hname]⟩
      have hall : ∀ d' ∈ decisions.filter fun d' => d'.superseded && decide (d'.name = a.supersedes), d' = d := by
        intro d' hd'
        obtain ⟨hmem', hprop⟩ := List.mem_filter.mp hd'
        have hname' := of_decide_eq_true ((Bool.and_eq_true _ _).mp hprop).2
        exact List.inj_on_of_nodup_map hnodup hmem' hd (hname'.trans hname)
      have hnd : (decisions.filter fun d' => d'.superseded && decide (d'.name = a.supersedes)).Nodup :=
        (List.Nodup.of_map _ hnodup).filter _
      exact (List.perm_singleton.mp ((List.perm_ext_iff_of_nodup hnd (List.nodup_singleton d)).mpr fun d' =>
        ⟨fun h => List.mem_singleton.mpr (hall d' h), fun h => (List.mem_singleton.mp h) ▸ hmem⟩))
    unfold predecessor
    rw [if_neg hnames, find?_supersededByName, hone]
    rfl

/-- An active decision is in the context once. -/
theorem count_active (hnodup : (decisions.map (·.name)).Nodup) {d : DecisionMemoryHit} (hd : d ∈ decisions)
    (hactive : d.superseded = false) : (decisionContext decisions).count d.entry = 1 := by
  have hnone : d.entry ∉ (decisions.filter fun d => !d.superseded).filterMap (predecessor decisions) := by
    intro hmem
    obtain ⟨a, -, ha⟩ := List.mem_filterMap.mp hmem
    obtain ⟨-, d', -, hsup, -, hentry⟩ := exists_of_predecessor ha
    have hstatus := entry_status.mpr hsup
    rw [hentry, entry_status, hactive] at hstatus
    cases hstatus
  have hnd : ((decisions.filter fun d => !d.superseded).map (·.entry)).Nodup := by
    refine List.Nodup.map_on (fun a ha b hb h => ?_) ((List.Nodup.of_map _ hnodup).filter _)
    exact entry_inj hnodup (List.mem_filter.mp ha).1 (List.mem_filter.mp hb).1 h
  rw [decisionContext_eq, List.count_append, List.count_eq_zero_of_not_mem hnone,
    List.count_eq_one_of_mem hnd (List.mem_map_of_mem (List.mem_filter.mpr ⟨hd, by rw [hactive]; rfl⟩))]

/-- A superseded decision is in it as often as it is named. -/
theorem count_superseded (hnodup : (decisions.map (·.name)).Nodup) {d : DecisionMemoryHit} (hd : d ∈ decisions)
    (hsup : d.superseded = true) : (decisionContext decisions).count d.entry = successors decisions d := by
  have hnone : d.entry ∉ (decisions.filter fun d => !d.superseded).map (·.entry) := by
    intro hmem
    obtain ⟨a, ha, hentry⟩ := List.mem_map.mp hmem
    have hstatus := entry_status.mpr hsup
    rw [← hentry, entry_status] at hstatus
    simp [hstatus] at ha
  rw [decisionContext_eq, List.count_append, List.count_eq_zero_of_not_mem hnone, Nat.zero_add, List.count_filterMap,
    List.countP_filter]
  refine List.countP_congr fun a ha => ?_
  cases hactive : a.superseded with
  | true => simp [DecisionMemoryHit.succeeds, hactive]
  | false =>
    rw [Bool.not_false, Bool.and_true, beq_iff_eq]
    exact predecessor_eq_iff hnodup hactive hd hsup

/-- **The order of the context** is that of lineage, exactly when no two active decisions name one predecessor. -/
theorem lineageOnly_iff (hnodup : (decisions.map (·.name)).Nodup) :
    LineageOnly decisions (decisionContext decisions) ↔
      ∀ d ∈ decisions, d.superseded = true → successors decisions d ≤ 1 := by
  constructor
  · intro h d hd hsup
    rw [← count_superseded hnodup hd hsup]
    exact h.superseded d hd hsup
  · intro h
    refine ⟨fun d hd hactive => count_active hnodup hd hactive, ?_, fun d hd hsup => ?_⟩
    · rw [decisionContext_eq, List.pairwise_append]
      -- the entries in front are active, those behind are not
      have hback : ∀ e ∈ (decisions.filter fun d => !d.superseded).filterMap (predecessor decisions),
          e.status = "superseded" := by
        intro e he
        obtain ⟨a, -, ha⟩ := List.mem_filterMap.mp he
        obtain ⟨-, d, -, hsup, -, rfl⟩ := exists_of_predecessor ha
        exact entry_status.mpr hsup
      refine ⟨?_, ?_, fun _ _ e he _ => hback e he⟩
      · rw [List.pairwise_map]
        refine List.Pairwise.imp_of_mem (fun {a b} ha _ _ hstatus => ?_) (List.pairwise_of_forall fun _ _ => trivial)
        rw [entry_status] at hstatus
        simp [hstatus] at ha
      · refine List.Pairwise.imp_of_mem (fun {a b} _ hb _ _ => hback b hb) (List.pairwise_of_forall fun _ _ => trivial)
    · rw [count_superseded hnodup hd hsup]
      exact h d hd hsup

end Lineage

/-! ### Two runs -/

section Runs

variable {R : Type} [Scores R] (gitFileHash : String → String → String) (repoPath : String)
  (summary : String → String) (sortSlice : SliceSort R) (anchors : List (PrimaryContextEntry R)) (hasGraphData : Bool)

/-- The decisions among the hits. -/
def decisionsOf (hits : List (TypedHit R)) : List DecisionMemoryHit := (typed "decision" hits).map (·.decision)

/-- The hits without the superseded decisions that no active decision among them names. -/
def dropUnlinked (hits : List (TypedHit R)) : List (TypedHit R) :=
  hits.filter fun h => !((!h.isAuto && decide (h.type = "decision")) && h.decision.unlinked (decisionsOf hits))

/-- The answer to these hits, as far as the decisions go. -/
def answerTo (hits : List (TypedHit R)) : DecisionAnswer :=
  let memRes := buildAllMemories gitFileHash repoPath hits
  decisionAnswer memRes (anchors ++ buildPrimaryContext summary sortSlice memRes) hasGraphData

variable (hits : List (TypedHit R))

omit [Scores R] in
theorem decisionsOf_dropUnlinked :
    decisionsOf (dropUnlinked hits) = (decisionsOf hits).filter fun d => !d.unlinked (decisionsOf hits) := by
  unfold decisionsOf dropUnlinked typed
  rw [List.filter_filter, List.filter_map, List.filter_filter]
  refine congrArg _ (List.filter_congr fun h _ => ?_)
  rw [Function.comp_apply, decisionsOf, typed]
  cases (!h.isAuto && decide (h.type = "decision")) with
  | false => simp
  | true => simp

omit [Scores R] in
/-- The memories of the other types stay. -/
theorem typed_dropUnlinked {type : String} (htype : type ≠ "decision") :
    typed type (dropUnlinked hits) = typed type hits := by
  unfold dropUnlinked
  rw [typed, typed, List.filter_filter]
  refine List.filter_congr fun h _ => ?_
  by_cases h' : h.type = type
  · have hne : h.type ≠ "decision" := h' ▸ htype
    simp [hne]
  · simp [h']

theorem memories_dropUnlinked : (buildAllMemories gitFileHash repoPath (dropUnlinked hits)).memories
    = (buildAllMemories gitFileHash repoPath hits).memories := by
  rw [buildAllMemories_memories, buildAllMemories_memories]
  unfold StructuredMemories.shown structuredMemories
  rw [typed_dropUnlinked hits (by decide), typed_dropUnlinked hits (by decide), typed_dropUnlinked hits (by decide)]

theorem primaryContext_dropUnlinked :
    buildPrimaryContext summary sortSlice (buildAllMemories gitFileHash repoPath (dropUnlinked hits))
      = buildPrimaryContext summary sortSlice (buildAllMemories gitFileHash repoPath hits) := by
  rw [buildPrimaryContext_eq, buildPrimaryContext_eq]
  unfold MemoryResults.inOrder
  rw [memories_dropUnlinked]

theorem decisions_eq : (buildAllMemories gitFileHash repoPath hits).agent.elim [] (·.decisions) = decisionsOf hits := by
  have hagent := congrArg StructuredMemories.decisions (buildAllMemories_agent gitFileHash repoPath hits)
  calc (buildAllMemories gitFileHash repoPath hits).agent.elim [] (·.decisions)
      = ((buildAllMemories gitFileHash repoPath hits).agent.getD (.empty R)).decisions := by
        cases (buildAllMemories gitFileHash repoPath hits).agent <;> rfl
    _ = decisionsOf hits := hagent

/-- How many memories are dropped. -/
theorem memCount_dropUnlinked : (buildAllMemories gitFileHash repoPath hits).memCount
    = (buildAllMemories gitFileHash repoPath (dropUnlinked hits)).memCount
      + (decisionsOf hits).countP (·.unlinked (decisionsOf hits)) := by
  have hcount : (typed "decision" hits).length = (typed "decision" (dropUnlinked hits)).length
      + (decisionsOf hits).countP (·.unlinked (decisionsOf hits)) := by
    calc (typed "decision" hits).length = (decisionsOf hits).length := (List.length_map _).symm
      _ = (decisionsOf hits).countP (·.unlinked (decisionsOf hits))
          + ((decisionsOf hits).filter fun d => !d.unlinked (decisionsOf hits)).length := by
          rw [List.countP_eq_length_filter]
          exact List.length_eq_length_filter_add _
      _ = (decisionsOf (dropUnlinked hits)).length + (decisionsOf hits).countP (·.unlinked (decisionsOf hits)) := by
          rw [decisionsOf_dropUnlinked, Nat.add_comm]
      _ = (typed "decision" (dropUnlinked hits)).length
          + (decisionsOf hits).countP (·.unlinked (decisionsOf hits)) := by
          rw [decisionsOf, List.length_map]
  rw [buildAllMemories_memCount, buildAllMemories_memCount, typed_dropUnlinked hits (by decide),
    typed_dropUnlinked hits (by decide), typed_dropUnlinked hits (by decide), hcount]
  omega

/-- The decisions and the instructions of an answer are those without the unlinked decisions. -/
theorem answerTo_dropUnlinked :
    (answerTo gitFileHash repoPath summary sortSlice anchors hasGraphData (dropUnlinked hits)).decisions
        = (answerTo gitFileHash repoPath summary sortSlice anchors hasGraphData hits).decisions ∧
      (answerTo gitFileHash repoPath summary sortSlice anchors hasGraphData (dropUnlinked hits)).instructions
        = (answerTo gitFileHash repoPath summary sortSlice anchors hasGraphData hits).instructions := by
  unfold answerTo decisionAnswer
  dsimp only
  rw [decisions_eq, decisions_eq, decisionsOf_dropUnlinked, decisionContext_dropUnlinked,
    buildDecisionInstruction_dropUnlinked, primaryContext_dropUnlinked]
  exact ⟨rfl, rfl⟩

/-- **A superseded decision speaks only as lineage**, for hits with decisions of different names: the answer is the one
without the unlinked superseded decisions, and its decisions are in the order of lineage. This is so exactly when there
are no such decisions, or ten memories without them; and no two active decisions name one predecessor. -/
theorem decisions_lineage_iff (hnodup : ((decisionsOf hits).map (·.name)).Nodup) :
    (answerTo gitFileHash repoPath summary sortSlice anchors hasGraphData hits
        = answerTo gitFileHash repoPath summary sortSlice anchors hasGraphData (dropUnlinked hits) ∧
      LineageOnly (decisionsOf hits)
        (answerTo gitFileHash repoPath summary sortSlice anchors hasGraphData hits).decisions) ↔
    ((∀ d ∈ decisionsOf hits, d.unlinked (decisionsOf hits) = false) ∨
        10 ≤ (buildAllMemories gitFileHash repoPath (dropUnlinked hits)).memCount) ∧
      ∀ d ∈ decisionsOf hits, d.superseded = true → successors (decisionsOf hits) d ≤ 1 := by
  have hctx : (answerTo gitFileHash repoPath summary sortSlice anchors hasGraphData hits).decisions
      = decisionContext (decisionsOf hits) := congrArg decisionContext (decisions_eq gitFileHash repoPath hits)
  -- the context lists a decision by its lineage only where no name has two successors
  rw [hctx, lineageOnly_iff hnodup]
  refine and_congr_left' ?_
  obtain ⟨hdecisions, hinstructions⟩ :=
    answerTo_dropUnlinked gitFileHash repoPath summary sortSlice anchors hasGraphData hits
  have hzero : (decisionsOf hits).countP (·.unlinked (decisionsOf hits)) = 0 ↔
      ∀ d ∈ decisionsOf hits, d.unlinked (decisionsOf hits) = false := by
    rw [List.countP_eq_zero]
    simp
  rw [← hzero, ← counted_iff, ← memCount_dropUnlinked]
  constructor
  · intro h
    exact ⟨congrArg DecisionAnswer.modelHint h, congrArg DecisionAnswer.memoryCoverage h⟩
  · -- the answer depends on the unlinked decisions through their count alone
    rintro ⟨hhint, hcov⟩
    calc answerTo gitFileHash repoPath summary sortSlice anchors hasGraphData hits
        = ⟨(answerTo gitFileHash repoPath summary sortSlice anchors hasGraphData hits).decisions,
            (answerTo gitFileHash repoPath summary sortSlice anchors hasGraphData hits).instructions,
            modelHint (buildAllMemories gitFileHash repoPath hits).memCount,
            memoryCoverage (buildAllMemories gitFileHash repoPath hits).memCount⟩ := rfl
      _ = answerTo gitFileHash repoPath summary sortSlice anchors hasGraphData (dropUnlinked hits) := by
          rw [hhint, hcov, ← hdecisions, ← hinstructions]
          rfl

end Runs

/-! ### A decision that lives on -/

/-- A decision memory with this name, status and predecessor. -/
def decisionHit (name status supersedes : String) : TypedHit ℚ where
  key := "mem:r:decision:" ++ name
  score := 1 / 10
  fields := fun f =>
    if f = "name" then name else if f = "status" then status else if f = "supersedes" then supersedes
    else if f = "source" then "agent" else ""
  type := "decision"

/-- Two decisions that replace one. -/
def splitHits : List (TypedHit ℚ) :=
  [decisionHit "use-redis" "superseded" "", decisionHit "cache-in-redis" "active" "use-redis",
    decisionHit "store-in-postgres" "active" "use-redis"]

/-- A superseded decision alone. -/
def loneHits : List (TypedHit ℚ) := [decisionHit "use-redis" "superseded" ""]

/-- A decision and the one it replaces. -/
def pairHits : List (TypedHit ℚ) :=
  [decisionHit "use-redis" "superseded" "", decisionHit "store-in-postgres" "active" "use-redis"]

/-- The law holds of a pair. -/
theorem pairHits_lineage :
    ((decisionsOf pairHits).map (·.name)).Nodup ∧
      answerTo (fun _ _ => "") "" id (SliceSort.stable ℚ) [] true pairHits
          = answerTo (fun _ _ => "") "" id (SliceSort.stable ℚ) [] true (dropUnlinked pairHits) ∧
        LineageOnly (decisionsOf pairHits)
          (answerTo (fun _ _ => "") "" id (SliceSort.stable ℚ) [] true pairHits).decisions := by
  have hnodup : ((decisionsOf pairHits).map (·.name)).Nodup := by decide +kernel
  have hcond : (∀ d ∈ decisionsOf pairHits, d.unlinked (decisionsOf pairHits) = false) ∧
      ∀ d ∈ decisionsOf pairHits, d.superseded = true → successors (decisionsOf pairHits) d ≤ 1 := by
    decide +kernel
  exact ⟨hnodup, (decisions_lineage_iff (fun _ _ => "") "" id (SliceSort.stable ℚ) [] true pairHits hnodup).mpr
    ⟨.inl hcond.1, hcond.2⟩⟩

/-- A decision that two others replace is listed twice; one that nothing replaces makes the answer recommend another
model and claim that memories cover the query. -/
theorem superseded_counts :
    ((decisionsOf splitHits).map (·.name)).Nodup ∧
      ¬LineageOnly (decisionsOf splitHits)
        (answerTo (fun _ _ => "") "" id (SliceSort.stable ℚ) [] true splitHits).decisions ∧
    ((decisionsOf loneHits).map (·.name)).Nodup ∧ dropUnlinked loneHits = [] ∧
      (answerTo (fun _ _ => "") "" id (SliceSort.stable ℚ) [] true loneHits).modelHint.model = "sonnet" ∧
      (answerTo (fun _ _ => "") "" id (SliceSort.stable ℚ) [] true (dropUnlinked loneHits)).modelHint.model = "opus" ∧
      (answerTo (fun _ _ => "") "" id (SliceSort.stable ℚ) [] true loneHits).memoryCoverage = some (1 / 10) ∧
      (answerTo (fun _ _ => "") "" id (SliceSort.stable ℚ) [] true (dropUnlinked loneHits)).memoryCoverage = none := by
  refine ⟨by decide +kernel, fun h => ?_, by decide +kernel, ?_, by decide +kernel, by decide +kernel,
    by decide +kernel, by decide +kernel⟩
  · have htwice : ¬∀ d ∈ decisionsOf splitHits, d.superseded = true →
        (decisionContext (decisionsOf splitHits)).count d.entry ≤ 1 := by
      decide +kernel
    exact htwice h.superseded
  · have hempty : (dropUnlinked loneHits).length = 0 := by decide +kernel
    exact List.length_eq_zero_iff.mp hempty

end Devrouter
