import Mathlib.Data.List.Infix
import Mathlib.Data.Rat.Init
import Devrouter.Memory.Overlay
import Devrouter.Router.Plan

/-!
# The relevance gate of memories

Model of the relevance gate of `HandleQueryWithPlan` in `internal/router/router.go` (distance floor, plan
filter, false-positive demotion, ranking) and of its second copy, `memorySource.recall` in
`source_adapters.go`, which gets the plan through a `retrieval.Request` (`buildRetrievalRequest`,
`planFromRequest`).

Both copies come down to the same list, filtered and demoted hit by hit (`relevanceGate_eq`,
`recall_eq`); they differ in what the plan filter makes of an auto-anchored must term, since a request has
no place for the flag.
-/

namespace Devrouter

open Memory (contains)

/-! ### Hits -/

/-- The operations of `float64` that scores are computed with. -/
class Scores (R : Type) extends Zero R, One R, Add R, Sub R, Mul R, Div R, NatCast R, IntCast R, LT R, LE R, BEq R,
    OfScientific R where
  decLT : DecidableLT R
  decLE : DecidableLE R

attribute [reducible, instance] Scores.decLT Scores.decLE

/-- `memory.MemoryHit`. A field that is missing is empty. -/
structure MemoryHit (R : Type) where
  key : String
  score : R
  fields : String → String

/-- `memory.FPInfo`. -/
structure FPInfo (R : Type) where
  sim : R
  count : ℤ

/-- The store of memories, as far as a query reads it. -/
structure MemoryStore (R : Type) where
  searchAllWithEmbed : List R → String → String → List (MemoryHit R)
  searchAll : String → String → String → List (MemoryHit R)
  /-- What the false positives of a memory say about an embedding; none when it has none. -/
  falsePositive : List R → String → Option (FPInfo R)
  /-- Whether the false positives can be read. -/
  reachable : Bool

section Gate

variable {R : Type} [Scores R] (L : RuneLower)

/-- `dropBelowFloor`. -/
def dropBelowFloor (hits : List (MemoryHit R)) (maxDist : R) : List (MemoryHit R) :=
  if hits = [] ∨ maxDist ≤ 0 then hits
  else hits.filter fun h => !(decide (0 < h.score) && decide (maxDist < h.score))

def hitSimilarity (score : R) : R :=
  let sim := 1 - score
  if sim < 0 then 0 else if 1 < sim then 1 else sim

/-- `joinLower`. -/
def joinLower (fields : String → String) (keys : List String) : String :=
  String.join (((keys.map fields).filter (· ≠ "")).map fun v => L.lower v ++ " ")

def memoryStructuralText (h : MemoryHit R) : String :=
  joinLower L h.fields ["name", "path", "file", "files", "key_symbols", "entry_points", "scope"]

def memoryFreetextText (h : MemoryHit R) : String := joinLower L h.fields ["purpose", "rationale", "decision"]

/-- Whether a term, trimmed and in lower case, occurs in a text. -/
def termOccurs (text t : String) : Bool :=
  let t := L.lower (trimSpace t)
  decide (t ≠ "") && contains text t

def countMatchingTerms (text : String) (terms : List String) : ℕ :=
  if text = "" then 0 else terms.countP (termOccurs L text)

def containsAnyTerm (text : String) (terms : List String) : Bool := terms.any (termOccurs L text)

def hasTestMarker (p : String) : Bool :=
  contains p "_test.go" || contains p "/test/" || contains p "/tests/" || hasPrefix p "test/" || hasPrefix p "tests/"

def shouldExcludeMemory (h : MemoryHit R) (excludes : List String) : Bool :=
  let name := L.lower (h.fields "name")
  let paths := [L.lower (h.fields "path"), L.lower (h.fields "file"), L.lower (h.fields "files")]
  excludes.any fun e =>
    let e := L.lower (trimSpace e)
    if e = "test" then paths.any hasTestMarker || hasPrefix name "test"
    else if e = "mock" then (paths.any fun p => contains p "/mock") || hasPrefix name "mock"
    else if e = "fixture" then paths.any fun p => contains p "/fixture"
    else false

def filterMemoriesByPlan (hits : List (MemoryHit R)) (plan : QueryPlan) : List (MemoryHit R) :=
  let applyMust := decide (plan.mustTerms ≠ []) && !plan.mustAutoAnchored
  if !applyMust && decide (plan.excludeTerms = []) then hits
  else
    hits.filter fun h =>
      !(applyMust && !containsAnyTerm L (memoryStructuralText L h) plan.mustTerms) &&
        !shouldExcludeMemory L h plan.excludeTerms

/-! ### False positives -/

/-- `FPDistancePenalty`. -/
def fpDistancePenalty (fp : FPInfo R) : R :=
  if fp.count = 0 ∨ fp.sim < 0.70 then 0
  else
    let w : R := (fp.count : R) / ((3 : ℤ) : R)
    let w := if 1 < w then 1 else w
    0.20 * w * fp.sim

/-- `EmbedDim`. -/
def embedDim : ℕ := 768

/-- `BatchFalsePositiveSimilarity`; none for an error. -/
def batchFalsePositiveSimilarity (mem : MemoryStore R) (memKeys : List String) (queryEmbedding : List R) :
    Option (List (String × FPInfo R)) :=
  if memKeys = [] then some []
  else if queryEmbedding.length ≠ embedDim then none
  else if !mem.reachable then none
  else some (memKeys.filterMap fun k => (mem.falsePositive queryEmbedding k).map fun fp => (k, fp))

/-- The penalty on a hit, unless it has none. -/
def hitPenalty (fpMap : List (String × FPInfo R)) (h : MemoryHit R) : Option R :=
  match fpMap.lookup h.key with
  | none => none
  | some fp => if fpDistancePenalty fp ≤ 0 then none else some (fpDistancePenalty fp)

def demoteHit (fpMap : List (String × FPInfo R)) (h : MemoryHit R) : MemoryHit R :=
  match hitPenalty fpMap h with
  | none => h
  | some penalty => { h with score := h.score + penalty }

/-- `applyFPPenalties`: the hits as it leaves them, and how many were demoted. -/
def applyFPPenalties (mem : MemoryStore R) (hits : List (MemoryHit R)) (queryEmbed : List R) :
    List (MemoryHit R) × ℕ :=
  if hits = [] ∨ queryEmbed = [] then (hits, 0)
  else
    let keys := (hits.map (·.key)).filter (· ≠ "")
    if keys = [] then (hits, 0)
    else
      match batchFalsePositiveSimilarity mem keys queryEmbed with
      | none => (hits, 0)
      | some [] => (hits, 0)
      | some fpMap => (hits.map (demoteHit fpMap), hits.countP fun h => (hitPenalty fpMap h).isSome)

/-! ### Ranking -/

/-- The rank of a hit. -/
def planRank (shouldTerms : List String) (h : MemoryHit R) : R :=
  let rank := hitSimilarity h.score
  if shouldTerms = [] then rank
  else
    rank + 0.10 * (countMatchingTerms L (memoryStructuralText L h) shouldTerms : R)
      + 0.05 * (countMatchingTerms L (memoryFreetextText L h) shouldTerms : R)

/-- The order of the sort in `rankByPlan`: by rank, the highest first, then by position. -/
def rankedBefore (a b : (MemoryHit R × R) × ℕ) : Bool :=
  if a.1.2 != b.1.2 then decide (b.1.2 < a.1.2) else decide (a.2 < b.2)

def rankByPlan (hits : List (MemoryHit R)) (plan : QueryPlan) : List (MemoryHit R) :=
  (((hits.map fun h => (h, planRank L plan.shouldTerms h)).zipIdx).mergeSort fun a b => !rankedBefore b a).map
    fun s => s.1.1

/-- The hints of `buildAllMemories`: what the automatic memories point to. -/
def autoHints (hits : List (MemoryHit R)) : List String :=
  ((hits.filter fun h => h.fields "source" = "auto").flatMap fun h =>
    (["path", "file", "name"].map h.fields).filter (· ≠ "")).eraseDups

/-- The gate in `HandleQueryWithPlan`. -/
def relevanceGate (mem : MemoryStore R) (maxDist : R) (queryEmbed : List R) (plan : QueryPlan)
    (rawHits : List (MemoryHit R)) : List (MemoryHit R) :=
  let flooredHits := dropBelowFloor rawHits maxDist
  let filteredHits := filterMemoriesByPlan L flooredHits plan
  let (filteredHits, demoted) := applyFPPenalties mem filteredHits queryEmbed
  let filteredHits := if demoted > 0 then dropBelowFloor filteredHits maxDist else filteredHits
  rankByPlan L filteredHits plan

/-- The recall of `HandleQueryWithPlan`. -/
def searchMemories (mem : MemoryStore R) (query repo branch : String) (queryEmbed : List R) : List (MemoryHit R) :=
  if queryEmbed ≠ [] then mem.searchAllWithEmbed queryEmbed repo branch else mem.searchAll query repo branch

/-! ### The adapter -/

structure Signals where
  paths : List String
  symbols : List String
  terms : List String
  deriving DecidableEq, Repr

/-- `retrieval.Request`. -/
structure RetrievalRequest (R : Type) where
  query : String
  repo : String
  branch : String
  embed : List R
  intent : String
  mustTerms : List String
  shouldTerms : List String
  excludeTerms : List String
  contextHints : List String
  signals : Signals
  maxDocs : ℤ
  expand : Bool

def signalsFromAutoHints (hints : List String) : Signals where
  paths := (hints.filter (· ≠ "")).filter fun h => h.toList.any fun c => c ∈ ['/', '.']
  symbols := (hints.filter (· ≠ "")).filter fun h => !h.toList.any fun c => c ∈ ['/', '.']
  terms := []

def dedupStrings (xs : List String) : List String := (xs.filter (· ≠ "")).eraseDups

def buildRetrievalRequest (query repo branch : String) (embed : List R) (intent : String) (plan : QueryPlan)
    (autoHints : List String) : RetrievalRequest R where
  query := query
  repo := repo
  branch := branch
  embed := embed
  intent := intent
  mustTerms := plan.mustTerms
  shouldTerms := plan.shouldTerms
  excludeTerms := plan.excludeTerms
  contextHints := plan.contextHints
  signals := { signalsFromAutoHints autoHints with terms := dedupStrings (plan.mustTerms ++ plan.shouldTerms) }
  maxDocs := 0
  expand := false

/-- `planFromRequest`: phrases and the auto-anchor flag stay at their zero values. -/
def planFromRequest (req : RetrievalRequest R) : QueryPlan where
  mustTerms := req.mustTerms
  shouldTerms := req.shouldTerms
  excludeTerms := req.excludeTerms
  phrases := []
  contextHints := req.contextHints
  mustAutoAnchored := false

/-- `memorySource.recall`. -/
def MemorySource.recall (mem : MemoryStore R) (maxDist : R) (req : RetrievalRequest R) : List (MemoryHit R) :=
  let plan := planFromRequest req
  let raw := if req.embed ≠ [] then mem.searchAllWithEmbed req.embed req.repo req.branch
    else mem.searchAll req.query req.repo req.branch
  let hits := dropBelowFloor raw maxDist
  let hits := filterMemoriesByPlan L hits plan
  let (hits, demoted) := applyFPPenalties mem hits req.embed
  let hits := if demoted > 0 then dropBelowFloor hits maxDist else hits
  rankByPlan L hits plan

/-- `memorySource.Signals`. -/
def memorySignals (mem : MemoryStore R) (maxDist : R) (req : RetrievalRequest R) : Signals :=
  signalsFromAutoHints (autoHints (MemorySource.recall L mem maxDist req))

end Gate

/-! ### Hit by hit -/

section Pointwise

variable {R : Type} [Scores R] (L : RuneLower)

/-- Whether a score passes the floor. -/
def passesFloor (maxDist : R) (h : MemoryHit R) : Bool :=
  decide (maxDist ≤ 0) || !(decide (0 < h.score) && decide (maxDist < h.score))

/-- Whether the plan filter keeps a hit. -/
def keptByPlan (plan : QueryPlan) (h : MemoryHit R) : Bool :=
  !((decide (plan.mustTerms ≠ []) && !plan.mustAutoAnchored) &&
      !containsAnyTerm L (memoryStructuralText L h) plan.mustTerms) &&
    !shouldExcludeMemory L h plan.excludeTerms

/-- What is known of a memory's false positives when the query has the embedding. -/
def knownFalsePositive (mem : MemoryStore R) (queryEmbed : List R) (key : String) : Option (FPInfo R) :=
  if key = "" ∨ queryEmbed.length ≠ embedDim ∨ mem.reachable = false then none
  else mem.falsePositive queryEmbed key

/-- The penalty on a hit, from the store. -/
def penaltyOf (mem : MemoryStore R) (queryEmbed : List R) (h : MemoryHit R) : Option R :=
  match knownFalsePositive mem queryEmbed h.key with
  | none => none
  | some fp => if fpDistancePenalty fp ≤ 0 then none else some (fpDistancePenalty fp)

/-- A hit with its penalty. -/
def demoted (mem : MemoryStore R) (queryEmbed : List R) (h : MemoryHit R) : MemoryHit R :=
  match penaltyOf mem queryEmbed h with
  | none => h
  | some penalty => { h with score := h.score + penalty }

variable {L} {mem : MemoryStore R} {maxDist : R} {queryEmbed : List R}

theorem dropBelowFloor_eq (hits : List (MemoryHit R)) :
    dropBelowFloor hits maxDist = hits.filter (passesFloor maxDist) := by
  unfold dropBelowFloor
  by_cases hd : maxDist ≤ 0
  · rw [if_pos (.inr hd)]
    refine (List.filter_eq_self.mpr fun h _ => ?_).symm
    simp [passesFloor, hd]
  · by_cases hn : hits = []
    · rw [if_pos (.inl hn), hn]
      rfl
    · rw [if_neg (by tauto)]
      refine List.filter_congr fun h _ => ?_
      simp [passesFloor, hd]

omit [Scores R] in
theorem filterMemoriesByPlan_eq (hits : List (MemoryHit R)) (plan : QueryPlan) :
    filterMemoriesByPlan L hits plan = hits.filter (keptByPlan L plan) := by
  unfold filterMemoriesByPlan
  dsimp only
  split_ifs with hnone
  · -- without applied must terms and exclude terms nothing is dropped
    refine (List.filter_eq_self.mpr fun h _ => ?_).symm
    obtain ⟨hmust, hexclude⟩ := (Bool.and_eq_true _ _).mp hnone
    have happly : (decide (plan.mustTerms ≠ []) && !plan.mustAutoAnchored) = false := by
      rwa [Bool.not_eq_true'] at hmust
    have hempty : plan.excludeTerms = [] := of_decide_eq_true hexclude
    unfold keptByPlan
    rw [happly, hempty]
    rfl
  · rfl

omit [Scores R] in
/-- A lookup in the batch is a lookup in the store. -/
theorem lookup_batch (keys : List String) (key : String) :
    (keys.filterMap fun k => (mem.falsePositive queryEmbed k).map fun fp => (k, fp)).lookup key =
      if key ∈ keys then mem.falsePositive queryEmbed key else none := by
  induction keys with
  | nil => rfl
  | cons k keys ih =>
    by_cases hk : key = k
    · subst hk
      -- the key is asked for, and is in the batch when the memory knows it
      rw [if_pos List.mem_cons_self]
      cases hfp : mem.falsePositive queryEmbed key with
      | none =>
        rw [List.filterMap_cons_none (by rw [hfp]; rfl), ih, hfp, ite_self]
      | some fp =>
        rw [List.filterMap_cons_some (by rw [hfp]; rfl), List.lookup_cons_self]
    · have hmem : key ∈ k :: keys ↔ key ∈ keys := by simp [hk]
      rw [if_congr hmem rfl rfl, ← ih]
      cases hfp : mem.falsePositive queryEmbed k with
      | none => rw [List.filterMap_cons_none (by rw [hfp]; rfl)]
      | some fp =>
        -- another key of the batch is not the one that is looked up
        have hne : (key == k) = false := beq_false_of_ne hk
        rw [List.filterMap_cons_some (by rw [hfp]; rfl), List.lookup_cons, hne]

omit [Scores R] in
/-- A batch fails as a whole, for every key. -/
theorem batch_eq_none {keys : List String} (h : batchFalsePositiveSimilarity mem keys queryEmbed = none) :
    queryEmbed.length ≠ embedDim ∨ mem.reachable = false := by
  unfold batchFalsePositiveSimilarity at h
  split_ifs at h with hkeys hdim hdown
  · exact .inl hdim
  · exact .inr (by simpa using hdown)

omit [Scores R] in
/-- A batch that succeeds answers for each hit what is known of it. -/
theorem lookup_of_batch {hits : List (MemoryHit R)} (hkeys : (hits.map (·.key)).filter (· ≠ "") ≠ [])
    {fpMap : List (String × FPInfo R)}
    (hbatch : batchFalsePositiveSimilarity mem ((hits.map (·.key)).filter (· ≠ "")) queryEmbed = some fpMap) :
    ∀ h ∈ hits, fpMap.lookup h.key = knownFalsePositive mem queryEmbed h.key := by
  intro h hh
  have hmem : h.key ∈ (hits.map (·.key)).filter (· ≠ "") ↔ h.key ≠ "" := by
    rw [List.mem_filter]
    exact ⟨fun h => by simpa using h.2, fun hne => ⟨List.mem_map_of_mem hh, by simpa using hne⟩⟩
  unfold batchFalsePositiveSimilarity at hbatch
  rw [if_neg hkeys] at hbatch
  split_ifs at hbatch with hdim hdown
  obtain rfl := Option.some.inj hbatch
  have hreachable : ¬ mem.reachable = false := fun h => hdown (by rw [h]; rfl)
  rw [lookup_batch, if_congr hmem rfl rfl]
  unfold knownFalsePositive
  by_cases hkey : h.key = ""
  · rw [if_neg (not_not.mpr hkey), if_pos (.inl hkey)]
  · rw [if_pos hkey, if_neg (by tauto)]

/-- Where nothing is known of the hits, nothing is demoted. -/
theorem penalties_of_unknown {hits : List (MemoryHit R)}
    (h : ∀ h ∈ hits, knownFalsePositive mem queryEmbed h.key = none) :
    (hits, 0) = (hits.map (demoted mem queryEmbed), hits.countP fun h => (penaltyOf mem queryEmbed h).isSome) := by
  have hpen : ∀ h ∈ hits, penaltyOf mem queryEmbed h = none := by
    intro hit hh
    unfold penaltyOf
    rw [h hit hh]
  have hmap : hits.map (demoted mem queryEmbed) = hits := by
    refine (List.map_congr_left fun h hh => ?_).trans (List.map_id hits)
    unfold demoted
    rw [hpen h hh]
    rfl
  have hcount : (hits.countP fun h => (penaltyOf mem queryEmbed h).isSome) = 0 := by
    rw [List.countP_eq_zero]
    intro h hh
    rw [hpen h hh]
    simp
  rw [hmap, hcount]

/-- Where the batch answers what is known, each hit has its own penalty. -/
theorem penalties_of_lookup {hits : List (MemoryHit R)} {fpMap : List (String × FPInfo R)}
    (h : ∀ h ∈ hits, fpMap.lookup h.key = knownFalsePositive mem queryEmbed h.key) :
    (hits.map (demoteHit fpMap), hits.countP fun h => (hitPenalty fpMap h).isSome) =
      (hits.map (demoted mem queryEmbed), hits.countP fun h => (penaltyOf mem queryEmbed h).isSome) := by
  have hpen : ∀ h ∈ hits, hitPenalty fpMap h = penaltyOf mem queryEmbed h := by
    intro hit hh
    unfold hitPenalty penaltyOf
    rw [h hit hh]
  have hhits : hits.map (demoteHit fpMap) = hits.map (demoted mem queryEmbed) := by
    refine List.map_congr_left fun h hh => ?_
    unfold demoteHit demoted
    rw [hpen h hh]
  have hcount : (hits.countP fun h => (hitPenalty fpMap h).isSome) =
      hits.countP fun h => (penaltyOf mem queryEmbed h).isSome := by
    refine List.countP_congr fun h hh => ?_
    rw [hpen h hh]
  rw [hhits, hcount]

/-- **Penalties** are put on the hits one by one. -/
theorem applyFPPenalties_eq (hits : List (MemoryHit R)) :
    applyFPPenalties mem hits queryEmbed =
      (hits.map (demoted mem queryEmbed), hits.countP fun h => (penaltyOf mem queryEmbed h).isSome) := by
  unfold applyFPPenalties
  dsimp only
  split_ifs with hempty hkeys
  · -- without hits or without an embedding nothing is looked up
    refine penalties_of_unknown fun h hh => ?_
    obtain rfl | rfl := hempty
    · exact absurd hh List.not_mem_nil
    · exact if_pos (.inr (.inl (by simp [embedDim])))
  · refine penalties_of_unknown fun h hh => if_pos (.inl ?_)
    by_contra hne
    -- no hit has a key, so none is demoted
    have hmem : h.key ∈ (hits.map (·.key)).filter (· ≠ "") :=
      List.mem_filter.mpr ⟨List.mem_map_of_mem hh, by simpa using hne⟩
    rw [hkeys] at hmem
    exact absurd hmem List.not_mem_nil
  · -- a batch that fails demotes nothing
    cases hbatch : batchFalsePositiveSimilarity mem ((hits.map (·.key)).filter (· ≠ "")) queryEmbed with
    | none => exact penalties_of_unknown fun h _ => if_pos (.inr (batch_eq_none hbatch))
    | some fpMap =>
      have hlookup := lookup_of_batch hkeys hbatch
      cases fpMap with
      | nil => exact penalties_of_unknown fun h hh => (hlookup h hh).symm
      | cons e es => exact penalties_of_lookup hlookup

/-- **Demotion** and the second floor, hit by hit: hits that pass the floor are demoted and pass it again. -/
theorem refloor_eq {hits : List (MemoryHit R)} (hpass : ∀ h ∈ hits, passesFloor maxDist h = true) :
    (if (applyFPPenalties mem hits queryEmbed).2 > 0 then
        dropBelowFloor (applyFPPenalties mem hits queryEmbed).1 maxDist
      else (applyFPPenalties mem hits queryEmbed).1) =
      (hits.filter fun h => passesFloor maxDist (demoted mem queryEmbed h)).map (demoted mem queryEmbed) := by
  rw [applyFPPenalties_eq]
  dsimp only
  rw [dropBelowFloor_eq, List.filter_map]
  split_ifs with hcount
  · rfl
  · -- nobody was demoted, so all of them pass again
    have hsame : ∀ h ∈ hits, demoted mem queryEmbed h = h := by
      intro h hh
      have hnone : ¬ (penaltyOf mem queryEmbed h).isSome = true := by
        intro hsome
        exact hcount (List.countP_pos_iff.mpr ⟨h, hh, hsome⟩)
      unfold demoted
      rw [Option.not_isSome_iff_eq_none.mp hnone]
    have hall : (hits.filter fun h => passesFloor maxDist (demoted mem queryEmbed h)) = hits := by
      refine List.filter_eq_self.mpr fun h hh => ?_
      rw [hsame h hh]
      exact hpass h hh
    rw [hall]

/-- The hits of a gate in their old order, before the ranking. -/
def gated (L : RuneLower) (mem : MemoryStore R) (maxDist : R) (queryEmbed : List R) (plan : QueryPlan)
    (raw : List (MemoryHit R)) : List (MemoryHit R) :=
  (((raw.filter (passesFloor maxDist)).filter (keptByPlan L plan)).filter fun h =>
    passesFloor maxDist (demoted mem queryEmbed h)).map (demoted mem queryEmbed)

theorem relevanceGate_eq (plan : QueryPlan) (raw : List (MemoryHit R)) :
    relevanceGate L mem maxDist queryEmbed plan raw =
      rankByPlan L (gated L mem maxDist queryEmbed plan raw) plan := by
  have hpass : ∀ h ∈ (raw.filter (passesFloor maxDist)).filter (keptByPlan L plan),
      passesFloor maxDist h = true := by
    intro h hh
    exact (List.mem_filter.mp (List.mem_filter.mp hh).1).2
  unfold relevanceGate gated
  dsimp only
  rw [dropBelowFloor_eq, filterMemoriesByPlan_eq, refloor_eq hpass]

theorem recall_eq (req : RetrievalRequest R) :
    MemorySource.recall L mem maxDist req =
      rankByPlan L (gated L mem maxDist req.embed (planFromRequest req)
        (searchMemories mem req.query req.repo req.branch req.embed)) (planFromRequest req) :=
  relevanceGate_eq (planFromRequest req) _

theorem zipIdx_ranked {α β : Type} (rank : α → β) (l : List α) :
    ((l.map fun a => (a, rank a)).zipIdx).map (fun s => s.1.1) = l := by
  have hsplit : (fun s : (α × β) × ℕ => s.1.1) = Prod.fst ∘ Prod.fst := rfl
  rw [hsplit, ← List.map_map, List.zipIdx_map_fst, List.map_map]
  exact List.map_id l

/-- Sorting by ranks and places reorders. -/
theorem ranked_perm {α β : Type} (rank : α → β) (le : (α × β) × ℕ → (α × β) × ℕ → Bool) (l : List α) :
    ((((l.map fun a => (a, rank a)).zipIdx).mergeSort le).map fun s => s.1.1).Perm l := by
  have hperm := (List.mergeSort_perm (l.map fun a => (a, rank a)).zipIdx le).map fun s => s.1.1
  rwa [zipIdx_ranked] at hperm

theorem rankByPlan_perm (hits : List (MemoryHit R)) (plan : QueryPlan) : (rankByPlan L hits plan).Perm hits :=
  ranked_perm (planRank L plan.shouldTerms) _ hits

end Pointwise

/-! ### The two copies -/

section Agreement

variable {R : Type} [Scores R] {L : RuneLower} {mem : MemoryStore R} {maxDist : R} {queryEmbed : List R}

/-- A hit the gate keeps when it leaves the must terms aside: it passes the floor, also with its penalty, and
is not excluded. -/
def Survives (L : RuneLower) (mem : MemoryStore R) (maxDist : R) (queryEmbed : List R) (plan : QueryPlan)
    (h : MemoryHit R) : Prop :=
  passesFloor maxDist h = true ∧ shouldExcludeMemory L h plan.excludeTerms = false ∧
    passesFloor maxDist (demoted mem queryEmbed h) = true

/-- The plan without its flag, as it comes out of a request. -/
def QueryPlan.requested (plan : QueryPlan) : QueryPlan := { plan with phrases := [], mustAutoAnchored := false }

omit [Scores R] in
theorem planFromRequest_build (query repo branch : String) (embed : List R) (intent : String) (plan : QueryPlan)
    (hints : List String) :
    planFromRequest (buildRetrievalRequest query repo branch embed intent plan hints) = plan.requested := rfl

omit [Scores R] in
/-- A request keeps a hit that the plan keeps, unless it misses an auto-anchored must term. -/
theorem keptByPlan_requested (plan : QueryPlan) (h : MemoryHit R) :
    keptByPlan L plan.requested h =
      (keptByPlan L plan h && (decide (plan.mustAutoAnchored = false ∨ plan.mustTerms = []) ||
        containsAnyTerm L (memoryStructuralText L h) plan.mustTerms)) := by
  unfold keptByPlan QueryPlan.requested
  dsimp only
  by_cases hmust : plan.mustTerms = []
  · simp [hmust]
  · cases plan.mustAutoAnchored with
    | false => simp
    | true =>
      cases containsAnyTerm L (memoryStructuralText L h) plan.mustTerms with
      | false => simp [hmust]
      | true => simp

/-- The hits of a request are those of the plan that have its must terms. -/
theorem gated_requested (plan : QueryPlan) (raw : List (MemoryHit R)) :
    gated L mem maxDist queryEmbed plan.requested raw =
      ((((raw.filter (passesFloor maxDist)).filter (keptByPlan L plan)).filter fun h =>
        passesFloor maxDist (demoted mem queryEmbed h)).filter fun h =>
          decide (plan.mustAutoAnchored = false ∨ plan.mustTerms = []) ||
            containsAnyTerm L (memoryStructuralText L h) plan.mustTerms).map (demoted mem queryEmbed) := by
  unfold gated
  congr 1
  simp only [List.filter_filter]
  refine List.filter_congr fun h _ => ?_
  rw [keptByPlan_requested]
  ac_rfl

/-- What is ranked for a request is what is ranked for its plan exactly when the flag of the plan drops
nothing. -/
theorem ranked_requested_iff (plan : QueryPlan) (raw : List (MemoryHit R)) :
    rankByPlan L (gated L mem maxDist queryEmbed plan.requested raw) plan =
        rankByPlan L (gated L mem maxDist queryEmbed plan raw) plan ↔
      plan.mustAutoAnchored = false ∨ plan.mustTerms = [] ∨
        ∀ h ∈ raw, Survives L mem maxDist queryEmbed plan h →
          containsAnyTerm L (memoryStructuralText L h) plan.mustTerms = true := by
  constructor
  · intro heq
    by_cases hplain : plan.mustAutoAnchored = false ∨ plan.mustTerms = []
    · exact hplain.imp_right .inl
    refine .inr (.inr fun h hmem hsurv => ?_)
    -- as many hits on both sides, so none was dropped
    have hlen : (gated L mem maxDist queryEmbed plan.requested raw).length =
        (gated L mem maxDist queryEmbed plan raw).length := by
      rw [← (rankByPlan_perm (L := L) _ plan).length_eq, heq, (rankByPlan_perm (L := L) _ plan).length_eq]
    rw [gated_requested] at hlen
    unfold gated at hlen
    rw [List.length_map, List.length_map, List.length_filter_eq_length_iff] at hlen
    have hkept : keptByPlan L plan h = true := by
      rw [not_or, Bool.not_eq_false] at hplain
      unfold keptByPlan
      rw [hplain.1, hsurv.2.1]
      simp
    have hany := hlen h (List.mem_filter.mpr ⟨List.mem_filter.mpr ⟨List.mem_filter.mpr ⟨hmem, hsurv.1⟩, hkept⟩,
      hsurv.2.2⟩)
    rwa [decide_eq_false hplain, Bool.false_or] at hany
  · intro hcond
    have hsame : gated L mem maxDist queryEmbed plan.requested raw = gated L mem maxDist queryEmbed plan raw := by
      rw [gated_requested]
      unfold gated
      congr 1
      refine List.filter_eq_self.mpr fun h hh => ?_
      obtain ⟨hh, hagain⟩ := List.mem_filter.mp hh
      obtain ⟨hh, hkept⟩ := List.mem_filter.mp hh
      obtain ⟨hmem, hfloor⟩ := List.mem_filter.mp hh
      rw [Bool.or_eq_true, decide_eq_true_eq]
      obtain hauto | hmust | hall := hcond
      · exact .inl (.inl hauto)
      · exact .inl (.inr hmust)
      · refine .inr (hall h hmem ⟨hfloor, ?_, hagain⟩)
        simpa using ((Bool.and_eq_true _ _).mp hkept).2
    rw [hsame]

/-- **The two copies agree** on a query exactly when its must terms come from the agent, or every hit that
survives the rest of the gate has the auto-anchored term in its names and paths. -/
theorem recall_eq_relevanceGate_iff (query repo branch intent : String) (plan : QueryPlan) (hints : List String) :
    (MemorySource.recall L mem maxDist (buildRetrievalRequest query repo branch queryEmbed intent plan hints) =
        relevanceGate L mem maxDist queryEmbed plan (searchMemories mem query repo branch queryEmbed) ∧
      memorySignals L mem maxDist (buildRetrievalRequest query repo branch queryEmbed intent plan hints) =
        signalsFromAutoHints (autoHints
          (relevanceGate L mem maxDist queryEmbed plan (searchMemories mem query repo branch queryEmbed)))) ↔
      plan.mustAutoAnchored = false ∨ plan.mustTerms = [] ∨
        ∀ h ∈ searchMemories mem query repo branch queryEmbed, Survives L mem maxDist queryEmbed plan h →
          containsAnyTerm L (memoryStructuralText L h) plan.mustTerms = true := by
  have hsignals : MemorySource.recall L mem maxDist
        (buildRetrievalRequest query repo branch queryEmbed intent plan hints) =
        relevanceGate L mem maxDist queryEmbed plan (searchMemories mem query repo branch queryEmbed) →
      memorySignals L mem maxDist (buildRetrievalRequest query repo branch queryEmbed intent plan hints) =
        signalsFromAutoHints (autoHints
          (relevanceGate L mem maxDist queryEmbed plan (searchMemories mem query repo branch queryEmbed))) := by
    intro h
    unfold memorySignals
    rw [h]
  rw [and_iff_left_of_imp hsignals, recall_eq, relevanceGate_eq, planFromRequest_build]
  -- ranking looks at the should terms only, which a request keeps
  exact ranked_requested_iff plan (searchMemories mem query repo branch queryEmbed)

end Agreement

instance : Scores ℚ where
  decLT := inferInstance
  decLE := inferInstance

/-- An automatic memory of a file, close to the query. -/
def cartHit : MemoryHit ℚ :=
  ⟨"mem:shop:file:src-cart.go", 3 / 10, fun k => if k = "path" then "src/cart.go" else if k = "source" then "auto" else ""⟩

/-- A store that finds only this memory. -/
def cartStore : MemoryStore ℚ := ⟨fun _ _ _ => [cartHit], fun _ _ _ => [cartHit], fun _ _ => none, true⟩

/-- The plan of a query without an agent plan: its rarest word is the must term. -/
def userPlan : QueryPlan :=
  usedPlan asciiRunes (fun w => if w = "user" then some 3 else some 0) "where does the user place an order" none

/-- **The flag is lost**: the memory of the file is a hit for the query and none for its request. -/
theorem autoAnchored_dropped :
    userPlan.mustTerms = ["user"] ∧
      MemorySource.recall asciiRunes cartStore 0.60 (buildRetrievalRequest "where does the user place an order" "shop" "main"
          (List.replicate 768 1) "flow" userPlan []) ≠
        relevanceGate asciiRunes cartStore 0.60 (List.replicate 768 1) userPlan
          (searchMemories cartStore "where does the user place an order" "shop" "main" (List.replicate 768 1)) ∧
      (memorySignals asciiRunes cartStore 0.60 (buildRetrievalRequest "where does the user place an order" "shop"
          "main" (List.replicate 768 1) "flow" userPlan [])).paths = [] ∧
        (signalsFromAutoHints (autoHints (relevanceGate asciiRunes cartStore 0.60 (List.replicate 768 1) userPlan
          (searchMemories cartStore "where does the user place an order" "shop" "main"
            (List.replicate 768 1))))).paths = ["src/cart.go"] := by
  refine ⟨by decide +kernel, fun h => ?_, by decide +kernel, by decide +kernel⟩
  have hkeys := congrArg (List.map MemoryHit.key) h
  exact absurd hkeys (by decide +kernel)

end Devrouter
