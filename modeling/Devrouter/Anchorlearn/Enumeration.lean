import Devrouter.Anchorlearn.ColdStart
import Devrouter.Router.CallChain

/-!
# The order of the discovered set

Model of `Decide` and `DecideDiscoveredOnly` in `internal/anchorlearn/learner.go` with what a call has no
control over: in which order the server lists the discovered set, in which order the parallel probes of
`parallel.go` complete, and what is drawn (`Enumeration`).

The pool is sorted by score and pattern id, and ties are kept in the order of the pool. Candidates that tie
have one id, and those of one id stand in the pool in the order of the services, however the set is listed.
-/

namespace Devrouter.Anchorlearn

/-! ### A call and what it has no control over -/

/-- The orders and draws of one call. How many probes are in flight at a time only restricts the order in
which they complete. -/
structure Enumeration where
  listed : Shuffle String
  completed : Shuffle ℕ
  rng : Rng

/-- The store, with its sets listed in another order. -/
def StoreReads.listedBy (store : StoreReads) (listed : Shuffle String) : StoreReads where
  listDiscovered repo := listed.toFun (store.listDiscovered repo)
  listDiscovered_nodup repo := (listed.perm _).nodup_iff.mpr (store.listDiscovered_nodup repo)
  getPatternStats := store.getPatternStats
  getKeywordAffinity := store.getKeywordAffinity

section ListedBy

variable (store : StoreReads) (listed : Shuffle String)

@[simp] theorem listDiscovered_listedBy (repo : String) :
    (store.listedBy listed).listDiscovered repo = listed.toFun (store.listDiscovered repo) := rfl

@[simp] theorem portfolio_listedBy (l : Learner) (repo : String) :
    l.portfolio (store.listedBy listed) repo =
      l.patterns ++ (listed.toFun (store.listDiscovered repo)).map discoveredPattern := rfl

@[simp] theorem learnedAffinity_listedBy (keywords : List String) :
    learnedAffinity (store.listedBy listed) keywords = learnedAffinity store keywords := rfl

@[simp] theorem scoredPool_listedBy (probe : Option Probe) (repo : String) (kwScore : Pattern → ℚ)
    (pool : List Candidate) :
    scoredPool (store.listedBy listed) probe repo kwScore pool = scoredPool store probe repo kwScore pool := rfl

end ListedBy

/-- `runParallel`, a copy of the router's `parallelDo`. -/
def runParallel {β : Type} (completed : Shuffle ℕ) (n : ℕ) (fn : ℕ → β) (unset : β) : List β :=
  parallelDo completed n fn unset

/-- The slots of the probes, one a candidate. -/
def probeSlots (probe : Option Probe) (completed : Shuffle ℕ) (repo : String) (pool : List Candidate) : List Bool :=
  match probe with
  | none => List.replicate pool.length false
  | some fileExists =>
    runParallel completed pool.length (fun i => (pool[i]?.map fun c => fileExists repo c.path).getD false) false

/-- The merge of the probed pool: the candidates that are kept, with their scores. -/
def mergeProbed (store : StoreReads) (probe : Option Probe) (repo : String) (kwScore : Pattern → ℚ)
    (pool : List Candidate) (slots : List Bool) : List Candidate :=
  ((pool.zip slots).filter fun x => !(probe.isSome && !x.2)).map fun x => scoreCandidate store repo kwScore x.1

/-- `Decide`, under an enumeration. -/
def Learner.decideUnder (l : Learner) (e : Enumeration) (store : StoreReads) (probe : Option Probe)
    (repo query : String) (services : List String) (k : ℤ) : List Candidate :=
  if k ≤ 0 ∨ services = [] then []
  else
    -- the store lists its discovered anchors in the order of this call
    let store := store.listedBy e.listed
    let keywords := queryKeywords query
    let pool := candidatePool services (l.portfolio store repo)
    let scored := rankByScore (mergeProbed store probe repo
      (fun p => learnedAffinity store keywords p + staticAffinity keywords p) pool
      -- the probes complete in the order of this call, and only then the list is ranked
      (probeSlots probe e.completed repo pool))
    let scored :=
      if 0 < l.epsilon then epsilonGreedyShuffle store e.rng repo scored pool k.toNat l.epsilon else scored
    scored.take k.toNat

/-- `DecideDiscoveredOnly`, under an enumeration. -/
def Learner.decideDiscoveredOnlyUnder (e : Enumeration) (store : StoreReads) (probe : Option Probe)
    (repo query : String) (services : List String) (k : ℤ) : List Candidate :=
  if k ≤ 0 ∨ services = [] then []
  else
    let store := store.listedBy e.listed
    let discovered := store.listDiscovered repo
    if discovered = [] then []
    else
      let pool := candidatePool services (discovered.map discoveredPattern)
      let scored := mergeProbed store probe repo (learnedAffinity store (queryKeywords query)) pool
        (probeSlots probe e.completed repo pool)
      (rankByScore scored).take k.toNat

/-! ### The probes -/

/-- Each probe sets the slot of its own candidate. -/
theorem probeSlots_eq (probe : Option Probe) (completed : Shuffle ℕ) (repo : String) (pool : List Candidate) :
    probeSlots probe completed repo pool =
      pool.map fun c => probe.elim false fun fileExists => fileExists repo c.path := by
  cases probe with
  | none => exact List.map_const'.symm
  | some fileExists => exact parallelFor_eq completed pool (fun c => fileExists repo c.path) false

/-- **Completion does not matter**: what is merged are the survivors in the order of the pool. -/
theorem mergeProbed_eq (store : StoreReads) (probe : Option Probe) (completed : Shuffle ℕ) (repo : String)
    (kwScore : Pattern → ℚ) (pool : List Candidate) :
    mergeProbed store probe repo kwScore pool (probeSlots probe completed repo pool) =
      scoredPool store probe repo kwScore pool := by
  -- a slot that is not set keeps its candidate out, unless there is no probe
  have hkept : ((fun x : Candidate × Bool => !(probe.isSome && !x.2)) ∘
      fun c => (c, probe.elim false fun fileExists => fileExists repo c.path)) = survives probe repo := by
    funext c
    cases probe with
    | none => rfl
    | some fileExists => exact Bool.not_not _
  unfold mergeProbed scoredPool
  rw [probeSlots_eq, ← List.map_prod_left_eq_zip, List.filter_map, List.map_map, hkept]
  rfl

/-! ### The pool -/

/-- The candidates of one pattern id, in a pool. -/
theorem candidatePool_filter (services : List String) (patterns : List Pattern) (id : String) :
    (candidatePool services patterns).filter (fun c => decide (c.pattern.id = id)) =
      candidatePool services (patterns.filter fun p => decide (p.id = id)) := by
  unfold candidatePool
  rw [List.filter_flatMap]
  refine congrArg (List.flatMap · services) (funext fun svc => ?_)
  rw [List.filter_map]
  rfl

/-- Scoring changes no pattern. -/
theorem scoredPool_filter (store : StoreReads) (probe : Option Probe) (repo : String) (kwScore : Pattern → ℚ)
    (pool : List Candidate) (id : String) :
    (scoredPool store probe repo kwScore pool).filter (fun c => decide (c.pattern.id = id)) =
      scoredPool store probe repo kwScore (pool.filter fun c => decide (c.pattern.id = id)) := by
  unfold scoredPool
  rw [List.filter_map, List.filter_filter, List.filter_filter]
  refine congrArg (List.map _) (List.filter_congr fun c _ => ?_)
  exact Bool.and_comm _ _

/-- The discovered patterns of one id: as many as there are suffixes, so one or none. -/
theorem discovered_filter_perm {xs ys : List String} (h : xs.Perm ys) (id : String) :
    (xs.map discoveredPattern).filter (fun p => decide (p.id = id)) =
      (ys.map discoveredPattern).filter fun p => decide (p.id = id) := by
  have hsuffix : ∀ zs : List String, (zs.map discoveredPattern).filter (fun p => decide (p.id = id)) =
      (List.replicate (zs.count id) id).map discoveredPattern := by
    intro zs
    rw [List.filter_map]
    exact congrArg (List.map discoveredPattern) (List.filter_eq id)
  rw [hsuffix xs, hsuffix ys, h.count_eq]

/-- **The listing does not matter.** Candidates that tie have one id, and for each id the pool is the same
whatever order the discovered patterns stand in. -/
theorem ranked_listing (store : StoreReads) (probe : Option Probe) (repo : String) (kwScore : Pattern → ℚ)
    (services : List String) (patterns : List Pattern) {xs ys : List String} (h : xs.Perm ys) :
    rankByScore (scoredPool store probe repo kwScore
        (candidatePool services (patterns ++ xs.map discoveredPattern))) =
      rankByScore (scoredPool store probe repo kwScore
        (candidatePool services (patterns ++ ys.map discoveredPattern))) := by
  have htied : ∀ a b : Candidate, b.outranks a = false → a.outranks b = false → a.pattern.id = b.pattern.id := by
    intro a b hab hba
    obtain ⟨-, hle, hge⟩ := Descending.antisymm _ _ (outranks_eq_false_iff.mp hab) (outranks_eq_false_iff.mp hba)
    exact le_antisymm hle hge
  -- one id at a time the two pools are the same list: static patterns first, then at most one discovered
  refine List.insertionSort_congr_key htied fun id => ?_
  rw [scoredPool_filter, scoredPool_filter, candidatePool_filter, candidatePool_filter, List.filter_append,
    List.filter_append, discovered_filter_perm h]

/-! ### The decision -/

section Decision

variable (e : Enumeration) (store : StoreReads) (probe : Option Probe) (repo query : String)
  (services : List String) (k : ℤ)

/-- Without exploration, an enumeration decides as the store lists its sets. -/
theorem Learner.decideUnder_eq {l : Learner} (hepsilon : l.epsilon ≤ 0) (rng : Rng) :
    l.decideUnder e store probe repo query services k = l.decide store probe rng repo query services k := by
  rw [Learner.decide_of_epsilon hepsilon]
  unfold Learner.decideUnder
  simp only [if_neg (not_lt.mpr hepsilon), mergeProbed_eq, scoredPool_listedBy, learnedAffinity_listedBy,
    portfolio_listedBy]
  refine if_congr Iff.rfl rfl (congrArg (List.take k.toNat) ?_)
  exact ranked_listing store probe repo _ services l.patterns (e.listed.perm _)

theorem Learner.decideDiscoveredOnlyUnder_eq :
    Learner.decideDiscoveredOnlyUnder e store probe repo query services k =
      Learner.decideDiscoveredOnly store probe repo query services k := by
  have hnil : e.listed.toFun (store.listDiscovered repo) = [] ↔ store.listDiscovered repo = [] := by
    rw [← List.length_eq_zero_iff, (e.listed.perm _).length_eq, List.length_eq_zero_iff]
  unfold Learner.decideDiscoveredOnlyUnder Learner.decideDiscoveredOnly
  simp only [mergeProbed_eq, scoredPool_listedBy, learnedAffinity_listedBy, listDiscovered_listedBy]
  refine if_congr Iff.rfl rfl (if_congr hnil rfl (congrArg (List.take k.toNat) ?_))
  exact ranked_listing store probe repo _ services [] (e.listed.perm _)

end Decision

/-- Two calls that see one store decide alike, whatever their enumerations. -/
structure EnumerationBlind (l : Learner) (store : StoreReads) (probe : Option Probe) (repo query : String)
    (services : List String) (k : ℤ) : Prop where
  decide_eq : ∀ e e' : Enumeration, l.decideUnder e store probe repo query services k =
    l.decideUnder e' store probe repo query services k
  discoveredOnly_eq : ∀ e e' : Enumeration,
    Learner.decideDiscoveredOnlyUnder e store probe repo query services k =
      Learner.decideDiscoveredOnlyUnder e' store probe repo query services k

/-- **Decisions ignore enumeration order.** -/
theorem decide_enumerationBlind {l : Learner} (hepsilon : l.epsilon = 0) (store : StoreReads) (probe : Option Probe)
    (repo query : String) (services : List String) (k : ℤ) :
    EnumerationBlind l store probe repo query services k where
  decide_eq e e' := by
    rw [Learner.decideUnder_eq e store probe repo query services k hepsilon.le e.rng,
      Learner.decideUnder_eq e' store probe repo query services k hepsilon.le e.rng]
  discoveredOnly_eq e e' := by
    rw [Learner.decideDiscoveredOnlyUnder_eq, Learner.decideDiscoveredOnlyUnder_eq]

/-- Two suffixes were discovered in every repo. -/
def twoDiscovered : StoreReads where
  listDiscovered _ := ["web/handler.go", "jobs/run.go"]
  listDiscovered_nodup _ := by decide
  getPatternStats _ _ := ⟨0, 0⟩
  getKeywordAffinity _ _ := 0

/-- Both suffixes tie in both services, and with most of the portfolio. -/
theorem twoDiscovered_blind :
    EnumerationBlind (Learner.new 0) twoDiscovered none "goserving" "where does oscar start" ["oscar", "papa"] 5 :=
  decide_enumerationBlind rfl twoDiscovered none "goserving" "where does oscar start" ["oscar", "papa"] 5

end Devrouter.Anchorlearn
