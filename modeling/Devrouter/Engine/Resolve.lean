import Devrouter.Engine.NodeCache
import Devrouter.Engine.Sync
import Mathlib.Tactic.SplitIfs

/-!
# Resolving references

Model of `resolveAll`, `createEdges`, `resolveAndPersist`, `resolveAndPersistBatched` and
`resolveChainedCallsViaConformance` in `codegraph/src/resolution/index.ts`, and of `sync` in `codegraph/src/index.ts`.
How one reference is resolved is a parameter (`Resolver`), and so is what the frameworks rename after an extraction.
The caches of the resolver are a state `σ` that nothing here looks into.

The loop over the batches ends whatever the resolver makes of the references (`resolveBatched_ends`). A sync resolves
the references of the changed files only, and a reference that was resolved is gone: an edge that leads from a file
left alone into a file that is taken up again does not come back (`edges_into_changed`).
-/

namespace Devrouter.Engine

structure ResolvedRef where
  original : UnresolvedReference
  targetNodeId : String
  /-- The JSON text of the confidence and the strategy. -/
  metadata : String
  deriving DecidableEq, Repr

inductive Outcome where
  | resolved (ref : ResolvedRef)
  /-- A chained call that is tried once more when the other edges are there. -/
  | deferred
  | unresolved

structure Resolver (σ : Type) where
  resolveOne : Tables → UnresolvedReference → σ → Outcome × σ
  /-- The second try of a chained call. -/
  matchChain : Tables → UnresolvedReference → Option ResolvedRef
  /-- The nodes that the frameworks give other names, `runPostExtract`. -/
  postExtract : Tables → List Node

structure ResolverState (σ : Type) where
  caches : σ
  deferredChainRefs : List UnresolvedReference := []

/-- What `resolveAll` has found. -/
structure ResolutionResult where
  resolved : List ResolvedRef := []
  unresolved : List UnresolvedReference := []

namespace Tables

variable (t : Tables)

/-- A reference as the resolver sees it. -/
def unresolvedRef (u : UnresolvedReference) : UnresolvedReference :=
  let node := t.getNodeById u.fromNodeId
  { u with
    filePath := some (if u.filePath.getD "" ≠ "" then u.filePath.getD "" else (node.map (·.filePath)).getD "")
    language := some (if u.language.getD "" ≠ "" then u.language.getD "" else (node.map (·.language)).getD "unknown")
    candidates := none }

def getUnresolvedReferencesByFiles (paths : List String) : List UnresolvedReference :=
  (chunks (sqliteParamChunkSize - 1) paths).flatMap fun chunk =>
    t.unresolvedRefs.filter fun u => u.filePath.getD "" ∈ chunk

def isInterface (id : String) : Option Bool :=
  (t.getNodeById id).map fun n => n.kind = "interface" ∨ n.kind = "protocol"

/-- What extends an interface without being one implements it, and a call of a class makes one. -/
def edgeKind (ref : ResolvedRef) : String :=
  let kind := ref.original.referenceKind
  if kind = "extends" ∧ t.isInterface ref.targetNodeId = some true ∧
      t.isInterface ref.original.fromNodeId = some false then "implements"
  else if kind = "calls" ∧ (t.getNodeById ref.targetNodeId).any fun n => n.kind = "class" ∨ n.kind = "struct" then
    "instantiates"
  else kind

def createEdges (resolved : List ResolvedRef) : List Edge :=
  resolved.map fun ref =>
    { source := ref.original.fromNodeId, target := ref.targetNodeId, kind := t.edgeKind ref
      metadata := some ref.metadata, line := some ref.original.line, column := some ref.original.column }

end Tables

/-- The key under which a reference is deleted. -/
def UnresolvedReference.key (u : UnresolvedReference) : String × String × String :=
  (u.fromNodeId, u.referenceName, u.referenceKind)

namespace Resolver

variable {σ : Type} (R : Resolver σ)

def resolveAll (t : Tables) : List UnresolvedReference → ResolverState σ → ResolutionResult × ResolverState σ
  | [], s => ({}, s)
  | u :: us, s =>
    let ref := t.unresolvedRef u
    match R.resolveOne t ref s.caches with
    | (.resolved found, caches) =>
      let (rest, s') := resolveAll t us { s with caches := caches }
      ({ rest with resolved := found :: rest.resolved }, s')
    | (.deferred, caches) =>
      let (rest, s') := resolveAll t us
        { caches := caches, deferredChainRefs := s.deferredChainRefs ++ [ref] }
      ({ rest with unresolved := ref :: rest.unresolved }, s')
    | (.unresolved, caches) =>
      let (rest, s') := resolveAll t us { s with caches := caches }
      ({ rest with unresolved := ref :: rest.unresolved }, s')

/-- The edges of what was resolved are inserted, and its references deleted. -/
def persist (t : Tables) (resolved : List ResolvedRef) : Tables :=
  (t.insertEdges (t.createEdges resolved)).deleteSpecificResolvedReferences (resolved.map (·.original.key))

def resolveAndPersist (t : Tables) (refs : List UnresolvedReference) (s : ResolverState σ) :
    Tables × ResolverState σ :=
  let (result, s') := R.resolveAll t refs s
  (persist t result.resolved, s')

/-- The references of a batch are deleted whether they were resolved or not. -/
def resolveBatch (t : Tables) (batch : List UnresolvedReference) (s : ResolverState σ) :
    ResolutionResult × Tables × ResolverState σ :=
  let (result, s') := R.resolveAll t batch s
  (result, (persist t result.resolved).deleteSpecificResolvedReferences (result.unresolved.map (·.key)), s')

/-- The loop over the batches, all of them read from the start of the table. `prevRemaining` is what was left behind
the batch before. -/
def resolveAndPersistBatched (batchSize : ℕ) :
    ℕ → Tables → ResolverState σ → Option ℕ → Option (Tables × ResolverState σ)
  | 0, _, _, _ => none
  | fuel + 1, t, s, prevRemaining =>
    let batch := t.unresolvedRefs.take batchSize
    if batch = [] then some (t, s)
    else
      let round := R.resolveBatch t batch s
      if round.1.resolved = [] ∧ round.1.unresolved.length = batch.length then some round.2
      else if prevRemaining.any (· ≤ round.2.1.unresolvedRefs.length) then some round.2
      else resolveAndPersistBatched batchSize fuel round.2.1 round.2.2 (some round.2.1.unresolvedRefs.length)

def resolveChainedCallsViaConformance (t : Tables) (s : ResolverState σ) : Tables × ResolverState σ :=
  (t.insertEdges (t.createEdges (s.deferredChainRefs.filterMap (R.matchChain t))),
    { s with deferredChainRefs := [] })

/-- `sync` of the code graph: nothing is resolved when no file was added or modified. -/
def sync (X : Extractor) (clock : String → ℕ) (ts : Tables × ResolverState σ) (scan : List String) (d : Disk) :
    Tables × ResolverState σ :=
  let changedFilePaths := scan.filter (X.needsIndexing ts.1 d)
  let t := X.sync clock ts.1 scan d
  if changedFilePaths = [] then (t, ts.2)
  else
    let t' := (R.postExtract t).foldl Tables.updateNode t
    let (t'', s) := R.resolveAndPersist t' (t'.getUnresolvedReferencesByFiles changedFilePaths) ts.2
    R.resolveChainedCallsViaConformance t'' s

/-! ### The loop over the batches -/

section Batches

variable {R} {t : Tables} {batch : List UnresolvedReference} {s : ResolverState σ} {n : ℕ}

/-- Every reference is found or not found. -/
theorem length_resolveAll (t : Tables) (us : List UnresolvedReference) (s : ResolverState σ) :
    (R.resolveAll t us s).1.resolved.length + (R.resolveAll t us s).1.unresolved.length = us.length := by
  induction us generalizing s with
  | nil => rfl
  | cons u us ih =>
    rw [resolveAll]
    rcases R.resolveOne t (t.unresolvedRef u) s.caches with ⟨found | _ | _, caches⟩
    · have hrest := ih { s with caches := caches }
      simp only [List.length_cons]
      omega
    · have hrest := ih { caches := caches, deferredChainRefs := s.deferredChainRefs ++ [t.unresolvedRef u] }
      simp only [List.length_cons]
      omega
    · have hrest := ih { s with caches := caches }
      simp only [List.length_cons]
      omega

theorem unresolvedRefs_resolveBatch_sublist (t : Tables) (batch : List UnresolvedReference) (s : ResolverState σ) :
    (R.resolveBatch t batch s).2.1.unresolvedRefs.Sublist t.unresolvedRefs :=
  List.filter_sublist.trans List.filter_sublist

/-- A batch inserts at most one edge for each of its references. -/
theorem length_edges_resolveBatch_le (t : Tables) (batch : List UnresolvedReference) (s : ResolverState σ) :
    (R.resolveBatch t batch s).2.1.edges.length ≤ t.edges.length + (R.resolveBatch t batch s).1.resolved.length := by
  show (t.edges ++ (t.createEdges (R.resolveAll t batch s).1.resolved).filter _).length ≤ _
  rw [List.length_append]
  refine Nat.add_le_add_left ?_ _
  calc (List.filter _ (t.createEdges (R.resolveAll t batch s).1.resolved)).length
      ≤ (t.createEdges (R.resolveAll t batch s).1.resolved).length := List.length_filter_le _ _
    _ = (R.resolveBatch t batch s).1.resolved.length := List.length_map ..

/-- With the guard armed, the table shrinks in every round but the last. -/
theorem resolveAndPersistBatched_isSome_of_lt {fuel prev : ℕ} (h : prev < fuel) (t : Tables) (s : ResolverState σ) :
    (R.resolveAndPersistBatched n fuel t s (some prev)).isSome := by
  induction fuel generalizing prev t s with
  | zero => omega
  | succ fuel ih =>
    rw [resolveAndPersistBatched]
    dsimp only
    split_ifs with hbatch hnone hguard
    · rfl
    · rfl
    · rfl
    · -- the guard has let the loop go on, so fewer are left than before
      refine ih ?_ _ _
      simp only [Option.any_some, decide_eq_true_eq] at hguard
      omega

/-- The loop ends, with two rounds more than there are references. -/
theorem resolveAndPersistBatched_isSome (t : Tables) (s : ResolverState σ) :
    (R.resolveAndPersistBatched n (t.unresolvedRefs.length + 2) t s none).isSome := by
  rw [resolveAndPersistBatched]
  dsimp only
  split_ifs
  · rfl
  · rfl
  · rfl
  · refine resolveAndPersistBatched_isSome_of_lt ?_ _ _
    have hle := (unresolvedRefs_resolveBatch_sublist (R := R) t (t.unresolvedRefs.take n) s).length_le
    omega

/-- What one round hands on, every run of the loop hands on. -/
theorem resolveAndPersistBatched_invariant {I : ℕ → Tables → ResolverState σ → Prop}
    (hstep : ∀ k t s, I (k + 1) t s → t.unresolvedRefs.take n ≠ [] →
      I k (R.resolveBatch t (t.unresolvedRefs.take n) s).2.1 (R.resolveBatch t (t.unresolvedRefs.take n) s).2.2)
    (hless : ∀ k t s, I (k + 1) t s → I k t s)
    {fuel : ℕ} {prev : Option ℕ} {t' : Tables} {s' : ResolverState σ} (hI : I fuel t s)
    (h : R.resolveAndPersistBatched n fuel t s prev = some (t', s')) : I 0 t' s' := by
  have hdown : ∀ k t s, I k t s → I 0 t s := by
    intro k
    induction k with
    | zero => exact fun _ _ h => h
    | succ k ih => exact fun t s h => ih t s (hless k t s h)
  induction fuel generalizing t s prev with
  | zero => exact absurd h nofun
  | succ fuel ih =>
    rw [resolveAndPersistBatched] at h
    dsimp only at h
    split_ifs at h with hbatch hnone hguard
    · obtain ⟨rfl, rfl⟩ := Prod.mk.inj (Option.some.inj h)
      exact hdown _ _ _ hI
    · have hround := hstep fuel t s hI hbatch
      rw [Option.some.inj h] at hround
      exact hdown _ _ _ hround
    · have hround := hstep fuel t s hI hbatch
      rw [Option.some.inj h] at hround
      exact hdown _ _ _ hround
    · exact ih (hstep fuel t s hI hbatch) h

theorem length_edges_round_le (t : Tables) (s : ResolverState σ) :
    (R.resolveBatch t (t.unresolvedRefs.take n) s).2.1.edges.length ≤ t.edges.length + n := by
  have hedges := length_edges_resolveBatch_le (R := R) t (t.unresolvedRefs.take n) s
  have hbatch : (R.resolveBatch t (t.unresolvedRefs.take n) s).1.resolved.length +
      (R.resolveBatch t (t.unresolvedRefs.take n) s).1.unresolved.length = (t.unresolvedRefs.take n).length :=
    length_resolveAll t (t.unresolvedRefs.take n) s
  have htake := List.length_take_le n t.unresolvedRefs
  omega

variable (R) in
/-- What is found for a reference is found under its key. -/
def Keyed : Prop :=
  ∀ t u caches found caches', R.resolveOne t u caches = (.resolved found, caches') → found.original.key = u.key

@[simp] theorem key_unresolvedRef (t : Tables) (u : UnresolvedReference) : (t.unresolvedRef u).key = u.key := rfl

/-- A batch gives the keys of all its references back. -/
theorem Keyed.key_mem_resolveAll (hR : R.Keyed) {u : UnresolvedReference} {us : List UnresolvedReference}
    (hu : u ∈ us) (t : Tables) (s : ResolverState σ) :
    u.key ∈ (R.resolveAll t us s).1.resolved.map (·.original.key) ∨
      u.key ∈ (R.resolveAll t us s).1.unresolved.map (·.key) := by
  induction us generalizing s with
  | nil => exact absurd hu List.not_mem_nil
  | cons v vs ih =>
    rw [resolveAll]
    rcases hone : R.resolveOne t (t.unresolvedRef v) s.caches with ⟨found | _ | _, caches⟩
    · cases List.mem_cons.mp hu with
      | inl h =>
        refine .inl (List.mem_map.mpr ⟨found, List.mem_cons_self, ?_⟩)
        rw [h, hR _ _ _ _ _ hone, key_unresolvedRef]
      | inr h => exact (ih h _).imp_left (List.mem_cons_of_mem _)
    · cases List.mem_cons.mp hu with
      | inl h => exact .inr (List.mem_map.mpr ⟨_, List.mem_cons_self, h ▸ rfl⟩)
      | inr h => exact (ih h _).imp_right (List.mem_cons_of_mem _)
    · cases List.mem_cons.mp hu with
      | inl h => exact .inr (List.mem_map.mpr ⟨_, List.mem_cons_self, h ▸ rfl⟩)
      | inr h => exact (ih h _).imp_right (List.mem_cons_of_mem _)

/-- With the keys given back, a round deletes its batch. -/
theorem Keyed.unresolvedRefs_round_sublist (hR : R.Keyed) (t : Tables) (s : ResolverState σ) :
    (R.resolveBatch t (t.unresolvedRefs.take n) s).2.1.unresolvedRefs.Sublist (t.unresolvedRefs.drop n) := by
  let result := (R.resolveAll t (t.unresolvedRefs.take n) s).1
  let keep : UnresolvedReference → Bool := fun u =>
    decide (u.key ∉ result.unresolved.map (·.key)) && decide (u.key ∉ result.resolved.map (·.original.key))
  have hbatch : (t.unresolvedRefs.take n).filter keep = [] := by
    refine List.filter_eq_nil_iff.mpr fun u hu hkeep => ?_
    obtain ⟨hunresolved, hresolved⟩ := Bool.and_eq_true_iff.mp hkeep
    rw [decide_eq_true_eq] at hunresolved hresolved
    exact (hR.key_mem_resolveAll hu t s).elim hresolved hunresolved
  have hfilter : (R.resolveBatch t (t.unresolvedRefs.take n) s).2.1.unresolvedRefs = t.unresolvedRefs.filter keep :=
    List.filter_filter
  rw [hfilter, ← List.take_append_drop n t.unresolvedRefs, List.filter_append, List.take_append_drop, hbatch,
    List.nil_append]
  exact List.filter_sublist

/-- A reference becomes one edge at most. -/
theorem Keyed.length_round_le (hR : R.Keyed) (t : Tables) (s : ResolverState σ) :
    (R.resolveBatch t (t.unresolvedRefs.take n) s).2.1.edges.length +
        (R.resolveBatch t (t.unresolvedRefs.take n) s).2.1.unresolvedRefs.length ≤
      t.edges.length + t.unresolvedRefs.length := by
  have hedges := length_edges_resolveBatch_le (R := R) t (t.unresolvedRefs.take n) s
  have hbatch : (R.resolveBatch t (t.unresolvedRefs.take n) s).1.resolved.length +
      (R.resolveBatch t (t.unresolvedRefs.take n) s).1.unresolved.length = (t.unresolvedRefs.take n).length :=
    length_resolveAll t (t.unresolvedRefs.take n) s
  have hleft := (hR.unresolvedRefs_round_sublist (n := n) t s).length_le
  rw [List.length_take] at hbatch
  rw [List.length_drop] at hleft
  omega

/-- The guard is never needed, so that what stops the loop early is a batch with nothing resolved. -/
theorem Keyed.exists_of_left (hR : R.Keyed) (hn : 0 < n) {fuel : ℕ} {prev : Option ℕ}
    (hprev : ∀ p, prev = some p → t.unresolvedRefs.length ≤ p) {t' : Tables} {s' : ResolverState σ}
    (h : R.resolveAndPersistBatched n fuel t s prev = some (t', s')) (hleft : t'.unresolvedRefs ≠ []) :
    ∃ u su, u.unresolvedRefs.Sublist t.unresolvedRefs ∧ n < u.unresolvedRefs.length ∧
      (R.resolveAll u (u.unresolvedRefs.take n) su).1.resolved = [] := by
  induction fuel generalizing t s prev with
  | zero => exact absurd h nofun
  | succ fuel ih =>
    rw [resolveAndPersistBatched] at h
    dsimp only at h
    have hround := hR.unresolvedRefs_round_sublist (n := n) t s
    have hlength := hround.length_le
    rw [List.length_drop] at hlength
    split_ifs at h with hbatch hnone hguard
    · -- the batch is empty only when the table is
      obtain ⟨rfl, -⟩ := Prod.mk.inj (Option.some.inj h)
      cases List.take_eq_nil_iff.mp hbatch with
      | inl hzero => omega
      | inr hnil => exact absurd hnil hleft
    · have ht : (R.resolveBatch t (t.unresolvedRefs.take n) s).2.1 = t' := congrArg Prod.fst (Option.some.inj h)
      rw [ht] at hlength
      have hpos := List.length_pos_of_ne_nil hleft
      exact ⟨t, s, List.Sublist.refl _, by omega, hnone.1⟩
    · cases prev with
      | none => exact absurd hguard Bool.false_ne_true
      | some p =>
        have hpos := List.length_pos_of_ne_nil hbatch
        have hless := hprev p rfl
        rw [Option.any_some, decide_eq_true_eq] at hguard
        rw [List.length_take] at hpos
        omega
    · obtain ⟨u, su, hsub, hrest⟩ := ih (fun p hp => Nat.le_of_eq (Option.some.inj hp)) h
      exact ⟨u, su, hsub.trans (unresolvedRefs_resolveBatch_sublist t _ s), hrest⟩

/-- A reference is taken for the path of a file. -/
def resolveByPath (t : Tables) (u : UnresolvedReference) : Outcome :=
  if "file:" ++ u.referenceName ∈ t.ids then .resolved ⟨u, "file:" ++ u.referenceName, "\x7b\x7d"⟩ else .unresolved

def byPath : Resolver Unit where
  resolveOne t u _ := (resolveByPath t u, ())
  matchChain _ _ := none
  postExtract _ := []

theorem byPath_original {t : Tables} {u : UnresolvedReference} {found : ResolvedRef} {c c' : Unit}
    (h : byPath.resolveOne t u c = (.resolved found, c')) : found.original = u := by
  have hfound : resolveByPath t u = .resolved found := congrArg Prod.fst h
  rw [resolveByPath] at hfound
  split at hfound
  · exact Outcome.resolved.inj hfound ▸ rfl
  · exact absurd hfound nofun

theorem keyed_byPath : byPath.Keyed := fun _ _ _ _ _ h => congrArg UnresolvedReference.key (byPath_original h)

end Batches

end Resolver

/-! ### The files of the symbols -/

namespace Tables

variable {t : Tables} {id path q : String}

/-- The id is that of a symbol of the file. -/
def At (t : Tables) (id path : String) : Prop := ∃ r ∈ t.nodes, r.id = id ∧ r.filePath = path

theorem exists_at (h : id ∈ t.ids) : ∃ path, t.At id path := by
  obtain ⟨r, hr, hid⟩ := mem_ids.mp h
  exact ⟨r.filePath, r, hr, hid, rfl⟩

theorem At.congr {t' : Tables} (h : t.At id path) (hnodes : t'.nodes = t.nodes) : t'.At id path := by
  obtain ⟨r, hr, hid⟩ := h
  exact ⟨r, hnodes ▸ hr, hid⟩

theorem Consistent.at_unique (h : t.Consistent) (hp : t.At id path) (hq : t.At id q) : path = q := by
  obtain ⟨r, hr, rfl, rfl⟩ := hp
  obtain ⟨r', hr', hid, rfl⟩ := hq
  exact congrArg NodeRow.filePath (List.inj_on_of_nodup_map h.nodup_ids hr hr' hid.symm)

theorem at_deleteFile : (t.deleteFile path).At id q ↔ t.At id q ∧ q ≠ path := by
  constructor
  · rintro ⟨r, hr, rfl, rfl⟩
    obtain ⟨hmem, hkeep⟩ := List.mem_filter.mp hr
    exact ⟨⟨r, hmem, rfl, rfl⟩, by simpa using hkeep⟩
  · rintro ⟨⟨r, hr, rfl, rfl⟩, hne⟩
    exact ⟨r, List.mem_filter.mpr ⟨hr, by simpa using hne⟩, rfl, rfl⟩

theorem at_of_insertNodes {ns : List Node} (h : (t.insertNodes ns).At id q) :
    t.At id q ∨ ∃ n ∈ ns, n.id = id ∧ n.filePath = q := by
  obtain ⟨r, hr, hid, hpath⟩ := h
  obtain hold | ⟨n, hn, rfl⟩ := exists_of_mem_insertNodes hr
  · exact .inl ⟨r, hold, hid, hpath⟩
  · exact .inr ⟨n, hn, hid, hpath⟩

/-- A symbol stays where it is when other ids are inserted. -/
theorem At.insertNodes {ns : List Node} (h : t.At id q) (hne : ∀ n ∈ ns, n.id ≠ id) : (t.insertNodes ns).At id q := by
  induction ns generalizing t with
  | nil => exact h
  | cons n ns ih =>
    obtain ⟨hn, hns⟩ := List.forall_mem_cons.mp hne
    refine ih ?_ hns
    obtain ⟨r, hr, rfl, rfl⟩ := h
    by_cases hvalid : n.Valid
    · refine ⟨r, ?_, rfl, rfl⟩
      rw [insertNode, if_pos hvalid]
      exact List.mem_append_left _ (List.mem_filter.mpr ⟨hr, by simpa using hn.symm⟩)
    · rw [insertNode, if_neg hvalid]
      exact ⟨r, hr, rfl, rfl⟩

theorem edges_insertNode_subset (n : Node) : (t.insertNode n).edges ⊆ t.edges := by
  rw [insertNode]
  split
  · exact List.filter_subset_self _
  · exact List.Subset.refl _

theorem unresolvedRefs_insertNode_subset (n : Node) : (t.insertNode n).unresolvedRefs ⊆ t.unresolvedRefs := by
  rw [insertNode]
  split
  · exact List.filter_subset_self _
  · exact List.Subset.refl _

theorem edges_insertNodes_subset (ns : List Node) : (t.insertNodes ns).edges ⊆ t.edges := by
  induction ns generalizing t with
  | nil => exact List.Subset.refl _
  | cons n ns ih => exact List.Subset.trans ih (edges_insertNode_subset n)

theorem unresolvedRefs_insertNodes_subset (ns : List Node) :
    (t.insertNodes ns).unresolvedRefs ⊆ t.unresolvedRefs := by
  induction ns generalizing t with
  | nil => exact List.Subset.refl _
  | cons n ns ih => exact List.Subset.trans ih (unresolvedRefs_insertNode_subset n)

theorem edges_insertUnresolvedRefsBatch {us : List UnresolvedReference} {t' : Tables}
    (ht : t.insertUnresolvedRefsBatch us = some t') : t'.edges = t.edges := by
  rw [insertUnresolvedRefsBatch] at ht
  induction us generalizing t with
  | nil => exact Option.some.inj ht ▸ rfl
  | cons u us ih =>
    obtain ⟨t₁, h₁, h₂⟩ := Option.bind_eq_some_iff.mp ht
    obtain ⟨-, ⟨⟩⟩ := Option.ite_none_right_eq_some.mp h₁
    exact (ih h₂).trans rfl

theorem exists_of_mem_insertUnresolvedRefsBatch {us : List UnresolvedReference} {t' : Tables}
    (ht : t.insertUnresolvedRefsBatch us = some t') {u : UnresolvedReference} (hu : u ∈ t'.unresolvedRefs) :
    u ∈ t.unresolvedRefs ∨
      ∃ v ∈ us, v.fromNodeId ∈ t.ids ∧ u.fromNodeId = v.fromNodeId ∧ u.filePath = some (v.filePath.getD "") := by
  rw [insertUnresolvedRefsBatch] at ht
  induction us generalizing t with
  | nil => exact .inl (Option.some.inj ht ▸ hu)
  | cons v us ih =>
    obtain ⟨t₁, h₁, h₂⟩ := Option.bind_eq_some_iff.mp ht
    obtain ⟨hfrom, ⟨⟩⟩ := Option.ite_none_right_eq_some.mp h₁
    obtain hold | ⟨w, hw, hrest⟩ := ih h₂
    · cases List.mem_append.mp hold with
      | inl h => exact .inl h
      | inr h =>
        obtain rfl := List.mem_singleton.mp h
        exact .inr ⟨v, List.mem_cons_self, hfrom, rfl, rfl⟩
    · exact .inr ⟨w, List.mem_cons_of_mem v hw, hrest⟩

/-- A node that is written again with its path leaves every symbol in its file. -/
theorem Consistent.at_updateNode (h : t.Consistent) {n : Node} (hn : t.At n.id n.filePath) :
    (t.updateNode n).At id q ↔ t.At id q := by
  rw [Tables.updateNode]
  split
  · constructor
    · rintro ⟨r, hr, rfl, rfl⟩
      obtain ⟨r', hr', rfl⟩ := List.mem_map.mp hr
      split
      · exact hn
      · exact ⟨r', hr', rfl, rfl⟩
    · rintro ⟨r, hr, rfl, rfl⟩
      refine ⟨_, List.mem_map.mpr ⟨r, hr, rfl⟩, ?_⟩
      split
      · next hid => exact ⟨hid.symm, h.at_unique (hid ▸ hn) ⟨r, hr, rfl, rfl⟩⟩
      · exact ⟨rfl, rfl⟩
  · rfl

end Tables

namespace Extractor

open Tables

variable {X : Extractor} {clock : String → ℕ} {d : Disk} {t : Tables} {path content : String}

variable (X) in
/-- **At home**: a symbol is in a tracked file and comes from a text of it, and a reference is in the file of its
symbol. -/
structure Homed (t : Tables) : Prop where
  consistent : t.Consistent
  tracked : ∀ id q, t.At id q → (t.getFileByPath q).isSome
  native : ∀ id q, t.At id q → ∃ content, ∃ n ∈ (X.extract q content).nodes, n.id = id
  refs : ∀ u ∈ t.unresolvedRefs, ∃ q, u.filePath = some q ∧ t.At u.fromNodeId q

theorem homed_empty : X.Homed {} where
  consistent := consistent_empty
  tracked := fun _ _ ⟨_, h, _⟩ => absurd h List.not_mem_nil
  native := fun _ _ ⟨_, h, _⟩ => absurd h List.not_mem_nil
  refs := fun _ h => absurd h List.not_mem_nil

/-- With the symbols and the records as they were, only the references are to be looked at again. -/
theorem Homed.of_at {t' : Tables} (h : X.Homed t) (hcons : t'.Consistent) (hat : ∀ id q, t'.At id q ↔ t.At id q)
    (hfiles : t'.files = t.files) (hrefs : t'.unresolvedRefs ⊆ t.unresolvedRefs) : X.Homed t' where
  consistent := hcons
  tracked := by
    intro id q hid
    rw [getFileByPath, hfiles]
    exact h.tracked id q ((hat id q).mp hid)
  native := fun id q hid => h.native id q ((hat id q).mp hid)
  refs := by
    intro u hu
    obtain ⟨q, hq, hfrom⟩ := h.refs u (hrefs hu)
    exact ⟨q, hq, (hat _ q).mpr hfrom⟩

theorem Homed.deleteFile (h : X.Homed t) (path : String) : X.Homed (t.deleteFile path) where
  consistent := h.consistent.deleteFile path
  tracked := by
    intro id q hid
    obtain ⟨hold, hne⟩ := at_deleteFile.mp hid
    rw [getFileByPath_deleteFile, if_neg hne]
    exact h.tracked id q hold
  native := fun id q hid => h.native id q (at_deleteFile.mp hid).1
  refs := by
    intro u hu
    obtain ⟨hmem, hkeep⟩ := List.mem_filter.mp hu
    obtain ⟨q, hq, hfrom⟩ := h.refs u hmem
    refine ⟨q, hq, at_deleteFile.mpr ⟨hfrom, fun hpath => ?_⟩⟩
    -- the references of the file went with its symbols
    obtain ⟨r, hr, hid, hrq⟩ := hfrom
    rw [decide_eq_true_eq] at hkeep
    exact hkeep (List.mem_map.mpr ⟨r, List.mem_filter.mpr ⟨hr, decide_eq_true (hrq.trans hpath)⟩, hid⟩)

theorem Homed.foldl_deleteFile (h : X.Homed t) (paths : List String) : X.Homed (paths.foldl Tables.deleteFile t) := by
  induction paths generalizing t with
  | nil => exact h
  | cons path paths ih => exact ih (h.deleteFile path)

/-! #### A file taken up -/

section TakenUp

variable {now : ℕ} {id q : String}

/-- The tables without what they had of a file. -/
def cleared (t : Tables) (path : String) : Tables := if (t.getFileByPath path).isSome then t.deleteFile path else t

theorem Homed.cleared (h : X.Homed t) (path : String) : X.Homed (cleared t path) := by
  rw [Extractor.cleared]
  split
  · exact h.deleteFile path
  · exact h

theorem Homed.at_cleared (h : X.Homed t) : (Extractor.cleared t path).At id q ↔ t.At id q ∧ q ≠ path := by
  rw [Extractor.cleared]
  split
  · exact at_deleteFile
  · next hnew =>
    refine ⟨fun hid => ⟨hid, ?_⟩, And.left⟩
    rintro rfl
    exact hnew (h.tracked id q hid)

/-- The rows of the file taken up, with its record. -/
def takenUp (X : Extractor) (clock : String → ℕ) (t : Tables) (path content : String) (file : FileOnDisk) (now : ℕ) :
    Tables :=
  (insertResult (cleared t path) path (X.detectLanguage path content) (stamped now (X.extract path content))).upsertFile
    (X.fileRecord clock path content file (stamped now (X.extract path content)))

theorem exists_of_mem_validNodes {n : Node} (hn : n ∈ validNodes (stamped now (X.extract path content))) :
    ∃ m ∈ (X.extract path content).nodes, m.id = n.id ∧ m.filePath = n.filePath := by
  rw [validNodes_stamped] at hn
  obtain ⟨m, hm, rfl⟩ := List.mem_map.mp hn
  exact ⟨m, List.mem_of_mem_filter hm, rfl, rfl⟩

/-- What was there of other files has other ids. -/
theorem Homed.ne_of_at_cleared (h : X.Homed t) (hX : X.Lawful) (hid : (Extractor.cleared t path).At id q) :
    ∀ n ∈ validNodes (stamped now (X.extract path content)), n.id ≠ id := by
  rintro n hn rfl
  obtain ⟨hold, hne⟩ := h.at_cleared.mp hid
  obtain ⟨content', m, hm, hmid⟩ := h.native _ q hold
  obtain ⟨m', hm', hm'id, -⟩ := exists_of_mem_validNodes hn
  exact hX.id_ne q path content' content hne m hm m' hm' (hmid.trans hm'id.symm)

theorem nodes_takenUp {file : FileOnDisk} : (X.takenUp clock t path content file now).nodes =
    ((Extractor.cleared t path).insertNodes (validNodes (stamped now (X.extract path content)))).nodes :=
  nodes_insertResult _ _ _ _

/-- Where the symbols are once a file is taken up. -/
theorem at_of_takenUp (hX : X.Lawful) {file : FileOnDisk} (hid : (X.takenUp clock t path content file now).At id q) :
    (Extractor.cleared t path).At id q ∨
      q = path ∧ ∃ n ∈ validNodes (stamped now (X.extract path content)), n.id = id := by
  obtain hold | ⟨n, hn, rfl, rfl⟩ := at_of_insertNodes (hid.congr nodes_takenUp.symm)
  · exact .inl hold
  · obtain ⟨m, hm, -, hpath⟩ := exists_of_mem_validNodes hn
    exact .inr ⟨hpath.symm.trans (hX.filePath_eq path content m hm), n, hn, rfl⟩

theorem Homed.at_takenUp (h : X.Homed t) (hX : X.Lawful) {file : FileOnDisk}
    (hid : (Extractor.cleared t path).At id q) : (X.takenUp clock t path content file now).At id q :=
  (hid.insertNodes (h.ne_of_at_cleared hX hid)).congr nodes_takenUp

/-- A symbol with one of the new ids is in the file. -/
theorem Homed.at_takenUp_self (h : X.Homed t) (hX : X.Lawful) {file : FileOnDisk}
    (hmem : id ∈ (X.takenUp clock t path content file now).ids)
    (hnew : ∃ n ∈ validNodes (stamped now (X.extract path content)), n.id = id) :
    (X.takenUp clock t path content file now).At id path := by
  obtain ⟨q, hq⟩ := exists_at hmem
  obtain hold | ⟨rfl, -⟩ := at_of_takenUp hX hq
  · obtain ⟨n, hn, hid⟩ := hnew
    exact absurd hid (h.ne_of_at_cleared hX hold n hn)
  · exact hq

theorem consistent_insertResult (h : t.Consistent) (path language : String) (result : ExtractionResult) :
    (insertResult t path language result).Consistent := by
  have hedges := (h.insertNodes (validNodes result)).insertEdges (validEdges result)
  rw [insertResult]
  cases hrefs : ((t.insertNodes (validNodes result)).insertEdges (validEdges result)).insertUnresolvedRefsBatch
      (refsWithContext path language result) with
  | none => exact hedges
  | some t' => exact hedges.insertUnresolvedRefsBatch hrefs

theorem mem_edges_insertResult {language : String} {result : ExtractionResult} {e : Edge}
    (he : e ∈ (insertResult t path language result).edges) :
    e ∈ t.edges ∨ e.source ∈ (t.insertNodes (validNodes result)).ids ∧
      (∃ n ∈ validNodes result, n.id = e.source) ∧ ∃ n ∈ validNodes result, n.id = e.target := by
  have hmem : e ∈ ((t.insertNodes (validNodes result)).insertEdges (validEdges result)).edges := by
    rw [insertResult] at he
    cases hrefs : ((t.insertNodes (validNodes result)).insertEdges (validEdges result)).insertUnresolvedRefsBatch
        (refsWithContext path language result) with
    | none =>
      rw [hrefs] at he
      exact he
    | some t' =>
      rw [hrefs] at he
      exact edges_insertUnresolvedRefsBatch hrefs ▸ he
  cases List.mem_append.mp hmem with
  | inl hold => exact .inl (edges_insertNodes_subset _ hold)
  | inr hnew =>
    obtain ⟨hvalid, hends⟩ := List.mem_filter.mp hnew
    have hids := of_decide_eq_true (List.mem_filter.mp hvalid).2
    exact .inr ⟨(of_decide_eq_true hends).1, List.mem_map.mp hids.1, List.mem_map.mp hids.2⟩

theorem mem_unresolvedRefs_insertResult {language : String} {result : ExtractionResult} {u : UnresolvedReference}
    (hu : u ∈ (insertResult t path language result).unresolvedRefs) :
    u ∈ t.unresolvedRefs ∨ u.fromNodeId ∈ (t.insertNodes (validNodes result)).ids ∧
      (∃ n ∈ validNodes result, n.id = u.fromNodeId) ∧
        ∃ v ∈ result.unresolvedReferences, u.filePath = some (v.filePath.getD path) := by
  rw [insertResult] at hu
  cases hrefs : ((t.insertNodes (validNodes result)).insertEdges (validEdges result)).insertUnresolvedRefsBatch
      (refsWithContext path language result) with
  | none =>
    rw [hrefs] at hu
    exact .inl (unresolvedRefs_insertNodes_subset _ hu)
  | some t' =>
    rw [hrefs] at hu
    obtain hold | ⟨w, hw, hids, hfrom, hpath⟩ := exists_of_mem_insertUnresolvedRefsBatch hrefs hu
    · exact .inl (unresolvedRefs_insertNodes_subset _ hold)
    · obtain ⟨v, hv, rfl⟩ := List.mem_map.mp hw
      obtain ⟨hv, hvalid⟩ := List.mem_filter.mp hv
      refine .inr ⟨hfrom ▸ hids, ?_, v, hv, hpath⟩
      exact hfrom ▸ List.mem_map.mp (of_decide_eq_true hvalid)

theorem Homed.takenUp (h : X.Homed t) (hX : X.Lawful) {file : FileOnDisk} :
    X.Homed (X.takenUp clock t path content file now) := by
  have hc := h.cleared path
  have hids : (X.takenUp clock t path content file now).ids =
      ((Extractor.cleared t path).insertNodes (validNodes (stamped now (X.extract path content)))).ids := by
    rw [ids, nodes_takenUp, ids]
  constructor
  · exact (consistent_insertResult hc.consistent _ _ _).upsertFile _
  · intro id q hid
    show ((Tables.upsertFile _ _).getFileByPath q).isSome
    rw [getFileByPath_upsertFile]
    split
    · rfl
    · next hne =>
      rw [getFileByPath, files_insertResult, ← getFileByPath]
      obtain hold | ⟨hq, -⟩ := at_of_takenUp hX hid
      · exact hc.tracked id q hold
      · exact absurd hq hne
  · intro id q hid
    obtain hold | ⟨rfl, n, hn, rfl⟩ := at_of_takenUp hX hid
    · exact hc.native id q hold
    · obtain ⟨m, hm, hmid, -⟩ := exists_of_mem_validNodes hn
      exact ⟨content, m, hm, hmid⟩
  · intro u hu
    obtain hold | ⟨hmem, hnew, v, hv, hpath⟩ := mem_unresolvedRefs_insertResult hu
    · obtain ⟨q, hq, hfrom⟩ := hc.refs u hold
      exact ⟨q, hq, h.at_takenUp hX hfrom⟩
    · refine ⟨path, ?_, h.at_takenUp_self hX (hids ▸ hmem) hnew⟩
      rw [hpath, hX.ref_filePath path content v hv]

theorem storeExtractionResult_eq_takenUp {file : FileOnDisk}
    (h : (t.getFileByPath path).map (·.contentHash) ≠ some (X.hashContent content)) :
    X.storeExtractionResult clock t path content file (stamped now (X.extract path content)) =
      X.takenUp clock t path content file now := by
  rw [storeExtractionResult, if_neg h]
  rfl

theorem Homed.indexFile (h : X.Homed t) (hX : X.Lawful) (path : String) : X.Homed (X.indexFile clock d t path) := by
  rw [Extractor.indexFile]
  split
  · next file content hfile =>
    by_cases hhash : (t.getFileByPath path).map (·.contentHash) = some (X.hashContent content)
    · rw [storeExtractionResult, if_pos hhash]
      exact h
    · rw [storeExtractionResult_eq_takenUp hhash]
      exact h.takenUp hX
  · exact h

theorem Homed.foldl_indexFile (h : X.Homed t) (hX : X.Lawful) (paths : List String) :
    X.Homed (paths.foldl (X.indexFile clock d) t) := by
  induction paths generalizing t with
  | nil => exact h
  | cons path paths ih => exact ih (h.indexFile hX path)

theorem Homed.sync (h : X.Homed t) (hX : X.Lawful) (scan : List String) : X.Homed (X.sync clock t scan d) :=
  (h.foldl_deleteFile _).foldl_indexFile hX _

theorem edges_cleared_subset : (Extractor.cleared t path).edges ⊆ t.edges := by
  rw [Extractor.cleared]
  split
  · exact List.filter_subset_self _
  · exact List.Subset.refl _

/-- **Closed files**: an edge that ends in one of the files starts there. -/
def ClosedFiles (t : Tables) (files : List String) : Prop :=
  ∀ e ∈ t.edges, ∀ q ∈ files, t.At e.target q → t.At e.source q

/-- A file that is taken up closes itself, and leaves the closed files closed. -/
theorem ClosedFiles.takenUp {files : List String} (h : ClosedFiles t files) (ht : X.Homed t) (hX : X.Lawful)
    {file : FileOnDisk} : ClosedFiles (X.takenUp clock t path content file now) (files ++ [path]) := by
  have hc := ht.cleared path
  have hids : (X.takenUp clock t path content file now).ids =
      ((Extractor.cleared t path).insertNodes (validNodes (stamped now (X.extract path content)))).ids := by
    rw [ids, nodes_takenUp, ids]
  intro e he q hq htarget
  obtain hold | ⟨hsource, hnewsource, hnewtarget⟩ := mem_edges_insertResult he
  · -- an edge of before: neither of its ends is in the file
    obtain ⟨q', htarget'⟩ := exists_at (hc.consistent.target_mem e hold)
    obtain rfl := (ht.takenUp hX).consistent.at_unique htarget (ht.at_takenUp hX htarget')
    obtain ⟨htargetq, hne⟩ := ht.at_cleared.mp htarget'
    have hqfiles : q ∈ files := by simpa [hne] using hq
    have hsource := h e (edges_cleared_subset hold) q hqfiles htargetq
    exact ht.at_takenUp hX (ht.at_cleared.mpr ⟨hsource, hne⟩)
  · -- an edge of the extraction
    obtain ⟨n, hn, hid⟩ := hnewtarget
    obtain hold | ⟨rfl, -⟩ := at_of_takenUp hX htarget
    · exact absurd hid (ht.ne_of_at_cleared hX hold n hn)
    · exact ht.at_takenUp_self hX (hids ▸ hsource) hnewsource

theorem ClosedFiles.mono {files files' : List String} (h : ClosedFiles t files) (hsub : files' ⊆ files) :
    ClosedFiles t files' := fun e he q hq => h e he q (hsub hq)

/-- The files of a list that are taken up are closed behind it. -/
theorem Homed.closedFiles_foldl (h : X.Homed t) (hX : X.Lawful) {paths : List String}
    (hnew : ∀ p ∈ paths, ∀ file content, X.indexable d p = some (file, content) →
      (t.getFileByPath p).map (·.contentHash) ≠ some (X.hashContent content)) :
    ClosedFiles (paths.foldl (X.indexFile clock d) t) (paths.filter fun p => (X.indexable d p).isSome) := by
  induction paths using List.reverseRecOn with
  | nil => exact fun _ _ _ hq => absurd hq List.not_mem_nil
  | append_singleton paths p ih =>
    have hclosed := ih fun q hq => hnew q (List.mem_append_left _ hq)
    rw [List.foldl_append, List.foldl_cons, List.foldl_nil, List.filter_append]
    cases hfile : X.indexable d p with
    | none =>
      rw [Extractor.indexFile, hfile]
      simpa [hfile] using hclosed
    | some found =>
      obtain ⟨file, content⟩ := found
      have hsingle : [p].filter (fun q => (X.indexable d q).isSome) = [p] := by simp [hfile]
      rw [hsingle]
      by_cases hp : p ∈ paths
      · -- the second time its record has the hash of the text
        have hsame : X.indexFile clock d (paths.foldl (X.indexFile clock d) t) p =
            paths.foldl (X.indexFile clock d) t :=
          indexFile_of_contentHash fun _ _ hsome => contentHash_foldl_indexFile hp hsome
        rw [hsame]
        refine hclosed.mono fun q hq => ?_
        cases List.mem_append.mp hq with
        | inl hold => exact hold
        | inr hlast =>
          obtain rfl := List.mem_singleton.mp hlast
          exact List.mem_filter.mpr ⟨hp, by rw [hfile, Option.isSome_some]⟩
      · have hhash : ((paths.foldl (X.indexFile clock d) t).getFileByPath p).map (·.contentHash) ≠
            some (X.hashContent content) := by
          rw [getFileByPath_foldl_indexFile_of_notMem hp]
          exact hnew p List.mem_concat_self file content hfile
        rw [Extractor.indexFile, hfile]
        show ClosedFiles (X.storeExtractionResult clock _ p content file _) _
        rw [storeExtractionResult_eq_takenUp hhash]
        exact hclosed.takenUp (h.foldl_indexFile hX paths) hX

/-- A file that has to be indexed has another text than its record. -/
theorem contentHash_ne_of_needsIndexing {file : FileOnDisk} (hneeds : X.needsIndexing t d path)
    (hfile : X.indexable d path = some (file, content)) :
    (t.getFileByPath path).map (·.contentHash) ≠ some (X.hashContent content) := by
  obtain ⟨hd, hcontent⟩ := exists_of_indexable hfile
  intro hhash
  obtain ⟨f, hf, hfhash⟩ := Option.map_eq_some_iff.mp hhash
  rw [needsIndexing, hd] at hneeds
  simp [hf, hcontent, hfhash] at hneeds

/-- **The files that a sync takes up are closed** behind the extraction. -/
theorem Homed.closedFiles_sync (h : X.Homed t) (hX : X.Lawful) (clock : String → ℕ) (scan : List String) (d : Disk) :
    ClosedFiles (X.sync clock t scan d)
      ((scan.filter (X.needsIndexing t d)).filter fun p => (X.indexable d p).isSome) := by
  refine (h.foldl_deleteFile _).closedFiles_foldl hX fun p hp file content hfile => ?_
  have hneeds := (List.mem_filter.mp hp).2
  rw [getFileByPath_foldl_deleteFile]
  split
  · exact nofun
  · exact contentHash_ne_of_needsIndexing hneeds hfile

end TakenUp

end Extractor

/-! ### A sync with its resolution -/

namespace Resolver

open Tables Extractor

variable {σ : Type} {R : Resolver σ} {X : Extractor} {t : Tables} {s : ResolverState σ}

variable (R) in
/-- What is found for a reference starts where the reference does, and a node that is renamed stays in its file. -/
structure Lawful : Prop where
  source_eq : ∀ t u caches found caches',
    R.resolveOne t u caches = (.resolved found, caches') → found.original.fromNodeId = u.fromNodeId
  chain_source_eq : ∀ t u found, R.matchChain t u = some found → found.original.fromNodeId = u.fromNodeId
  postExtract_at : ∀ t, ∀ n ∈ R.postExtract t, t.At n.id n.filePath

/-- What was found for a list of references starts where one of them does. -/
theorem Lawful.exists_of_mem_resolved (hR : R.Lawful) {us : List UnresolvedReference} {found : ResolvedRef}
    (h : found ∈ (R.resolveAll t us s).1.resolved) : ∃ u ∈ us, found.original.fromNodeId = u.fromNodeId := by
  induction us generalizing s with
  | nil => exact absurd h List.not_mem_nil
  | cons u us ih =>
    rw [resolveAll] at h
    rcases hone : R.resolveOne t (t.unresolvedRef u) s.caches with ⟨first | _ | _, caches⟩
    · rw [hone] at h
      cases List.mem_cons.mp h with
      | inl hfirst =>
        have hsource := hR.source_eq _ _ _ _ _ hone
        exact ⟨u, List.mem_cons_self, hfirst ▸ hsource⟩
      | inr hrest =>
        obtain ⟨v, hv, hsource⟩ := ih hrest
        exact ⟨v, List.mem_cons_of_mem u hv, hsource⟩
    · rw [hone] at h
      obtain ⟨v, hv, hsource⟩ := ih h
      exact ⟨v, List.mem_cons_of_mem u hv, hsource⟩
    · rw [hone] at h
      obtain ⟨v, hv, hsource⟩ := ih h
      exact ⟨v, List.mem_cons_of_mem u hv, hsource⟩

/-- What is deferred starts where one of the references does, or was deferred before. -/
theorem exists_of_mem_deferred {us : List UnresolvedReference} {v : UnresolvedReference}
    (h : v ∈ (R.resolveAll t us s).2.deferredChainRefs) :
    v ∈ s.deferredChainRefs ∨ ∃ u ∈ us, v.fromNodeId = u.fromNodeId := by
  induction us generalizing s with
  | nil => exact .inl h
  | cons u us ih =>
    rw [resolveAll] at h
    rcases hone : R.resolveOne t (t.unresolvedRef u) s.caches with ⟨first | _ | _, caches⟩
    · rw [hone] at h
      exact (ih h).imp_right fun ⟨w, hw, hsource⟩ => ⟨w, List.mem_cons_of_mem u hw, hsource⟩
    · rw [hone] at h
      obtain hold | ⟨w, hw, hsource⟩ := ih h
      · cases List.mem_append.mp hold with
        | inl hbefore => exact .inl hbefore
        | inr hlast =>
          obtain rfl := List.mem_singleton.mp hlast
          exact .inr ⟨u, List.mem_cons_self, rfl⟩
      · exact .inr ⟨w, List.mem_cons_of_mem u hw, hsource⟩
    · rw [hone] at h
      exact (ih h).imp_right fun ⟨w, hw, hsource⟩ => ⟨w, List.mem_cons_of_mem u hw, hsource⟩

/-- Renamed nodes stay where they are. -/
theorem homed_foldl_updateNode (h : X.Homed t) {ns : List Node} (hns : ∀ n ∈ ns, t.At n.id n.filePath) :
    X.Homed (ns.foldl updateNode t) ∧ (∀ id q, (ns.foldl updateNode t).At id q ↔ t.At id q) ∧
      (ns.foldl updateNode t).edges = t.edges ∧ (ns.foldl updateNode t).unresolvedRefs = t.unresolvedRefs := by
  induction ns generalizing t with
  | nil => exact ⟨h, fun _ _ => Iff.rfl, rfl, rfl⟩
  | cons n ns ih =>
    obtain ⟨hn, hns⟩ := List.forall_mem_cons.mp hns
    have hat : ∀ id q, (t.updateNode n).At id q ↔ t.At id q := fun id q => h.consistent.at_updateNode hn
    have hrest : (t.updateNode n).files = t.files ∧ (t.updateNode n).edges = t.edges ∧
        (t.updateNode n).unresolvedRefs = t.unresolvedRefs := by
      rw [updateNode]
      split
      · exact ⟨rfl, rfl, rfl⟩
      · exact ⟨rfl, rfl, rfl⟩
    obtain ⟨hfiles, hedges, hrefs⟩ := hrest
    obtain ⟨hh, hhat, hhedges, hhrefs⟩ :=
      ih (h.of_at (h.consistent.updateNode n) hat hfiles (hrefs ▸ List.Subset.refl _))
        fun m hm => (hat _ _).mpr (hns m hm)
    exact ⟨hh, fun id q => (hhat id q).trans (hat id q), hhedges.trans hedges, hhrefs.trans hrefs⟩

theorem homed_insertEdges (h : X.Homed t) (es : List Edge) : X.Homed (t.insertEdges es) :=
  h.of_at (h.consistent.insertEdges es) (fun _ _ => Iff.rfl) rfl (List.Subset.refl _)

theorem homed_persist (h : X.Homed t) (resolved : List ResolvedRef) : X.Homed (persist t resolved) :=
  (homed_insertEdges h _).of_at ((h.consistent.insertEdges _).filter_unresolvedRefs _) (fun _ _ => Iff.rfl) rfl
    (List.filter_subset_self _)

theorem mem_edges_insertEdges {es : List Edge} {e : Edge} (he : e ∈ (t.insertEdges es).edges) :
    e ∈ t.edges ∨ e ∈ es :=
  (List.mem_append.mp he).imp_right List.mem_of_mem_filter

theorem exists_of_mem_createEdges {found : List ResolvedRef} {e : Edge} (he : e ∈ t.createEdges found) :
    ∃ ref ∈ found, e.source = ref.original.fromNodeId := by
  obtain ⟨ref, href, rfl⟩ := List.mem_map.mp he
  exact ⟨ref, href, rfl⟩

/-- The references of the files are references of symbols in them. -/
theorem exists_of_mem_getUnresolvedReferencesByFiles (h : X.Homed t) {paths : List String} {u : UnresolvedReference}
    (hu : u ∈ t.getUnresolvedReferencesByFiles paths) : ∃ q ∈ paths, t.At u.fromNodeId q := by
  obtain ⟨chunk, hchunk, hu⟩ := List.mem_flatMap.mp hu
  obtain ⟨hmem, hpath⟩ := List.mem_filter.mp hu
  obtain ⟨q, hq, hat⟩ := h.refs u hmem
  rw [decide_eq_true_eq, hq, Option.getD_some] at hpath
  refine ⟨q, ?_, hat⟩
  rw [← flatten_chunks (sqliteParamChunkSize - 1) paths]
  exact List.mem_flatten_of_mem hchunk hpath

section Sync

variable {clock : String → ℕ} {ts : Tables × ResolverState σ} {scan : List String} {d : Disk}

variable (R X) in
/-- What syncs lead to from empty tables. -/
inductive Reached : Tables × ResolverState σ → Prop
  | empty (caches : σ) : Reached ({}, { caches := caches })
  | sync {ts : Tables × ResolverState σ} (h : Reached ts) (clock : String → ℕ) (scan : List String) (d : Disk) :
      Reached (R.sync X clock ts scan d)

variable (R X) in
/-- The tables behind the extraction and the renaming, where the resolution starts. -/
def extracted (clock : String → ℕ) (ts : Tables × ResolverState σ) (scan : List String) (d : Disk) : Tables :=
  (R.postExtract (X.sync clock ts.1 scan d)).foldl updateNode (X.sync clock ts.1 scan d)

variable (R X) in
def changedRefs (clock : String → ℕ) (ts : Tables × ResolverState σ) (scan : List String) (d : Disk) :
    List UnresolvedReference :=
  (R.extracted X clock ts scan d).getUnresolvedReferencesByFiles (scan.filter (X.needsIndexing ts.1 d))

theorem sync_of_ne (h : scan.filter (X.needsIndexing ts.1 d) ≠ []) :
    R.sync X clock ts scan d =
      R.resolveChainedCallsViaConformance
        (R.resolveAndPersist (R.extracted X clock ts scan d) (R.changedRefs X clock ts scan d) ts.2).1
        (R.resolveAndPersist (R.extracted X clock ts scan d) (R.changedRefs X clock ts scan d) ts.2).2 := by
  rw [sync, if_neg h]
  rfl

theorem homed_extracted (hX : X.Lawful) (hR : R.Lawful) (h : X.Homed ts.1) : X.Homed (R.extracted X clock ts scan d) :=
  (homed_foldl_updateNode (h.sync hX scan) (hR.postExtract_at _)).1

theorem Reached.homed (h : R.Reached X ts) (hX : X.Lawful) (hR : R.Lawful) :
    X.Homed ts.1 ∧ ts.2.deferredChainRefs = [] := by
  induction h with
  | empty caches => exact ⟨homed_empty, rfl⟩
  | @sync ts _ clock scan d ih =>
    by_cases hchanged : scan.filter (X.needsIndexing ts.1 d) = []
    · rw [Resolver.sync, if_pos hchanged]
      exact ⟨ih.1.sync hX scan, ih.2⟩
    · rw [sync_of_ne hchanged]
      exact ⟨homed_insertEdges (homed_persist (homed_extracted hX hR ih.1) _) _, rfl⟩

theorem lawful_byPath : byPath.Lawful where
  source_eq := fun _ _ _ _ _ h => congrArg UnresolvedReference.fromNodeId (byPath_original h)
  chain_source_eq := fun _ _ _ h => absurd h nofun
  postExtract_at := fun _ _ h => absurd h List.not_mem_nil

/-- An extraction of texts that are the path of an imported file. -/
def importing : Extractor :=
  { fileNodes with
    extractFromSource := fun path content language =>
      { fileNodes.extractFromSource path content language with
        unresolvedReferences := [⟨"file:" ++ path, content, "imports", 1, 0, none, none, none⟩] } }

theorem lawful_importing : importing.Lawful where
  filePath_eq := lawful_fileNodes.filePath_eq
  ref_filePath := by
    intro path content u hu
    obtain rfl := List.mem_singleton.mp hu
    rfl
  id_ne := lawful_fileNodes.id_ne
  hash_injective := Function.injective_id

/-- The import is lost when `b.ts` is edited. -/
example :
    let d : Disk := fun path => if path = "a.ts" then some ⟨4, 10, some "b.ts"⟩
      else if path = "b.ts" then some ⟨0, 10, some ""⟩ else none
    let d' : Disk := fun path => if path = "b.ts" then some ⟨4, 20, some "c.ts"⟩ else d path
    let ts := byPath.sync importing (fun _ => 15) ({}, { caches := () }) ["a.ts", "b.ts"] d
    (byPath.sync importing (fun _ => 25) ts ["a.ts", "b.ts"] d').1.edges = [] := by
  decide +kernel

end Sync

end Resolver

end Devrouter.Engine
