import Devrouter.Router.Ranking
import Devrouter.Router.Shown

/-!
# What the primary context keeps of the ranking

`rankByPlan` puts the hits in order, and `buildPrimaryContext` sorts their entries again, by confidence, before
`trimResponse` cuts them off. Confidence knows of no should term. `ranking_survives_iff` says when the cut still follows
the ranking: the hits carry their place in it, and no hit may be cut off while a later one that is not fresher stays.
-/

namespace Devrouter

section Resort

variable {R : Type} [Scores R] (L : RuneLower) (plan : QueryPlan)

/-- `rankByPlan`, for hits that know their type. -/
def rankTyped (hits : List (TypedHit R)) : List (TypedHit R) :=
  rankBy (fun h => planRank L plan.shouldTerms h.toMemoryHit) hits

theorem rankTyped_toMemoryHit (hits : List (TypedHit R)) :
    (rankTyped L plan hits).map (·.toMemoryHit) = rankByPlan L (hits.map (·.toMemoryHit)) plan :=
  rankBy_map (fun h : TypedHit R => h.toMemoryHit) (planRank L plan.shouldTerms) hits

/-! ### Hits as memories -/

variable (gitFileHash : String → String → String) (repoPath : String) (summary : String → String)

namespace TypedHit

/-- Whether the memory of a file, a function or a flow is stale. -/
def stale (h : TypedHit R) : Bool :=
  if h.type = "flow" then isFlowStale gitFileHash repoPath (h.fields "files") (h.fields "git_hash")
  else if h.type = "func" then isStale gitFileHash repoPath (h.fields "file") (h.fields "git_hash")
  else isStale gitFileHash repoPath (h.fields "path") (h.fields "git_hash")

def confidence (h : TypedHit R) : R := Devrouter.confidence (hitSimilarity h.score) (h.stale gitFileHash repoPath)

def memory (h : TypedHit R) : AgentMemory R :=
  if h.type = "flow" then .flow (h.flow gitFileHash repoPath)
  else if h.type = "func" then .func (h.func gitFileHash repoPath)
  else .file (h.file gitFileHash repoPath)

/-- The entry of its memory. -/
def entry (h : TypedHit R) : PrimaryContextEntry R := (h.memory gitFileHash repoPath).entry summary

theorem entry_confidence (h : TypedHit R) :
    (h.entry gitFileHash repoPath summary).confidence = h.confidence gitFileHash repoPath := by
  unfold entry memory confidence stale
  split_ifs <;> rfl

end TypedHit

/-! ### Places -/

omit [Scores R] in
/-- The hits of a type, with their places. -/
def placedOf (type : String) (ranked : List (TypedHit R)) : List (TypedHit R × ℕ) :=
  ranked.zipIdx.filter fun p => !p.1.isAuto && decide (p.1.type = type)

omit [Scores R] in
/-- The hits that have an entry, type by type, with their places in the ranking. -/
def placed (ranked : List (TypedHit R)) : List (TypedHit R × ℕ) :=
  placedOf "file" ranked ++ placedOf "func" ranked ++ placedOf "flow" ranked

variable (sortSlice : SliceSort R) (ranked : List (TypedHit R)) (anchors : List (PrimaryContextEntry R))
variable (profile : Profile)

/-- The hits whose entries stay, with their places. -/
def kept : List (TypedHit R × ℕ) :=
  (sortSlice.sortBy (fun p => p.1.confidence gitFileHash repoPath) (placed ranked)).take (roomBehind anchors profile)

/-- The hits whose entries are cut off. -/
def cutOff : List (TypedHit R × ℕ) :=
  (sortSlice.sortBy (fun p => p.1.confidence gitFileHash repoPath) (placed ranked)).drop (roomBehind anchors profile)

/-- **The ranking survives**: no entry is cut off in favour of one that was placed after it and is not fresher. -/
def RankingSurvives : Prop :=
  ∀ x ∈ cutOff gitFileHash repoPath sortSlice ranked anchors profile,
    ∀ y ∈ kept gitFileHash repoPath sortSlice ranked anchors profile, x.2 < y.2 →
      x.1.stale gitFileHash repoPath = true ∧ y.1.stale gitFileHash repoPath = false

/-- Of a memory and one that is placed after it and not fresher: memories of more confidence than the later one fill
the room, or all that have the confidence of the earlier one fit. -/
def ConfidenceMakesRoom : Prop :=
  ∀ x ∈ placed ranked, ∀ y ∈ placed ranked, x.2 < y.2 →
    (x.1.stale gitFileHash repoPath = true ∧ y.1.stale gitFileHash repoPath = false) ∨
      roomBehind anchors profile ≤ (placed ranked).countP (fun z =>
        decide (y.1.confidence gitFileHash repoPath < z.1.confidence gitFileHash repoPath)) ∨
      (placed ranked).countP (fun z =>
        decide (x.1.confidence gitFileHash repoPath ≤ z.1.confidence gitFileHash repoPath)) ≤ roomBehind anchors profile

instance : Decidable (ConfidenceMakesRoom gitFileHash repoPath ranked anchors profile) :=
  inferInstanceAs (Decidable (∀ x ∈ placed ranked, ∀ y ∈ placed ranked, x.2 < y.2 → _))

variable {ranked}

omit [Scores R] in
theorem placedOf_fst (type : String) : (placedOf type ranked).map Prod.fst = typed type ranked := by
  have hfilter : placedOf type ranked =
      ranked.zipIdx.filter ((fun h : TypedHit R => !h.isAuto && decide (h.type = type)) ∘ Prod.fst) := rfl
  rw [hfilter, ← List.filter_map, List.zipIdx_map_fst]
  rfl

omit [Scores R] in
theorem type_of_mem_placedOf {type : String} {p : TypedHit R × ℕ} (hp : p ∈ placedOf type ranked) : p.1.type = type :=
  of_decide_eq_true ((Bool.and_eq_true _ _).mp (List.mem_filter.mp hp).2).2

omit [Scores R] in
/-- Places tell the hits apart. -/
theorem placed_nodup : (placed ranked).Nodup := by
  have hzip : ranked.zipIdx.Nodup := (zipIdx_increasing ranked).imp fun h heq => h.ne (congrArg Prod.snd heq)
  have hdisjoint : ∀ {type type' : String}, type ≠ type' →
      List.Disjoint (placedOf type ranked) (placedOf type' ranked) :=
    fun hne p hp hp' => hne ((type_of_mem_placedOf hp).symm.trans (type_of_mem_placedOf hp'))
  refine ((hzip.filter _).append (hzip.filter _) (hdisjoint (by decide))).append (hzip.filter _) ?_
  exact List.disjoint_append_left.mpr ⟨hdisjoint (by decide), hdisjoint (by decide)⟩

theorem map_memory_placedOf {type : String} (make : TypedHit R → AgentMemory R)
    (hmake : ∀ h : TypedHit R, h.type = type → h.memory gitFileHash repoPath = make h) :
    (placedOf type ranked).map (fun p => p.1.memory gitFileHash repoPath) = (typed type ranked).map make := by
  rw [← placedOf_fst, List.map_map]
  exact List.map_congr_left fun p hp => hmake p.1 (type_of_mem_placedOf hp)

/-- The memories of the answer are those of the placed hits. -/
theorem memories_placed : (buildAllMemories gitFileHash repoPath ranked).memories =
    (placed ranked).map fun p => p.1.memory gitFileHash repoPath := by
  rw [buildAllMemories_memories]
  unfold placed StructuredMemories.shown structuredMemories
  dsimp only
  rw [List.map_append, List.map_append, List.map_map, List.map_map, List.map_map,
    map_memory_placedOf gitFileHash repoPath (fun h => .file (h.file gitFileHash repoPath)) fun h htype => ?_,
    map_memory_placedOf gitFileHash repoPath (fun h => .func (h.func gitFileHash repoPath)) fun h htype => ?_,
    map_memory_placedOf gitFileHash repoPath (fun h => .flow (h.flow gitFileHash repoPath)) fun h htype => ?_]
  · rfl
  all_goals
    unfold TypedHit.memory
    rw [htype]
    rfl

theorem inOrder_placed : (buildAllMemories gitFileHash repoPath ranked).inOrder summary sortSlice =
    (sortSlice.sortBy (fun p => p.1.confidence gitFileHash repoPath) (placed ranked)).map
      fun p => p.1.memory gitFileHash repoPath := by
  unfold MemoryResults.inOrder
  rw [memories_placed, SliceSort.sortBy_map]
  congr 2
  funext p
  exact p.1.entry_confidence gitFileHash repoPath summary

variable {S D : Type}

/-- **What is returned**: the anchors that fit and the entries of the hits that stay. -/
theorem returnedContext_kept (dp : DevPrompt S (PrimaryContextEntry R) D) :
    returnedContext summary sortSlice (buildAllMemories gitFileHash repoPath ranked) anchors profile dp =
      anchors.take profile.maxPrimaryCtx.toNat ++
        (kept gitFileHash repoPath sortSlice ranked anchors profile).map fun p =>
          p.1.entry gitFileHash repoPath summary := by
  rw [← labelledContext_snd]
  unfold labelledContext kept roomBehind
  rw [trimSection_eq_take, inOrder_placed, List.map_map, List.take_append, List.map_append, List.length_map,
    ← List.map_take, ← List.map_take, List.map_map, List.map_map]
  congr 1
  exact List.map_id _

/-! ### The cut -/

variable [OrderedScores R]

attribute [local instance] OrderedScores.linearOrder

variable (ranked) in
theorem rankingSurvives_iff : (∀ sortSlice : SliceSort R,
      RankingSurvives gitFileHash repoPath sortSlice ranked anchors profile) ↔
    ConfidenceMakesRoom gitFileHash repoPath ranked anchors profile := by
  constructor
  · intro h x hx y hy hlt
    by_contra hnone
    rw [not_or, not_or, not_le, not_le] at hnone
    have hne : x ≠ y := fun heq => hlt.ne (congrArg Prod.snd heq)
    -- with too little room, some order of the ties keeps `y` and cuts `x` off
    obtain ⟨s, hkept, hcut⟩ := (SliceSort.exists_cut_iff (fun p => p.1.confidence gitFileHash repoPath)
      (roomBehind anchors profile) placed_nodup hx hy hne).mpr hnone.2
    exact hnone.1 (h s x hcut y hkept hlt)
  · intro h s x hcut y hkept hlt
    have hmem : ∀ {p : TypedHit R × ℕ}, p ∈ s.sortBy (fun p => p.1.confidence gitFileHash repoPath) (placed ranked) →
        p ∈ placed ranked := (s.sortBy_perm _ _).mem_iff.mp
    obtain hfresh | hfull | hfit := h x (hmem (List.mem_of_mem_drop hcut)) y (hmem (List.mem_of_mem_take hkept)) hlt
    · exact hfresh
    · exact absurd (s.countP_lt_of_kept hkept) hfull.not_gt
    · exact absurd (s.lt_countP_of_cut hcut) hfit.not_gt

/-- **The ranking in the prompt.** With the hits in the order of `rankByPlan`, the returned primary context holds, after
the anchors, the entries of the hits that are kept; these follow the ranking, however ties are sorted, exactly when
confidence makes room for it. -/
theorem ranking_survives_iff (hits : List (TypedHit R)) :
    (rankTyped L plan hits).map (·.toMemoryHit) = rankByPlan L (hits.map (·.toMemoryHit)) plan ∧
    (∀ (sortSlice : SliceSort R) (dp : DevPrompt S (PrimaryContextEntry R) D),
      returnedContext summary sortSlice (buildAllMemories gitFileHash repoPath (rankTyped L plan hits)) anchors profile
          dp =
        anchors.take profile.maxPrimaryCtx.toNat ++
          (kept gitFileHash repoPath sortSlice (rankTyped L plan hits) anchors profile).map fun p =>
            p.1.entry gitFileHash repoPath summary) ∧
    ((∀ sortSlice : SliceSort R,
        RankingSurvives gitFileHash repoPath sortSlice (rankTyped L plan hits) anchors profile) ↔
      ConfidenceMakesRoom gitFileHash repoPath (rankTyped L plan hits) anchors profile) :=
  ⟨rankTyped_toMemoryHit L plan hits,
    fun sortSlice dp => returnedContext_kept gitFileHash repoPath summary sortSlice anchors profile dp,
    rankingSurvives_iff gitFileHash repoPath (rankTyped L plan hits) anchors profile⟩

end Resort

/-! ### A named memory that is cut off -/

/-- A fresh memory of an agent. -/
def agentHit (type name : String) (score : ℚ) : TypedHit ℚ where
  key := "mem:shop:" ++ type ++ ":" ++ name
  score := score
  fields := fun f => if f = "path" ∨ f = "name" then name else if f = "source" then "agent" else ""
  type := type

/-- The file that is named in the query, a little further from it than three others. -/
def namedHits : List (TypedHit ℚ) :=
  [agentHit "file" "src/order.go" (45 / 100), agentHit "file" "src/cart.go" (40 / 100),
    agentHit "func" "Checkout" (40 / 100), agentHit "flow" "payment" (40 / 100)]

/-- The default profile, with room for the least entries it may have. -/
def narrowProfile : Profile := { Profile.default "debug" with maxPrimaryCtx := 3 }

theorem rankTyped_namedHits : rankTyped asciiRunes orderPlan namedHits = namedHits :=
  rankBy_of_sorted (by decide +kernel)

/-- With room for all of them the file stays. -/
theorem named_kept :
    roomBehind ([] : List (PrimaryContextEntry ℚ)) (Profile.default "debug") = 10 ∧
      ∀ sortSlice : SliceSort ℚ, RankingSurvives (fun _ _ => "") "" sortSlice (rankTyped asciiRunes orderPlan namedHits)
        [] (Profile.default "debug") := by
  refine ⟨by decide +kernel, (ranking_survives_iff (S := Unit) (D := Unit) asciiRunes orderPlan (fun _ _ => "") "" id []
    (Profile.default "debug") namedHits).2.2.mpr ?_⟩
  rw [rankTyped_namedHits]
  decide +kernel

/-- **The ranking is lost**: the file that ranks first is cut off, and the three others stay. -/
theorem named_cutOff :
    (namedHits.map fun h => planRank asciiRunes orderPlan.shouldTerms h.toMemoryHit) = [65 / 100, 6 / 10, 6 / 10, 6 / 10] ∧
      ∀ sortSlice : SliceSort ℚ,
        ¬RankingSurvives (fun _ _ => "") "" sortSlice (rankTyped asciiRunes orderPlan namedHits) [] narrowProfile := by
  refine ⟨by decide +kernel, fun s h => ?_⟩
  rw [rankTyped_namedHits] at h
  have hcut : (agentHit "file" "src/order.go" (45 / 100), 0) ∈
      cutOff (fun _ _ => "") "" s namedHits [] narrowProfile :=
    s.cut_of_le_countP (List.mem_of_getElem? (i := 0) rfl) (by decide +kernel)
  have hkept : (agentHit "flow" "payment" (40 / 100), 3) ∈
      kept (fun _ _ => "") "" s namedHits [] narrowProfile :=
    s.kept_of_countP_le (List.mem_of_getElem? (i := 3) rfl) (by decide +kernel)
  exact absurd (h _ hcut _ hkept (by decide)).1 (by decide)

end Devrouter
