import Mathlib.Order.Defs.LinearOrder
import Devrouter.Router.Recall

/-!
# What the relevance gate lets through

The relevance gate drops hits by their distance, by the plan and by their distance with the penalty of their false
positives, and ranks what is left. `relevanceGate_outcome` describes the list that comes out without the passes: which
hits are in it, with which scores, and in which order.

Scores are compared as numbers are (`OrderedScores`); what the operations on them round to is left open.
-/

namespace Devrouter

/-- Scores that are compared as numbers are. -/
class OrderedScores (R : Type) [Scores R] : Prop where
  le_trans : ∀ a b c : R, a ≤ b → b ≤ c → a ≤ c
  le_total : ∀ a b : R, a ≤ b ∨ b ≤ a
  le_antisymm : ∀ a b : R, a ≤ b → b ≤ a → a = b
  lt_iff_not_le : ∀ a b : R, a < b ↔ ¬ b ≤ a
  beq_iff_eq : ∀ a b : R, (a == b) = true ↔ a = b

instance : OrderedScores ℚ where
  le_trans _ _ _ hab hbc := hab.trans hbc
  le_total a b := (le_or_gt a b).imp id le_of_lt
  le_antisymm _ _ hab hba := hab.antisymm hba
  lt_iff_not_le _ _ := not_le.symm
  beq_iff_eq _ _ := ⟨fun h => eq_of_beq h, fun h => h ▸ BEq.rfl⟩

/-- The linear order of the scores. -/
@[reducible] def OrderedScores.linearOrder (R : Type) [Scores R] [OrderedScores R] : LinearOrder R where
  le_refl a := (OrderedScores.le_total a a).elim id id
  le_trans := OrderedScores.le_trans
  le_total := OrderedScores.le_total
  le_antisymm := OrderedScores.le_antisymm
  lt_iff_le_not_ge a b := by
    rw [OrderedScores.lt_iff_not_le]
    exact ⟨fun h => ⟨(OrderedScores.le_total a b).resolve_right h, h⟩, fun h => h.2⟩
  toDecidableLE := Scores.decLE
  toDecidableLT := Scores.decLT

/-! ### Ranking -/

section Rank

variable {R α β : Type} [Scores R]

/-- The order of a ranking: the higher rank, then the place in the input. -/
def placedBefore (a b : (α × R) × ℕ) : Bool :=
  if a.1.2 != b.1.2 then decide (b.1.2 < a.1.2) else decide (a.2 < b.2)

/-- The sort of `rankByPlan`, for hits of any kind. -/
def rankBy (rank : α → R) (l : List α) : List α :=
  (((l.map fun a => (a, rank a)).zipIdx).mergeSort fun a b => !placedBefore b a).map fun s => s.1.1

theorem rankByPlan_eq_rankBy (L : RuneLower) (hits : List (MemoryHit R)) (plan : QueryPlan) :
    rankByPlan L hits plan = rankBy (planRank L plan.shouldTerms) hits := rfl

/-- Entries that carry hits are ranked as the hits are. -/
theorem rankBy_map (f : α → β) (rank : β → R) (l : List α) :
    (rankBy (fun a => rank (f a)) l).map f = rankBy rank (l.map f) := by
  have hzip : ((l.map f).map fun b => (b, rank b)).zipIdx =
      ((l.map fun a => (a, rank (f a))).zipIdx).map fun s => ((f s.1.1, s.1.2), s.2) := by
    rw [List.map_map, List.zipIdx_map, List.zipIdx_map, List.map_map]
    rfl
  unfold rankBy
  rw [hzip, List.map_map,
    ← List.map_mergeSort (r := fun a b => !placedBefore b a) (l := (l.map fun a => (a, rank (f a))).zipIdx)
      fun _ _ _ _ => rfl, List.map_map]
  rfl

omit [Scores R] in
theorem zipIdx_increasing (l : List α) : l.zipIdx.Pairwise fun a b => a.2 < b.2 := by
  have hrange : (l.zipIdx.map Prod.snd).Pairwise (· < ·) := by
    rw [List.zipIdx_map_snd]
    exact List.pairwise_lt_range'
  exact List.pairwise_map.mp hrange

theorem rankBy_perm (rank : α → R) (l : List α) : (rankBy rank l).Perm l := ranked_perm rank _ l

variable [OrderedScores R]

attribute [local instance] OrderedScores.linearOrder

theorem not_placedBefore_iff {a b : (α × R) × ℕ} :
    (!placedBefore b a) = true ↔ b.1.2 < a.1.2 ∨ a.1.2 = b.1.2 ∧ a.2 ≤ b.2 := by
  unfold placedBefore
  by_cases heq : b.1.2 = a.1.2
  · have hbne : (b.1.2 != a.1.2) = false := by
      rw [bne, (OrderedScores.beq_iff_eq _ _).mpr heq]
      rfl
    rw [hbne, if_neg (by decide), Bool.not_eq_true', decide_eq_false_iff_not, not_lt]
    exact ⟨fun h => .inr ⟨heq.symm, h⟩, fun h => (h.resolve_left fun hlt => hlt.ne heq).2⟩
  · have hbne : (b.1.2 != a.1.2) = true := by
      rw [bne, Bool.not_eq_true', ← Bool.not_eq_true, OrderedScores.beq_iff_eq]
      exact heq
    rw [hbne, if_pos rfl, Bool.not_eq_true', decide_eq_false_iff_not, not_lt]
    exact ⟨fun h => .inl (lt_of_le_of_ne h heq), fun h => (h.resolve_right fun hsame => heq hsame.1.symm).le⟩

theorem placedBefore_trans (a b c : (α × R) × ℕ) (hab : (!placedBefore b a) = true)
    (hbc : (!placedBefore c b) = true) : (!placedBefore c a) = true := by
  rw [not_placedBefore_iff] at hab hbc ⊢
  rcases hab with hab | ⟨hab, hi⟩
  · rcases hbc with hbc | ⟨hbc, -⟩
    · exact .inl (hbc.trans hab)
    · exact .inl (hbc ▸ hab)
  · rcases hbc with hbc | ⟨hbc, hj⟩
    · exact .inl (hab ▸ hbc)
    · exact .inr ⟨hab.trans hbc, hi.trans hj⟩

theorem placedBefore_total (a b : (α × R) × ℕ) : (!placedBefore b a || !placedBefore a b) = true := by
  rw [Bool.or_eq_true, not_placedBefore_iff, not_placedBefore_iff]
  obtain h | h | h := lt_trichotomy a.1.2 b.1.2
  · exact .inr (.inl h)
  · exact (le_total a.2 b.2).imp (fun hle => .inr ⟨h, hle⟩) fun hle => .inr ⟨h.symm, hle⟩
  · exact .inl (.inl h)

omit [Scores R] [OrderedScores R] in
theorem ranked_snd {rank : α → R} {l : List α} {s : (α × R) × ℕ} (hs : s ∈ (l.map fun a => (a, rank a)).zipIdx) :
    s.1.2 = rank s.1.1 := by
  have hmem : s.1 ∈ l.map fun a => (a, rank a) := by
    rw [← List.zipIdx_map_fst 0 (l.map fun a => (a, rank a))]
    exact List.mem_map_of_mem hs
  obtain ⟨a, -, ha⟩ := List.mem_map.mp hmem
  rw [← ha]

/-- **Ranks fall.** -/
theorem rankBy_sorted (rank : α → R) (l : List α) : (rankBy rank l).Pairwise fun a b => rank b ≤ rank a := by
  have hsorted := List.pairwise_mergeSort placedBefore_trans placedBefore_total
    ((l.map fun a => (a, rank a)).zipIdx)
  unfold rankBy
  rw [List.pairwise_map]
  refine hsorted.imp_of_mem fun {a b} ha hb hab => ?_
  rw [← ranked_snd (List.mem_mergeSort.mp ha), ← ranked_snd (List.mem_mergeSort.mp hb)]
  exact (not_placedBefore_iff.mp hab).elim le_of_lt fun h => h.1.ge

/-- **Equal ranks** stay in the order of the input. -/
theorem rankBy_stable (rank : α → R) (l : List α) (r : R) :
    (rankBy rank l).filter (fun a => rank a == r) = l.filter fun a => rank a == r := by
  set zipped := (l.map fun a => (a, rank a)).zipIdx with hzipped
  -- what has the rank, in the order of the input, is a part of what is sorted, and as long
  have hties : (zipped.filter fun s => rank s.1.1 == r).Pairwise fun a b => (!placedBefore b a) = true := by
    refine ((zipIdx_increasing _).filter _).imp_of_mem fun {a b} ha hb hlt => ?_
    refine not_placedBefore_iff.mpr (.inr ⟨?_, hlt.le⟩)
    obtain ⟨ha, har⟩ := List.mem_filter.mp ha
    obtain ⟨hb, hbr⟩ := List.mem_filter.mp hb
    rw [ranked_snd ha, ranked_snd hb, (OrderedScores.beq_iff_eq _ _).mp har, (OrderedScores.beq_iff_eq _ _).mp hbr]
  have hsub : (zipped.filter fun s => rank s.1.1 == r).Sublist
      ((zipped.mergeSort fun a b => !placedBefore b a).filter fun s => rank s.1.1 == r) := by
    have hwhole := (List.sublist_mergeSort placedBefore_trans placedBefore_total hties List.filter_sublist).filter
      fun s => rank s.1.1 == r
    simpa only [List.filter_filter, Bool.and_self] using hwhole
  have heq := hsub.eq_of_length ((List.mergeSort_perm zipped _).filter _).length_eq.symm
  calc (rankBy rank l).filter (fun a => rank a == r)
      = ((zipped.mergeSort fun a b => !placedBefore b a).filter fun s => rank s.1.1 == r).map fun s => s.1.1 := by
        unfold rankBy
        rw [List.filter_map]
        rfl
    _ = (zipped.filter fun s => rank s.1.1 == r).map fun s => s.1.1 := by rw [heq]
    _ = (zipped.map fun s => s.1.1).filter fun a => rank a == r := by
        rw [List.filter_map]
        rfl
    _ = l.filter fun a => rank a == r := by rw [hzipped, zipIdx_ranked]

/-- What is ranked already stays as it is. -/
theorem rankBy_of_sorted {rank : α → R} {l : List α} (hsorted : l.Pairwise fun a b => rank b ≤ rank a) :
    rankBy rank l = l := by
  have hranks : ((l.map fun a => (a, rank a)).zipIdx).Pairwise fun a b => rank b.1.1 ≤ rank a.1.1 := by
    rw [← zipIdx_ranked rank l, List.pairwise_map] at hsorted
    exact hsorted
  have hindex : ((l.map fun a => (a, rank a)).zipIdx).Pairwise fun a b => a.2 < b.2 := zipIdx_increasing _
  have hordered : ((l.map fun a => (a, rank a)).zipIdx).Pairwise fun a b => (!placedBefore b a) = true := by
    refine (hranks.and hindex).imp_of_mem fun {a b} ha hb hab => not_placedBefore_iff.mpr ?_
    rw [ranked_snd ha, ranked_snd hb]
    exact hab.1.lt_or_eq.imp id fun heq => ⟨heq.symm, hab.2.le⟩
  unfold rankBy
  rw [List.mergeSort_of_pairwise hordered, zipIdx_ranked]

end Rank

/-! ### The outcome of the gate -/

section Outcome

variable {R : Type} [Scores R] (L : RuneLower) (mem : MemoryStore R) (maxDist : R) (queryEmbed : List R)
variable (plan : QueryPlan)

/-- The score of a hit and its penalty. -/
def adjustedScore (h : MemoryHit R) : R :=
  match penaltyOf mem queryEmbed h with
  | none => h.score
  | some penalty => h.score + penalty

/-- A hit with its adjusted score. -/
def withPenalty (h : MemoryHit R) : MemoryHit R := { h with score := adjustedScore mem queryEmbed h }

/-- What the gate asks of a hit: no score or one within the distance, before and after the penalty, and the plan. -/
def Admitted (h : MemoryHit R) : Prop :=
  (h.score ≤ 0 ∨ h.score ≤ maxDist) ∧ keptByPlan L plan h = true ∧
    (adjustedScore mem queryEmbed h ≤ 0 ∨ adjustedScore mem queryEmbed h ≤ maxDist)

instance : DecidablePred (Admitted L mem maxDist queryEmbed plan) :=
  fun _ => inferInstanceAs (Decidable ((_ ∨ _) ∧ _ ∧ (_ ∨ _)))

/-- The admitted hits with their adjusted scores, in the order they were recalled in. -/
def admittedHits (hits : List (MemoryHit R)) : List (MemoryHit R) :=
  (hits.filter fun h => Admitted L mem maxDist queryEmbed plan h).map (withPenalty mem queryEmbed)

/-- What comes out of the gate: the admitted hits, each as often as it was recalled, with only its score changed and
only by its penalty; the higher ranks come first, and equal ranks stay in their order. -/
structure GateOutcome (hits out : List (MemoryHit R)) : Prop where
  admitted : out.Perm (admittedHits L mem maxDist queryEmbed plan hits)
  ranks : out.Pairwise fun a b => planRank L plan.shouldTerms b ≤ planRank L plan.shouldTerms a
  ties : ∀ r, out.filter (fun h => planRank L plan.shouldTerms h == r) =
    (admittedHits L mem maxDist queryEmbed plan hits).filter fun h => planRank L plan.shouldTerms h == r

variable {L mem maxDist queryEmbed plan}

theorem demoted_eq_withPenalty (h : MemoryHit R) : demoted mem queryEmbed h = withPenalty mem queryEmbed h := by
  unfold demoted withPenalty adjustedScore
  cases penaltyOf mem queryEmbed h <;> rfl

variable [OrderedScores R]

attribute [local instance] OrderedScores.linearOrder

/-- With a positive distance, the floor drops the scores that are above zero and above it. -/
theorem passesFloor_iff (hdist : 0 < maxDist) {h : MemoryHit R} :
    passesFloor maxDist h = true ↔ h.score ≤ 0 ∨ h.score ≤ maxDist := by
  have hpos : decide (maxDist ≤ 0) = false := decide_eq_false (not_le.mpr hdist)
  unfold passesFloor
  rw [hpos, Bool.false_or, Bool.not_eq_true', Bool.and_eq_false_iff, decide_eq_false_iff_not,
    decide_eq_false_iff_not, not_lt, not_lt]

theorem gated_eq_admittedHits (hdist : 0 < maxDist) (hits : List (MemoryHit R)) :
    gated L mem maxDist queryEmbed plan hits = admittedHits L mem maxDist queryEmbed plan hits := by
  unfold gated admittedHits
  rw [List.filter_filter, List.filter_filter, funext demoted_eq_withPenalty]
  congr 1
  refine List.filter_congr fun h _ => ?_
  rw [Bool.eq_iff_iff, Bool.and_eq_true, Bool.and_eq_true, passesFloor_iff hdist, passesFloor_iff hdist,
    decide_eq_true_eq]
  -- the second floor reads the adjusted score
  show ((adjustedScore mem queryEmbed h ≤ 0 ∨ adjustedScore mem queryEmbed h ≤ maxDist) ∧ _) ∧ _ ↔ _ ∧ _ ∧ _
  rw [and_comm]
  exact and_congr_right fun _ => and_comm

/-- **The gate** with a positive distance returns the admitted hits, ranked. -/
theorem relevanceGate_outcome (L : RuneLower) (mem : MemoryStore R) (maxDist : R) (queryEmbed : List R)
    (plan : QueryPlan) (hits : List (MemoryHit R)) (hdist : 0 < maxDist) :
    GateOutcome L mem maxDist queryEmbed plan hits (relevanceGate L mem maxDist queryEmbed plan hits) := by
  rw [relevanceGate_eq, gated_eq_admittedHits hdist, rankByPlan_eq_rankBy]
  exact ⟨rankBy_perm _ _, rankBy_sorted _ _, rankBy_stable _ _⟩

end Outcome

/-- Three memories near the query and one too far from it, one of them with false positives. -/
def orderHits : List (MemoryHit ℚ) :=
  [⟨"mem:shop:flow:checkout", 1 / 2, fun _ => ""⟩, ⟨"mem:shop:file:src-cart.go", 3 / 10, fun _ => ""⟩,
    ⟨"mem:shop:flow:refund", 7 / 10, fun _ => ""⟩,
    ⟨"mem:shop:flow:order", 3 / 10, fun k => if k = "name" then "order" else ""⟩]

/-- The checkout was flagged three times by queries like this one. -/
def flaggedStore : MemoryStore ℚ where
  searchAllWithEmbed _ _ _ := orderHits
  searchAll _ _ _ := orderHits
  falsePositive _ key := if key = "mem:shop:flow:checkout" then some ⟨9 / 10, 3⟩ else none
  reachable := true

def orderPlan : QueryPlan where
  mustTerms := []
  shouldTerms := ["order"]
  excludeTerms := []
  phrases := []
  contextHints := []
  mustAutoAnchored := false

/-- The refund is too far, the checkout is with its penalty, and the order ranks higher than the cart. -/
theorem relevanceGate_orders :
    (0 : ℚ) < 3 / 5 ∧
      GateOutcome asciiRunes flaggedStore (3 / 5) (List.replicate 768 1) orderPlan orderHits
        (relevanceGate asciiRunes flaggedStore (3 / 5) (List.replicate 768 1) orderPlan orderHits) ∧
      (admittedHits asciiRunes flaggedStore (3 / 5) (List.replicate 768 1) orderPlan orderHits).map (·.key) =
        ["mem:shop:file:src-cart.go", "mem:shop:flow:order"] ∧
      (admittedHits asciiRunes flaggedStore (3 / 5) (List.replicate 768 1) orderPlan orderHits).map
        (planRank asciiRunes orderPlan.shouldTerms) = [7 / 10, 8 / 10] :=
  ⟨by norm_num, relevanceGate_outcome asciiRunes flaggedStore (3 / 5) (List.replicate 768 1) orderPlan orderHits
    (by norm_num), by decide +kernel, by decide +kernel⟩

end Devrouter
