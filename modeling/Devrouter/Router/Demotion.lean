import Mathlib.Analysis.Real.Sqrt
import Mathlib.Data.Rat.Cast.OfScientific
import Mathlib.Tactic.NormNum.OfScientific
import Mathlib.Tactic.Positivity
import Devrouter.Memory.Centroids
import Devrouter.Router.Recall

/-!
# Demotion by false positives

What the false positives of a memory cost it, in exact arithmetic: `BatchFalsePositiveSimilarity` and
`FPDistancePenalty` of `internal/memory/falsepositives.go` on the records that `RecordFalsePositive` keeps.

`falsePositive` is the loop body of the batch. What it answers is a similarity between 0 and 1 and a positive count
(`falsePositive_spec`). On those the penalty is bounded, monotone and saturated (`penalty_spec`).
-/

namespace Devrouter

open Memory (Hash Server Value fpKey parseIntField HoldsMean afterRecords acceptedOn)

section Exact

variable {F : Type} [Field F] [LinearOrder F]

/-- The operations of `float64`, computed exactly. -/
abbrev exactScores (F : Type) [Field F] [LinearOrder F] : Scores F where
  decLT := inferInstance
  decLE := inferInstance

/-- `FPDistancePenalty` in exact arithmetic. -/
def exactPenalty (fp : FPInfo F) : F := @fpDistancePenalty F (exactScores F) fp

/-- `FPDemoteSimThreshold`. -/
def fpDemoteSimThreshold : F := 0.70

/-- `FPMaxDistancePenalty`. -/
def fpMaxDistancePenalty : F := 0.20

/-- `FPSaturationCount`. -/
def fpSaturationCount : ℤ := 3

/-- `cosineFloat32`. -/
def cosineFloat32 (sqrt : F → F) (a b : List F) : F := List.cosine sqrt a b

/-- The body of the loop of `BatchFalsePositiveSimilarity`: what the record of a memory says about a query. -/
def recordInfo (sqrt : F → F) (queryEmbedding : List F) (fields : Hash F) : Option (FPInfo F) :=
  match fields "cent" with
  | none => none
  | some centRaw =>
    let cent := centRaw.floats
    -- a centroid of another dimension is no centroid
    if cent.length ≠ Memory.embedDim then none
    else
      let count := parseIntField (fields.text "count")
      if count ≤ 0 then none
      else
        let sim := cosineFloat32 sqrt queryEmbedding cent
        -- a negative similarity counts as none
        some ⟨if sim < 0 then 0 else sim, count⟩

/-- The false positives of a memory on a server. -/
def falsePositive (sqrt : F → F) (s : Server F) (queryEmbedding : List F) (memKey : String) : Option (FPInfo F) :=
  (s.hashAt (fpKey memKey)).bind (recordInfo sqrt queryEmbedding)

/-! ### What the batch answers -/

/-- What is said about a query: a similarity between 0 and 1, on some false positives. -/
structure FPInfo.Graded (fp : FPInfo F) : Prop where
  count_pos : 0 < fp.count
  sim_nonneg : 0 ≤ fp.sim
  sim_le_one : fp.sim ≤ 1

/-- The penalty, with the weight of the count as a minimum. -/
theorem exactPenalty_eq (fp : FPInfo F) : exactPenalty fp =
    if fp.count = 0 ∨ fp.sim < fpDemoteSimThreshold then 0
    else fpMaxDistancePenalty * min ((fp.count : F) / (fpSaturationCount : F)) 1 * fp.sim := by
  have hmin : ∀ w : F, (if 1 < w then 1 else w) = min w 1 := by
    intro w
    split_ifs with h
    · exact (min_eq_right h.le).symm
    · exact (min_eq_left (not_lt.mp h)).symm
  rw [← hmin]
  rfl

variable {fp fp' : FPInfo F}

/-- Below the threshold nothing is taken off. -/
theorem exactPenalty_of_lt (h : fp.sim < fpDemoteSimThreshold) : exactPenalty fp = 0 := by
  rw [exactPenalty_eq, if_pos (.inr h)]

theorem exactPenalty_of_le (hfp : fp.Graded) (h : fpDemoteSimThreshold ≤ fp.sim) : exactPenalty fp =
    fpMaxDistancePenalty * min ((fp.count : F) / (fpSaturationCount : F)) 1 * fp.sim := by
  rw [exactPenalty_eq, if_neg]
  exact not_or.mpr ⟨hfp.count_pos.ne', not_lt.mpr h⟩

/-! ### Bounds -/

variable [IsStrictOrderedRing F] {sqrt : F → F}

theorem recordInfo_graded (hsqrt : List.IsSqrt sqrt) {q : List F} {fields : Hash F} {fp : FPInfo F}
    (h : recordInfo sqrt q fields = some fp) : fp.Graded := by
  unfold recordInfo at h
  split at h
  · exact nomatch h
  · simp only at h
    split_ifs at h with hdim hcount hneg
    · obtain rfl := Option.some.inj h
      exact ⟨not_le.mp hcount, le_rfl, zero_le_one⟩
    · obtain rfl := Option.some.inj h
      exact ⟨not_le.mp hcount, not_lt.mp hneg, List.cosine_le_one hsqrt _ _⟩

theorem falsePositive_graded (hsqrt : List.IsSqrt sqrt) {s : Server F} {q : List F} {memKey : String} {fp : FPInfo F}
    (h : falsePositive sqrt s q memKey = some fp) : fp.Graded := by
  obtain ⟨fields, -, hfields⟩ := Option.bind_eq_some_iff.mp h
  exact recordInfo_graded hsqrt hfields

theorem fpMaxDistancePenalty_nonneg : (0 : F) ≤ fpMaxDistancePenalty := by
  have hvalue : (fpMaxDistancePenalty : F) = 1 / 5 := by
    unfold fpMaxDistancePenalty
    norm_num
  rw [hvalue]
  positivity

theorem fpSaturationCount_pos : (0 : F) < (fpSaturationCount : F) := by
  unfold fpSaturationCount
  norm_num

/-- The weight of the count. -/
theorem weight_nonneg {n : ℤ} (hn : 0 ≤ n) : 0 ≤ min ((n : F) / (fpSaturationCount : F)) 1 :=
  le_min (div_nonneg (Int.cast_nonneg hn) fpSaturationCount_pos.le) zero_le_one

theorem weight_eq_one {n : ℤ} (hn : fpSaturationCount ≤ n) : min ((n : F) / (fpSaturationCount : F)) 1 = 1 :=
  min_eq_right ((one_le_div fpSaturationCount_pos).mpr (Int.cast_le.mpr hn))

theorem exactPenalty_nonneg (hfp : fp.Graded) : 0 ≤ exactPenalty fp := by
  rcases lt_or_ge fp.sim fpDemoteSimThreshold with hlow | hhigh
  · exact (exactPenalty_of_lt hlow).ge
  · rw [exactPenalty_of_le hfp hhigh]
    exact mul_nonneg (mul_nonneg fpMaxDistancePenalty_nonneg (weight_nonneg hfp.count_pos.le)) hfp.sim_nonneg

theorem exactPenalty_le (hfp : fp.Graded) : exactPenalty fp ≤ fpMaxDistancePenalty := by
  rcases lt_or_ge fp.sim fpDemoteSimThreshold with hlow | hhigh
  · exact (exactPenalty_of_lt hlow).trans_le fpMaxDistancePenalty_nonneg
  · have hweight := weight_nonneg (F := F) hfp.count_pos.le
    rw [exactPenalty_of_le hfp hhigh]
    calc fpMaxDistancePenalty * min ((fp.count : F) / (fpSaturationCount : F)) 1 * fp.sim
        ≤ fpMaxDistancePenalty * 1 * 1 :=
          mul_le_mul (mul_le_mul_of_nonneg_left (min_le_right _ _) fpMaxDistancePenalty_nonneg) hfp.sim_le_one
            hfp.sim_nonneg (mul_nonneg fpMaxDistancePenalty_nonneg zero_le_one)
      _ = fpMaxDistancePenalty := by rw [mul_one, mul_one]

/-- **More false positives and more similarity cost no less.** The pieces join: below the threshold the penalty is 0,
and it is nowhere negative. -/
theorem exactPenalty_mono (hfp : fp.Graded) (hfp' : fp'.Graded) (hcount : fp.count ≤ fp'.count)
    (hsim : fp.sim ≤ fp'.sim) : exactPenalty fp ≤ exactPenalty fp' := by
  rcases lt_or_ge fp.sim fpDemoteSimThreshold with hlow | hhigh
  · exact (exactPenalty_of_lt hlow).trans_le (exactPenalty_nonneg hfp')
  · rw [exactPenalty_of_le hfp hhigh, exactPenalty_of_le hfp' (hhigh.trans hsim)]
    have hweight : min ((fp.count : F) / (fpSaturationCount : F)) 1 ≤
        min ((fp'.count : F) / (fpSaturationCount : F)) 1 :=
      min_le_min (div_le_div_of_nonneg_right (Int.cast_le.mpr hcount) fpSaturationCount_pos.le) le_rfl
    refine mul_le_mul (mul_le_mul_of_nonneg_left hweight fpMaxDistancePenalty_nonneg) hsim hfp.sim_nonneg ?_
    exact mul_nonneg fpMaxDistancePenalty_nonneg (weight_nonneg hfp'.count_pos.le)

/-- From the saturation on, the count does not matter. -/
theorem exactPenalty_saturated (hfp : fp.Graded) (hfp' : fp'.Graded) (hcount : fpSaturationCount ≤ fp.count)
    (hcount' : fpSaturationCount ≤ fp'.count) (hsim : fp.sim = fp'.sim) : exactPenalty fp = exactPenalty fp' := by
  rcases lt_or_ge fp.sim fpDemoteSimThreshold with hlow | hhigh
  · rw [exactPenalty_of_lt hlow, exactPenalty_of_lt (hsim ▸ hlow)]
  · rw [exactPenalty_of_le hfp hhigh, exactPenalty_of_le hfp' (hsim ▸ hhigh), weight_eq_one hcount,
      weight_eq_one hcount', hsim]

/-- **False positives, in exact arithmetic.** After any calls of `RecordFalsePositive` on a server without a record of
the memory, its record has the number of the accepted calls and the mean of their embeddings, and the bytes of a
centroid give it back. What any record says about any query costs between nothing and the maximum, nothing below
the threshold, no less with more false positives or more similarity, and the same from the saturation on. -/
theorem falsePositives_exact (hsqrt : List.IsSqrt sqrt) :
    (∀ (s : Server F) (memKey : String), memKey ≠ "" → s.keys.lookup (fpKey memKey) = none →
      ∀ calls : List (String × List F), HoldsMean (afterRecords s calls) memKey (acceptedOn memKey calls)) ∧
    (∀ v : List (BitVec 32), Memory.bytesToFloat32 (Memory.float32ToBytes v) = some v) ∧
    ∀ (s : Server F) (q : List F) (memKey : String) (fp : FPInfo F), falsePositive sqrt s q memKey = some fp →
      0 ≤ exactPenalty fp ∧ exactPenalty fp ≤ fpMaxDistancePenalty ∧
      (fp.sim < fpDemoteSimThreshold → exactPenalty fp = 0) ∧
      ∀ (s' : Server F) (q' : List F) (memKey' : String) (fp' : FPInfo F),
        falsePositive sqrt s' q' memKey' = some fp' →
          (fp.count ≤ fp'.count → fp.sim ≤ fp'.sim → exactPenalty fp ≤ exactPenalty fp') ∧
          (fpSaturationCount ≤ fp.count → fpSaturationCount ≤ fp'.count → fp.sim = fp'.sim →
            exactPenalty fp = exactPenalty fp') := by
  refine ⟨?_, Memory.bytesToFloat32_float32ToBytes, ?_⟩
  · intro s memKey hkey hs calls
    -- the stored mean is that of the accepted embeddings
    exact Memory.holdsMean_run hkey hs calls
  · intro s q memKey fp h
    -- what the index answers is graded, so the penalty is within its bounds and rises with both
    have hfp := falsePositive_graded hsqrt h
    refine ⟨exactPenalty_nonneg hfp, exactPenalty_le hfp, exactPenalty_of_lt, ?_⟩
    intro s' q' memKey' fp' h'
    have hfp' := falsePositive_graded hsqrt h'
    exact ⟨exactPenalty_mono hfp hfp', exactPenalty_saturated hfp hfp'⟩

end Exact

/-! ### Two false positives -/

/-- The embedding of a query. -/
noncomputable def flatQuery (x : ℝ) : List ℝ := List.replicate Memory.embedDim x

/-- Two queries that a memory was of no use to. -/
noncomputable def twoQueries : List (String × List ℝ) := [("mem:cart", flatQuery 1), ("mem:cart", flatQuery 3)]

/-- Their mean is in the record, and no query is charged more than the maximum for them. -/
theorem falsePositives_cart :
    let s := afterRecords (Server.empty ℝ) twoQueries
    HoldsMean s "mem:cart" [flatQuery 1, flatQuery 3] ∧
      ∀ q fp, falsePositive Real.sqrt s q "mem:cart" = some fp → exactPenalty fp ≤ fpMaxDistancePenalty := by
  have hsqrt : List.IsSqrt Real.sqrt := fun x hx => ⟨Real.sqrt_nonneg x, Real.mul_self_sqrt hx⟩
  obtain ⟨hmean, -, hpenalty⟩ := falsePositives_exact hsqrt
  -- both calls are accepted
  have hall : ∀ c ∈ twoQueries, decide (c.1 = "mem:cart" ∧ c.2.length = Memory.embedDim) = true := by
    intro c hc
    rcases List.mem_pair.mp hc with rfl | rfl
    · exact decide_eq_true ⟨rfl, List.length_replicate⟩
    · exact decide_eq_true ⟨rfl, List.length_replicate⟩
  have haccepted : acceptedOn "mem:cart" twoQueries = [flatQuery 1, flatQuery 3] := by
    unfold acceptedOn
    rw [List.filter_eq_self.mpr hall, twoQueries, List.map_cons, List.map_cons, List.map_nil]
  have hempty : (Server.empty ℝ).keys.lookup (fpKey "mem:cart") = none := AList.lookup_empty _
  have hrecord : ∀ calls vs, acceptedOn "mem:cart" calls = vs →
      HoldsMean (afterRecords (Server.empty ℝ) calls) "mem:cart" vs := by
    rintro calls _ rfl
    exact hmean (Server.empty ℝ) "mem:cart" (by decide) hempty calls
  exact ⟨hrecord _ _ haccepted, fun q fp h => (hpenalty _ q _ fp h).2.1⟩

end Devrouter
