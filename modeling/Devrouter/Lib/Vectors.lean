import Mathlib.Algebra.BigOperators.Fin
import Mathlib.Algebra.Order.BigOperators.Ring.Finset
import Mathlib.Algebra.Order.Field.Basic
import Mathlib.Data.List.GetD

/-!
# Vectors as lists

The cosine of two vectors and the mean of a list of vectors, over an ordered field with a square root.

`cosine_le_one` is the Cauchy-Schwarz inequality, `cosine_self` the case of equality. `meanVec_append` is the law of
the running mean: the mean of one more vector from the mean so far and the number of vectors.
-/

namespace List

variable {F : Type} [Field F]

/-! ### The cosine -/

section Cosine

variable [LinearOrder F] (sqrt : F → F)

/-- The cosine of two vectors; 0 when they have no common dimension or one of them is zero. -/
def cosine (a b : List F) : F :=
  if a.length ≠ b.length ∨ a.length = 0 then 0
  else
    let dot := (zipWith (· * ·) a b).sum
    let na := (a.map fun x => x * x).sum
    let nb := (b.map fun y => y * y).sum
    if na = 0 ∨ nb = 0 then 0 else dot / (sqrt na * sqrt nb)

/-- What a square root is. -/
def IsSqrt (sqrt : F → F) : Prop := ∀ x, 0 ≤ x → 0 ≤ sqrt x ∧ sqrt x * sqrt x = x

variable [IsStrictOrderedRing F]

theorem sum_mul_self_nonneg (a : List F) : 0 ≤ (a.map fun x => x * x).sum := by
  refine sum_nonneg fun y hy => ?_
  obtain ⟨x, -, rfl⟩ := mem_map.mp hy
  exact mul_self_nonneg x

/-- The Cauchy-Schwarz inequality, for lists. -/
theorem sq_dot_le {a b : List F} (h : a.length = b.length) :
    (zipWith (· * ·) a b).sum ^ 2 ≤ (a.map fun x => x * x).sum * (b.map fun y => y * y).sum := by
  -- all three sums are over the pairs
  have hdot : zipWith (· * ·) a b = (a.zip b).map fun p => p.1 * p.2 := by
    rw [← map_uncurry_zip_eq_zipWith]
    rfl
  have hna : (a.map fun x => x * x) = (a.zip b).map fun p => p.1 ^ 2 := by
    conv_lhs => rw [← map_fst_zip h.le, map_map]
    exact map_congr_left fun p _ => (sq p.1).symm
  have hnb : (b.map fun y => y * y) = (a.zip b).map fun p => p.2 ^ 2 := by
    conv_lhs => rw [← map_snd_zip h.ge, map_map]
    exact map_congr_left fun p _ => (sq p.2).symm
  rw [hdot, hna, hnb, ← Fin.sum_univ_fun_getElem, ← Fin.sum_univ_fun_getElem, ← Fin.sum_univ_fun_getElem]
  exact Finset.sum_mul_sq_le_sq_mul_sq _ _ _

/-- The square of the norm of a vector that is not zero. -/
theorem sum_mul_self_pos {a : List F} (h : ∃ x ∈ a, x ≠ 0) : 0 < (a.map fun x => x * x).sum := by
  obtain ⟨x, hx, hne⟩ := h
  have hnonneg : ∀ y ∈ a.map fun x => x * x, 0 ≤ y := by
    intro y hy
    obtain ⟨z, -, rfl⟩ := mem_map.mp hy
    exact mul_self_nonneg z
  calc 0 < x * x := mul_self_pos.mpr hne
    _ ≤ (a.map fun x => x * x).sum := single_le_sum hnonneg _ (mem_map.mpr ⟨x, hx, rfl⟩)

variable {sqrt}

/-- A vector that is not zero is like itself. -/
theorem cosine_self (hsqrt : IsSqrt sqrt) {a : List F} (h : ∃ x ∈ a, x ≠ 0) : cosine sqrt a a = 1 := by
  have hpos := sum_mul_self_pos h
  have hlen : ¬ (a.length ≠ a.length ∨ a.length = 0) := by
    obtain ⟨x, hx, -⟩ := h
    have := length_pos_of_mem hx
    omega
  have hdot : zipWith (· * ·) a a = a.map fun x => x * x := zipWith_self
  unfold cosine
  rw [if_neg hlen]
  simp only [or_self]
  rw [if_neg hpos.ne', (hsqrt _ hpos.le).2, hdot, div_self hpos.ne']

/-- No vector is more like another than that. -/
theorem cosine_le_one (hsqrt : IsSqrt sqrt) (a b : List F) : cosine sqrt a b ≤ 1 := by
  unfold cosine
  split_ifs with hlen
  · exact zero_le_one
  · have hab : a.length = b.length := not_not.mp (not_or.mp hlen).1
    obtain ⟨ha, hasq⟩ := hsqrt _ a.sum_mul_self_nonneg
    obtain ⟨hb, hbsq⟩ := hsqrt _ b.sum_mul_self_nonneg
    simp only
    split_ifs with hzero
    · exact zero_le_one
    · refine div_le_one_of_le₀ ((le_abs_self _).trans (abs_le_of_sq_le_sq ?_ (mul_nonneg ha hb))) (mul_nonneg ha hb)
      calc (zipWith (· * ·) a b).sum ^ 2
          ≤ (a.map fun x => x * x).sum * (b.map fun y => y * y).sum := sq_dot_le hab
        _ = (sqrt (a.map fun x => x * x).sum * sqrt (b.map fun y => y * y).sum) ^ 2 := by
          rw [mul_pow, sq, sq, hasq, hbsq]

end Cosine

/-! ### The mean of vectors -/

/-- The mean of vectors of dimension `d`, coordinate by coordinate. -/
def meanVec (d : ℕ) (vs : List (List F)) : List F :=
  (range d).map fun i => (vs.map fun v => v.getD i 0).sum / vs.length

variable {d : ℕ} {vs : List (List F)} {v : List F}

@[simp] theorem length_meanVec : (meanVec d vs).length = d := by
  unfold meanVec
  rw [length_map, length_range]

theorem getElem_meanVec {i : ℕ} (h : i < (meanVec d vs).length) :
    (meanVec d vs)[i] = (vs.map fun v => v.getD i 0).sum / vs.length := by
  simp [meanVec]

/-- One vector is its own mean. -/
theorem meanVec_singleton (hv : v.length = d) : meanVec d [v] = v := by
  refine ext_getElem (length_meanVec.trans hv.symm) fun i hi hi' => ?_
  rw [getElem_meanVec, map_singleton, sum_singleton, length_singleton, Nat.cast_one, div_one, getD_eq_getElem v 0 hi']

/-- **The running mean.** The mean of one more vector is computed from the mean so far. -/
theorem meanVec_append [CharZero F] (hvs : vs ≠ []) (hv : v.length = d) :
    meanVec d (vs ++ [v]) =
      zipWith (fun x y => ((vs.length : F) * x + y) / ((vs.length : F) + 1)) (meanVec d vs) v := by
  have hcount : (vs.length : F) ≠ 0 := Nat.cast_ne_zero.mpr (length_pos_iff.mpr hvs).ne'
  have hlen : (zipWith (fun x y => ((vs.length : F) * x + y) / ((vs.length : F) + 1)) (meanVec d vs) v).length = d := by
    rw [length_zipWith, length_meanVec, hv, min_self]
  refine ext_getElem ((length_meanVec (F := F)).trans hlen.symm) fun i hi hi' => ?_
  have hiv : i < v.length := by
    rw [length_meanVec] at hi
    rwa [hv]
  rw [getElem_zipWith, getElem_meanVec, getElem_meanVec, ← getD_eq_getElem v 0 hiv]
  -- one coordinate: the sum so far is the number of vectors times their mean
  have hsum : ((vs ++ [v]).map fun w => w.getD i 0).sum = (vs.map fun w => w.getD i 0).sum + v.getD i 0 := by
    rw [map_append, sum_append, map_singleton, sum_singleton]
  rw [hsum, mul_div_cancel₀ _ hcount, length_append, length_singleton, Nat.cast_add, Nat.cast_one]

end List
