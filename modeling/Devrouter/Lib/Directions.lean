import Mathlib.Analysis.InnerProductSpace.PiL2
import Mathlib.Analysis.Normed.Module.Normalize
import Mathlib.Data.List.GetD

/-!
# Directions of sums

The direction of a sum of vectors of a real inner product space, and what becomes of it when the sum so far is weighted
anew before the next vector is added.

* `normalize_smul_add_eq_iff` — a weight on the sum so far is harmless when it is none, or when the next vector lies on
  the line of the sum and does not turn it around;
* `norm_sum_eq_length_iff` — vectors of norm at most one have a sum as long as there are vectors just when they are all
  the same unit vector.

Last, lists of numbers as vectors of a Euclidean space.
-/

open NormedSpace

namespace Directions

variable {V : Type*} [NormedAddCommGroup V]

/-! ### Weights -/

section Weight

variable [NormedSpace ℝ V] {S u : V} {r : ℝ}

theorem smul_one_add (a : ℝ) (S : V) : (1 + a) • S = S + a • S := by rw [add_smul, one_smul]

theorem exists_smul_of_normalize_eq {x y : V} (h : normalize x = normalize y) (hy : y ≠ 0) :
    ∃ t : ℝ, 0 < t ∧ x = t • y := by
  have hx : x ≠ 0 := by
    rintro rfl
    rw [normalize_zero_eq_zero] at h
    exact hy ((normalize_eq_zero_iff y).mp h.symm)
  refine ⟨‖x‖ / ‖y‖, div_pos (norm_pos_iff.mpr hx) (norm_pos_iff.mpr hy), ?_⟩
  calc x = ‖x‖ • normalize x := (norm_smul_normalize x).symm
    _ = ‖x‖ • normalize y := by rw [h]
    _ = (‖x‖ / ‖y‖) • y := by rw [NormedSpace.normalize, smul_smul, div_eq_mul_inv]

/-- **A weight on a sum** leaves the direction of the next sum in two cases only. -/
theorem normalize_smul_add_eq_iff (hr : 1 ≤ r) (hu : ‖u‖ ≤ r * ‖S‖) (hne : S + u ≠ 0) :
    normalize (r • S + u) = normalize (S + u) ↔ r = 1 ∨ ∃ a : ℝ, u = a • S ∧ 0 < 1 + a := by
  constructor
  · intro h
    obtain ⟨t, ht, heq⟩ := exists_smul_of_normalize_eq h hne
    by_cases hone : t = 1
    · -- then the weight makes no difference
      rw [hone, one_smul, add_left_inj] at heq
      have hzero : (r - 1) • S = 0 := by rw [sub_smul, one_smul, heq, sub_self]
      rcases smul_eq_zero.mp hzero with hr' | rfl
      · exact .inl (by linarith)
      · rw [norm_zero, mul_zero] at hu
        rw [norm_le_zero_iff.mp hu, add_zero] at hne
        exact absurd rfl hne
    · have ht' : t - 1 ≠ 0 := sub_ne_zero.mpr hone
      have hline : (r - t) • S = (t - 1) • u := by
        rw [sub_smul, sub_smul, one_smul]
        rw [smul_add] at heq
        exact sub_eq_sub_iff_add_eq_add.mpr (by rw [heq, add_comm])
      have ha : u = ((r - t) / (t - 1)) • S := by
        rw [div_eq_inv_mul, mul_smul, hline, smul_smul, inv_mul_cancel₀ ht', one_smul]
      refine .inr ⟨_, ha, ?_⟩
      generalize hdef : (r - t) / (t - 1) = a at ha
      have hS : S ≠ 0 := by
        rintro rfl
        rw [ha, smul_zero, add_zero] at hne
        exact hne rfl
      -- the next vector is no longer than the weighted sum, so this one is not turned around
      have hlen : |a| ≤ r := by
        rw [ha, norm_smul, Real.norm_eq_abs] at hu
        exact le_of_mul_le_mul_right hu (norm_pos_iff.mpr hS)
      have hsum : r + a = t * (1 + a) := by
        have hscaled : (r + a) • S = (t * (1 + a)) • S := by
          rw [add_smul, mul_smul, add_smul, one_smul, ← ha]
          exact heq
        exact smul_left_injective ℝ hS hscaled
      have hge : 0 ≤ t * (1 + a) := by
        rw [← hsum]
        linarith [neg_abs_le a]
      refine lt_of_le_of_ne (nonneg_of_mul_nonneg_right hge ht) fun hzero => hne ?_
      rw [ha, ← smul_one_add, ← hzero, zero_smul]
  · rintro (rfl | ⟨a, rfl, ha⟩)
    · rw [one_smul]
    · have hra : 0 < r + a := by linarith
      have hleft : r • S + a • S = (r + a) • S := (add_smul r a S).symm
      have hright : S + a • S = (1 + a) • S := (smul_one_add a S).symm
      rw [hleft, hright, normalize_smul_of_pos hra, normalize_smul_of_pos ha]

end Weight

/-! ### Sums of unit vectors -/

section Sum

variable [InnerProductSpace ℝ V]

omit [InnerProductSpace ℝ V] in
theorem norm_sum_le {ms : List V} (h : ∀ m ∈ ms, ‖m‖ ≤ 1) : ‖ms.sum‖ ≤ ms.length := by
  induction ms with
  | nil => simp
  | cons m ms ih =>
    rw [List.sum_cons, List.length_cons, Nat.cast_add, Nat.cast_one]
    have hm := h m List.mem_cons_self
    have hms := ih fun m' hm' => h m' (List.mem_cons_of_mem m hm')
    linarith [norm_add_le m ms.sum]

theorem sum_inner (ms : List V) (S : V) : (ms.map fun m => inner ℝ m S).sum = inner ℝ ms.sum S := by
  induction ms with
  | nil => rw [List.map_nil, List.sum_nil, List.sum_nil, inner_zero_left]
  | cons m ms ih => rw [List.map_cons, List.sum_cons, List.sum_cons, inner_add_left, ih]

/-- A sum of terms that are at most `c` is as large as can be only when all are `c`. -/
theorem eq_of_sum_eq {xs : List ℝ} {c : ℝ} (h : ∀ x ∈ xs, x ≤ c) (hsum : xs.length * c ≤ xs.sum) :
    ∀ x ∈ xs, x = c := by
  induction xs with
  | nil => exact fun _ hx => absurd hx List.not_mem_nil
  | cons x xs ih =>
    have hx := h x List.mem_cons_self
    have hxs : ∀ y ∈ xs, y ≤ c := fun y hy => h y (List.mem_cons_of_mem x hy)
    have hle := List.sum_le_card_nsmul xs c hxs
    rw [nsmul_eq_mul] at hle
    rw [List.length_cons, List.sum_cons, Nat.cast_add, Nat.cast_one, add_mul, one_mul] at hsum
    intro y hy
    rcases List.mem_cons.mp hy with rfl | hy
    · linarith
    · exact ih hxs (by linarith) y hy

/-- **The longest sum.** Vectors of norm at most one have a sum of full length only if they are all the same. -/
theorem norm_sum_eq_length_iff {ms : List V} (h : ∀ m ∈ ms, ‖m‖ ≤ 1) (hne : ms.sum ≠ 0) :
    ‖ms.sum‖ = ms.length ↔ ∃ m, ‖m‖ = 1 ∧ ∀ m' ∈ ms, m' = m := by
  have hpos : 0 < ‖ms.sum‖ := norm_pos_iff.mpr hne
  constructor
  · intro hlen
    refine ⟨normalize ms.sum, norm_normalize hne, ?_⟩
    have hle : ∀ x ∈ ms.map fun m => inner ℝ m ms.sum, x ≤ ‖ms.sum‖ := by
      intro x hx
      obtain ⟨m, hm, rfl⟩ := List.mem_map.mp hx
      calc inner ℝ m ms.sum ≤ ‖m‖ * ‖ms.sum‖ := real_inner_le_norm m ms.sum
        _ ≤ 1 * ‖ms.sum‖ := mul_le_mul_of_nonneg_right (h m hm) (norm_nonneg _)
        _ = ‖ms.sum‖ := one_mul _
    have hsum : (ms.map fun m => inner ℝ m ms.sum).length * ‖ms.sum‖ ≤ (ms.map fun m => inner ℝ m ms.sum).sum := by
      rw [sum_inner, real_inner_self_eq_norm_mul_norm, List.length_map, ← hlen]
    intro m hm
    have hinner : inner ℝ m ms.sum = ‖ms.sum‖ := eq_of_sum_eq hle hsum _ (List.mem_map_of_mem hm)
    -- the equality case of the Cauchy-Schwarz inequality
    have hunit : ‖m‖ = 1 := by
      refine le_antisymm (h m hm) (le_of_mul_le_mul_right ?_ hpos)
      calc 1 * ‖ms.sum‖ = inner ℝ m ms.sum := by rw [one_mul, hinner]
        _ ≤ ‖m‖ * ‖ms.sum‖ := real_inner_le_norm m ms.sum
    have hray : inner ℝ m ms.sum = ‖m‖ * ‖ms.sum‖ := by rw [hinner, hunit, one_mul]
    have hsmul := inner_eq_norm_mul_iff_real.mp hray
    rw [hunit, one_smul] at hsmul
    calc m = ‖ms.sum‖⁻¹ • ‖ms.sum‖ • m := by rw [smul_smul, inv_mul_cancel₀ hpos.ne', one_smul]
      _ = ‖ms.sum‖⁻¹ • ms.sum := by rw [hsmul]
  · rintro ⟨m, hm, hall⟩
    rw [List.eq_replicate_of_mem hall, List.sum_replicate, List.length_replicate, ← Nat.cast_smul_eq_nsmul ℝ,
      norm_smul, hm]
    simp

end Sum

/-! ### Lists -/

section Lists

variable (d : ℕ)

/-- A list of numbers as a vector of dimension `d`. -/
noncomputable def euclid (l : List ℝ) : EuclideanSpace ℝ (Fin d) := WithLp.toLp 2 fun i => l.getD i 0

/-- The sum of vectors, coordinate by coordinate. -/
def sumVec (ms : List (List ℝ)) : List ℝ := (List.range d).map fun i => (ms.map fun m => m.getD i 0).sum

variable {d} {l l' : List ℝ}

@[simp] theorem euclid_apply (i : Fin d) : euclid d l i = l.getD i 0 := rfl

@[simp] theorem length_sumVec (ms : List (List ℝ)) : (sumVec d ms).length = d := by
  rw [sumVec, List.length_map, List.length_range]

/-- A list of the dimension is determined by its vector. -/
theorem euclid_inj (hl : l.length = d) (hl' : l'.length = d) : euclid d l = euclid d l' ↔ l = l' := by
  refine ⟨fun h => List.ext_getElem (hl.trans hl'.symm) fun i hi hi' => ?_, fun h => by rw [h]⟩
  have hcoord := congrArg (fun v : EuclideanSpace ℝ (Fin d) => v ⟨i, hl ▸ hi⟩) h
  simpa [hi, hi'] using hcoord

theorem euclid_map {f : ℝ → ℝ} (hl : l.length = d) (i : Fin d) : euclid d (l.map f) i = f (euclid d l i) := by
  have hi : (i : ℕ) < l.length := hl ▸ i.isLt
  simp [hi]

theorem euclid_zipWith {f : ℝ → ℝ → ℝ} (hl : l.length = d) (hl' : l'.length = d) (i : Fin d) :
    euclid d (List.zipWith f l l') i = f (euclid d l i) (euclid d l' i) := by
  have hi : (i : ℕ) < l.length := hl ▸ i.isLt
  have hi' : (i : ℕ) < l'.length := hl' ▸ i.isLt
  simp [hi, hi']

theorem euclid_sumVec (ms : List (List ℝ)) : euclid d (sumVec d ms) = (ms.map (euclid d)).sum := by
  ext i
  rw [euclid_apply]
  have hsum : ∀ ms : List (List ℝ), (ms.map (euclid d)).sum i = (ms.map fun m => m.getD i 0).sum := by
    intro ms
    induction ms with
    | nil => rfl
    | cons m ms ih =>
      rw [List.map_cons, List.sum_cons, List.map_cons, List.sum_cons, PiLp.add_apply, ih, euclid_apply]
  rw [hsum, sumVec]
  simp

theorem norm_euclid (hl : l.length = d) : ‖euclid d l‖ = √(l.map fun x => x * x).sum := by
  subst hl
  rw [EuclideanSpace.norm_eq, ← Fin.sum_univ_fun_getElem]
  refine congrArg _ (Finset.sum_congr rfl fun i _ => ?_)
  rw [euclid_apply, List.getD_eq_getElem _ _ i.isLt, Real.norm_eq_abs, sq_abs, sq]

end Lists

end Directions
