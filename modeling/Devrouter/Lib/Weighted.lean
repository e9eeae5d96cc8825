import Mathlib.Algebra.Order.BigOperators.Group.List
import Mathlib.Algebra.Order.Field.Basic
import Mathlib.Tactic.FieldSimp
import Mathlib.Tactic.Linarith
import Mathlib.Tactic.Ring

/-!
# Weighted samples

Lists of values with weights, over an ordered field, and two means of them: the weight-normalised one, which
divides the weighted total by the weights, and the scaled one, which divides it by the number of samples. They
differ by the mean weight (`scaledMean_eq`).

A comparison of two lists by their scaled means is one by their normalised means where the mean weights agree
(`mean_lift_of_scaled`). Where they do not, values can be chosen for the given weights such that the scaled
means are apart and the normalised ones are not (`exists_scaled_lift`).
-/

namespace Weighted

variable {K : Type*}

structure Sample (K : Type*) where
  value : K
  weight : K
  deriving DecidableEq

section Means

variable [Field K]

def total (l : List (Sample K)) : K := (l.map fun s => s.value * s.weight).sum

def weight (l : List (Sample K)) : K := (l.map (·.weight)).sum

/-- The weight-normalised mean. -/
def mean (l : List (Sample K)) : K := total l / weight l

/-- The mean of the values scaled by their weights. -/
def scaledMean (l : List (Sample K)) : K := total l / l.length

def meanWeight (l : List (Sample K)) : K := weight l / l.length

@[simp] theorem total_nil : total ([] : List (Sample K)) = 0 := rfl

@[simp] theorem weight_nil : weight ([] : List (Sample K)) = 0 := rfl

@[simp] theorem total_cons (s : Sample K) (l : List (Sample K)) : total (s :: l) = s.value * s.weight + total l :=
  List.sum_cons

@[simp] theorem weight_cons (s : Sample K) (l : List (Sample K)) : weight (s :: l) = s.weight + weight l :=
  List.sum_cons

end Means

section Order

variable [Field K] [LinearOrder K] [IsStrictOrderedRing K] {l l' : List (Sample K)} {d : K}

theorem weight_nonneg (h : ∀ s ∈ l, 0 < s.weight) : 0 ≤ weight l := by
  refine List.sum_nonneg fun w hw => ?_
  obtain ⟨s, hs, rfl⟩ := List.mem_map.mp hw
  exact (h s hs).le

theorem weight_pos (h : ∀ s ∈ l, 0 < s.weight) (hne : l ≠ []) : 0 < weight l := by
  obtain ⟨s, l, rfl⟩ := List.exists_cons_of_ne_nil hne
  rw [weight_cons]
  have hrest := weight_nonneg fun t ht => h t (List.mem_cons_of_mem s ht)
  have hs := h s List.mem_cons_self
  linarith

theorem length_pos_of_ne_nil (hne : l ≠ []) : (0 : K) < l.length :=
  Nat.cast_pos.mpr (List.length_pos_iff.mpr hne)

theorem meanWeight_pos (h : ∀ s ∈ l, 0 < s.weight) (hne : l ≠ []) : 0 < meanWeight l :=
  div_pos (weight_pos h hne) (length_pos_of_ne_nil hne)

theorem weight_le_length (h : ∀ s ∈ l, s.weight ≤ 1) : weight l ≤ l.length := by
  induction l with
  | nil => exact (Nat.cast_zero).ge
  | cons s l ih =>
    have hs := h s List.mem_cons_self
    have hl := ih fun t ht => h t (List.mem_cons_of_mem s ht)
    rw [weight_cons, List.length_cons, Nat.cast_succ]
    linarith

theorem meanWeight_le_one (h : ∀ s ∈ l, s.weight ≤ 1) (hne : l ≠ []) : meanWeight l ≤ 1 :=
  (div_le_one (length_pos_of_ne_nil hne)).mpr (weight_le_length h)

/-- **The two means.** -/
theorem scaledMean_eq (h : ∀ s ∈ l, 0 < s.weight) (hne : l ≠ []) : scaledMean l = meanWeight l * mean l := by
  have hweight : weight l ≠ 0 := (weight_pos h hne).ne'
  have hlength : (l.length : K) ≠ 0 := (length_pos_of_ne_nil hne).ne'
  unfold scaledMean meanWeight mean
  field_simp

/-- **Comparing by scaled means.** Where the mean weights agree and are at most one, a lift of the scaled means
is a lift of the normalised ones. -/
theorem mean_lift_of_scaled (h : ∀ s ∈ l, 0 < s.weight) (h' : ∀ s ∈ l', 0 < s.weight) (hne : l ≠ [])
    (hne' : l' ≠ []) (hone : ∀ s ∈ l, s.weight ≤ 1) (hsame : meanWeight l = meanWeight l') (hd : 0 ≤ d)
    (hlift : scaledMean l' + d < scaledMean l) : mean l' + d < mean l := by
  rw [scaledMean_eq h hne, scaledMean_eq h' hne', ← hsame] at hlift
  have hpos := meanWeight_pos h hne
  have hle := meanWeight_le_one hone hne
  by_contra hnot
  have hmul : meanWeight l * mean l ≤ meanWeight l * (mean l' + d) :=
    mul_le_mul_of_nonneg_left (not_lt.mp hnot) hpos.le
  have hscaled : meanWeight l * d ≤ d := mul_le_of_le_one_left hd hle
  linarith

end Order

/-! ### Values for given weights -/

section Fill

/-- One value for all weights. -/
def constant (y : K) (ws : List K) : List (Sample K) := ws.map fun w => ⟨y, w⟩

/-- One value for the first weight, another for the rest. -/
def headed (a t : K) : List K → List (Sample K)
  | [] => []
  | w :: ws => ⟨a, w⟩ :: constant t ws

theorem map_weight_constant (y : K) (ws : List K) : (constant y ws).map (·.weight) = ws := by
  unfold constant
  rw [List.map_map]
  exact List.map_id _

theorem map_weight_headed (a t : K) (ws : List K) : (headed a t ws).map (·.weight) = ws := by
  cases ws with
  | nil => rfl
  | cons w ws => exact congrArg (w :: ·) (map_weight_constant t ws)

variable [Field K]

theorem weight_constant (y : K) (ws : List K) : weight (constant y ws) = ws.sum := by
  unfold weight constant
  rw [List.map_map]
  exact congrArg List.sum (List.map_id _)

theorem total_constant (y : K) (ws : List K) : total (constant y ws) = y * ws.sum := by
  induction ws with
  | nil => exact (mul_zero y).symm
  | cons w ws ih =>
    show y * w + total (constant y ws) = y * (w + ws.sum)
    rw [ih, mul_add]

variable [LinearOrder K] [IsStrictOrderedRing K] {ws : List K}

theorem sum_pos_of_pos (h : ∀ w ∈ ws, 0 < w) (hne : ws ≠ []) : 0 < ws.sum := by
  have hsum := weight_pos (l := constant 1 ws) (fun s hs => ?_) (fun hnil => hne (List.map_eq_nil_iff.mp hnil))
  · rwa [weight_constant] at hsum
  · obtain ⟨w, hw, rfl⟩ := List.mem_map.mp hs
    exact h w hw

theorem mean_constant (h : ∀ w ∈ ws, 0 < w) (hne : ws ≠ []) (y : K) : mean (constant y ws) = y := by
  unfold mean
  rw [total_constant, weight_constant]
  exact mul_div_cancel_right₀ y (sum_pos_of_pos h hne).ne'

/-- The first value can make the mean anything. -/
theorem exists_mean_headed (h : ∀ w ∈ ws, 0 < w) (hne : ws ≠ []) (t x : K) : ∃ a, mean (headed a t ws) = x := by
  obtain ⟨w, ws, rfl⟩ := List.exists_cons_of_ne_nil hne
  have hw : w ≠ 0 := (h w List.mem_cons_self).ne'
  have hsum : w + ws.sum ≠ 0 := (sum_pos_of_pos h hne).ne'
  refine ⟨(x * (w + ws.sum) - t * ws.sum) / w, ?_⟩
  show (total (⟨_, w⟩ :: constant t ws)) / weight (⟨_, w⟩ :: constant t ws) = x
  rw [total_cons, weight_cons, total_constant, weight_constant]
  field_simp
  ring

/-- A slope carries a line above any bound. -/
theorem exists_mul_gt {m : K} (hm : m ≠ 0) (c : K) : ∃ y, c < m * y := by
  refine ⟨(c + 1) / m, ?_⟩
  rw [mul_div_cancel₀ _ hm]
  exact lt_add_one c

/-- **Unequal mean weights.** For weights whose means differ there are values, all but one of the first list's
equal to a given one, such that the scaled means are more than `d` apart and the normalised ones are not. -/
theorem exists_scaled_lift {ws' : List K} (h : ∀ w ∈ ws, 0 < w) (h' : ∀ w ∈ ws', 0 < w) (hne : ws ≠ [])
    (hne' : ws' ≠ []) (hdiff : ws.sum / ws.length ≠ ws'.sum / ws'.length) (d t : K) :
    ∃ a y, scaledMean (constant y ws') + d < scaledMean (headed a t ws) ∧
      ¬ mean (constant y ws') + d < mean (headed a t ws) := by
  -- the normalised lift is put at the bound, and the base where the weights tell
  obtain ⟨y, hy⟩ := exists_mul_gt (sub_ne_zero.mpr hdiff) (d - ws.sum / ws.length * d)
  obtain ⟨a, ha⟩ := exists_mean_headed h hne t (y + d)
  have hbase := mean_constant h' hne' y
  refine ⟨a, y, ?_, ?_⟩
  · have hweights : ∀ (l : List (Sample K)) (vs : List K), l.map (·.weight) = vs → (∀ v ∈ vs, 0 < v) → vs ≠ [] →
        scaledMean l = vs.sum / vs.length * mean l := by
      intro l vs hl hpos hvs
      have hlength : l.length = vs.length := by rw [← hl, List.length_map]
      have heq : meanWeight l = vs.sum / vs.length := by
        unfold meanWeight weight
        rw [hl, hlength]
      rw [← heq]
      refine scaledMean_eq (fun s hs => hpos _ (hl ▸ List.mem_map_of_mem hs)) fun hnil => hvs ?_
      rw [← hl, hnil]
      rfl
    rw [hweights _ ws (map_weight_headed a t ws) h hne, hweights _ ws' (map_weight_constant y ws') h' hne', ha, hbase]
    rw [sub_mul] at hy
    rw [mul_add]
    linarith
  · rw [ha, hbase]
    exact lt_irrefl _

end Fill

end Weighted
