import Mathlib.Data.Set.Insert
import Mathlib.Order.Basic
import Mathlib.Tactic.Common

/-!
# Layers of a search

A search from `a` over the relation `hop` that does not enter the vertices of `V` again. `Hops hop V a k x`
says that `k` hops lead from `a` to `x` without entering `V`, and `Layer hop V a k x` that no fewer do; with
nothing to avoid this is the distance.

`layer_succ_iff` is the step of a breadth-first search: the next layer is what the last one reaches outside `V`
and outside the layers so far.

A `sweep` makes several bounded searches one after another, each around what has been covered before. Nothing is
covered that is not within the bound of a start (`mem_sweep_cases`); the converse fails, since a search that goes
around may get less far.
-/

namespace Search

variable {α : Type}

/-- A path of a given number of hops that does not enter `V`. It may start there. -/
inductive Hops (hop : α → α → Prop) (V : Set α) (a : α) : ℕ → α → Prop
  | start : Hops hop V a 0 a
  | next {k : ℕ} {x y : α} (hx : Hops hop V a k x) (hop_xy : hop x y) (hy : y ∉ V) : Hops hop V a (k + 1) y

/-- At `k` hops, and at no fewer. -/
def Layer (hop : α → α → Prop) (V : Set α) (a : α) (k : ℕ) (x : α) : Prop :=
  Hops hop V a k x ∧ ∀ j < k, ¬ Hops hop V a j x

/-- At `k` hops from some vertex of `T`, and from none at fewer. -/
def Nearest (hop : α → α → Prop) (T : Set α) (k : ℕ) (x : α) : Prop :=
  (∃ t ∈ T, Hops hop ∅ t k x) ∧ ∀ t ∈ T, ∀ j < k, ¬ Hops hop ∅ t j x

variable {hop : α → α → Prop} {V W : Set α} {a x y : α} {j k : ℕ}

/-- The less there is to avoid, the more paths there are. -/
theorem Hops.mono (hVW : V ⊆ W) (h : Hops hop W a k x) : Hops hop V a k x := by
  induction h with
  | start => exact .start
  | next _ hxy hy ih => exact .next ih hxy fun hmem => hy (hVW hmem)

/-- And the more hops there are. -/
theorem Hops.mono_hop {hop' : α → α → Prop} (hhop : ∀ x y, hop x y → hop' x y) (h : Hops hop V a k x) :
    Hops hop' V a k x := by
  induction h with
  | start => exact .start
  | next _ hxy hy ih => exact .next ih (hhop _ _ hxy) hy

theorem Hops.notMem (h : Hops hop V a (k + 1) x) : x ∉ V := by
  cases h with
  | next _ _ hy => exact hy

theorem layer_zero : Layer hop V a 0 x ↔ x = a := by
  constructor
  · rintro ⟨h, -⟩
    cases h with
    | start => rfl
  · rintro rfl
    exact ⟨.start, fun j hj => absurd hj (Nat.not_lt_zero j)⟩

/-- What is reached is on a layer. -/
theorem Hops.exists_layer (h : Hops hop V a k x) : ∃ j ≤ k, Layer hop V a j x := by
  induction k using Nat.strong_induction_on with
  | _ k ih =>
    by_cases hmin : ∀ j < k, ¬ Hops hop V a j x
    · exact ⟨k, le_rfl, h, hmin⟩
    · push Not at hmin
      obtain ⟨j, hj, hpath⟩ := hmin
      obtain ⟨i, hi, hlayer⟩ := ih j hj hpath
      exact ⟨i, hi.trans hj.le, hlayer⟩

theorem Layer.unique (hj : Layer hop V a j x) (hk : Layer hop V a k x) : j = k := by
  rcases lt_trichotomy j k with hlt | heq | hgt
  · exact absurd hj.1 (hk.2 j hlt)
  · exact heq
  · exact absurd hk.1 (hj.2 k hgt)

/-- The last hop but one of a shortest path is on the layer before. -/
theorem Layer.exists_prev (h : Layer hop V a (k + 1) y) : ∃ x, Layer hop V a k x ∧ hop x y := by
  obtain ⟨hpath, hmin⟩ := h
  cases hpath with
  | next hx hxy hy => exact ⟨_, ⟨hx, fun j hj hpath => hmin (j + 1) (Nat.succ_lt_succ hj) (.next hpath hxy hy)⟩, hxy⟩

/-- **The next layer.** -/
theorem layer_succ_iff : Layer hop V a (k + 1) y ↔
    (∃ x, Layer hop V a k x ∧ hop x y) ∧ y ∉ V ∧ ∀ j ≤ k, ¬ Layer hop V a j y := by
  constructor
  · intro h
    exact ⟨h.exists_prev, h.1.notMem, fun j hj hlayer => h.2 j (Nat.lt_succ_of_le hj) hlayer.1⟩
  · rintro ⟨⟨x, hx, hxy⟩, hy, hnew⟩
    refine ⟨.next hx.1 hxy hy, fun j hj hpath => ?_⟩
    obtain ⟨i, hi, hlayer⟩ := hpath.exists_layer
    exact hnew i (by omega) hlayer

/-- Beyond an empty layer there is nothing. -/
theorem not_layer_of_le (hempty : ∀ x, ¬ Layer hop V a j x) (hjk : j ≤ k) : ¬ Layer hop V a k x := by
  induction k, hjk using Nat.le_induction generalizing x with
  | base => exact hempty x
  | succ k _ ih =>
    intro h
    obtain ⟨y, hy, -⟩ := h.exists_prev
    exact ih hy

/-! ### Sweeps -/

/-- What is covered after a search from `a` of at most `n` hops. -/
def covered (hop : α → α → Prop) (n : ℕ) (V : Set α) (a : α) : Set α := V ∪ {x | ∃ k ≤ n, Hops hop V a k x}

section Sweep

variable (down up : α → α → Prop) (beside : α → Set α) (n : ℕ)

/-- A round of a sweep: a search down from `a`, one up, and what is beside `a`. -/
def sweepRound (V : Set α) (a : α) : Set α := covered up n (covered down n (insert a V) a) a ∪ beside a

/-- The rounds of the given starts, one after another. -/
def sweep (V : Set α) (as : List α) : Set α := as.foldl (sweepRound down up beside n) V

end Sweep

variable {down up : α → α → Prop} {beside : α → Set α} {n : ℕ} {as : List α}

theorem subset_covered : V ⊆ covered hop n V a := Set.subset_union_left

/-- Around what has been covered or not, it is within the bound. -/
theorem mem_covered_cases (hx : x ∈ covered hop n V a) : x ∈ V ∨ ∃ k ≤ n, Hops hop ∅ a k x := by
  rcases hx with hx | ⟨k, hk, hpath⟩
  · exact .inl hx
  · exact .inr ⟨k, hk, hpath.mono (Set.empty_subset V)⟩

theorem insert_subset_sweepRound : insert a V ⊆ sweepRound down up beside n V a :=
  (subset_covered.trans subset_covered).trans Set.subset_union_left

theorem mem_sweepRound_cases (hx : x ∈ sweepRound down up beside n V a) :
    x ∈ V ∨ (∃ k ≤ n, Hops down ∅ a k x) ∨ (∃ k ≤ n, Hops up ∅ a k x) ∨ x ∈ beside a := by
  rcases hx with hx | hx
  · rcases mem_covered_cases hx with hx | hup
    · rcases mem_covered_cases hx with hx | hdown
      · rcases hx with rfl | hx
        · exact .inr (.inl ⟨0, Nat.zero_le n, .start⟩)
        · exact .inl hx
      · exact .inr (.inl hdown)
    · exact .inr (.inr (.inl hup))
  · exact .inr (.inr (.inr hx))

theorem subset_sweep : V ⊆ sweep down up beside n V as := by
  induction as generalizing V with
  | nil => exact subset_rfl
  | cons a as ih => exact ((Set.subset_insert a V).trans insert_subset_sweepRound).trans ih

/-- Starts are covered. -/
theorem mem_sweep_of_start (ha : a ∈ as) : a ∈ sweep down up beside n V as := by
  induction as generalizing V with
  | nil => exact absurd ha List.not_mem_nil
  | cons b as ih =>
    rcases List.mem_cons.mp ha with rfl | ha
    · have hround : a ∈ sweepRound down up beside n V a := insert_subset_sweepRound (Set.mem_insert a V)
      exact subset_sweep (V := sweepRound down up beside n V a) hround
    · exact ih ha

/-- **What is covered** is within the bound of a start, or beside one. -/
theorem mem_sweep_cases (hx : x ∈ sweep down up beside n V as) :
    x ∈ V ∨ ∃ a ∈ as, (∃ k ≤ n, Hops down ∅ a k x) ∨ (∃ k ≤ n, Hops up ∅ a k x) ∨ x ∈ beside a := by
  induction as generalizing V with
  | nil => exact .inl hx
  | cons a as ih =>
    rcases ih hx with hx | ⟨b, hb, hreach⟩
    · exact (mem_sweepRound_cases hx).imp id fun hreach => ⟨a, List.mem_cons_self, hreach⟩
    · exact .inr ⟨b, List.mem_cons_of_mem a hb, hreach⟩

end Search
