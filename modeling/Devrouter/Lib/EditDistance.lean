import Mathlib.Data.List.Infix
import Mathlib.Data.Nat.Find
import Mathlib.Order.Nat
import Mathlib.Tactic.Common

/-!
# The edit distance of two lists

Two lists are within `n` edits (`EditDistance.Within`) when they can be written one above the other, with gaps, such
that at most `n` columns differ. The distance is the least such `n`. Cutting off the last column gives the recurrence
of the usual table (`EditDistance.dist_snoc`), and cutting an alignment in two shows that a distance is at least the
least one of each row of the table (`EditDistance.exists_dist_take_le`).
-/

namespace EditDistance

variable {α : Type} [DecidableEq α]

/-- A column of an alignment; the other side of a lone element is a gap. -/
abbrev Column (α : Type) := Option α × Option α

def upper (l : List (Column α)) : List α := l.filterMap Prod.fst

def lower (l : List (Column α)) : List α := l.filterMap Prod.snd

/-- The columns that differ. -/
def cost (l : List (Column α)) : ℕ := l.countP fun p => p.1 ≠ p.2

/-- At most `n` edits lead from one list to the other. -/
def Within (n : ℕ) (a b : List α) : Prop := ∃ l : List (Column α), upper l = a ∧ lower l = b ∧ cost l ≤ n

omit [DecidableEq α] in
@[simp] theorem upper_append (l m : List (Column α)) : upper (l ++ m) = upper l ++ upper m :=
  List.filterMap_append

omit [DecidableEq α] in
@[simp] theorem lower_append (l m : List (Column α)) : lower (l ++ m) = lower l ++ lower m :=
  List.filterMap_append

@[simp] theorem cost_append (l m : List (Column α)) : cost (l ++ m) = cost l + cost m := List.countP_append

theorem cost_singleton (p : Column α) : cost [p] = if p.1 = p.2 then 0 else 1 := by
  by_cases h : p.1 = p.2 <;> simp [cost, h]

theorem Within.mono {m n : ℕ} {a b : List α} (h : Within m a b) (hmn : m ≤ n) : Within n a b := by
  obtain ⟨l, ha, hb, hcost⟩ := h
  exact ⟨l, ha, hb, hcost.trans hmn⟩

/-- A column more. -/
theorem Within.snoc {n : ℕ} {a b : List α} (h : Within n a b) (p : Column α) :
    Within (n + if p.1 = p.2 then 0 else 1) (a ++ p.1.toList) (b ++ p.2.toList) := by
  obtain ⟨l, rfl, rfl, hcost⟩ := h
  refine ⟨l ++ [p], ?_, ?_, ?_⟩
  · rw [upper_append, upper, upper]
    obtain ⟨_ | x, q⟩ := p <;> rfl
  · rw [lower_append, lower, lower]
    obtain ⟨q, _ | y⟩ := p <;> rfl
  · rw [cost_append, cost_singleton]
    exact Nat.add_le_add_right hcost _

theorem within_self (a : List α) : Within 0 a a := by
  induction a using List.reverseRecOn with
  | nil => exact ⟨[], rfl, rfl, le_rfl⟩
  | append_singleton a x ih =>
    have h := ih.snoc (some x, some x)
    rwa [if_pos rfl] at h

theorem within_left (a : List α) : Within a.length a [] := by
  induction a using List.reverseRecOn with
  | nil => exact within_self []
  | append_singleton a x ih =>
    rw [List.length_append]
    exact ih.snoc (some x, none)

theorem within_right (a b : List α) : Within (a.length + b.length) a b := by
  induction b using List.reverseRecOn with
  | nil => exact within_left a
  | append_singleton b y ih =>
    rw [List.length_append, ← Nat.add_assoc]
    have h := ih.snoc (none, some y)
    rw [if_neg nofun, Option.toList_none, List.append_nil] at h
    exact h

theorem length_upper_le (l : List (Column α)) :
    (upper l).length ≤ (lower l).length + cost l ∧ (lower l).length ≤ (upper l).length + cost l := by
  induction l with
  | nil => exact ⟨le_rfl, le_rfl⟩
  | cons p l ih =>
    obtain ⟨_ | x, _ | y⟩ := p
    all_goals simp [upper, lower, cost, List.countP_cons] at ih ⊢
    all_goals omega

/-- Each side is the other one and the edits, at most. -/
theorem Within.length_le {n : ℕ} {a b : List α} (h : Within n a b) :
    a.length ≤ b.length + n ∧ b.length ≤ a.length + n := by
  obtain ⟨l, rfl, rfl, hcost⟩ := h
  obtain ⟨hup, hlow⟩ := length_upper_le l
  omega

/-- **The last column** of an alignment of two lists that are not empty. -/
theorem within_snoc {n : ℕ} {a b : List α} {x y : α} (h : Within n (a ++ [x]) (b ++ [y])) :
    (∃ m, n = m + 1 ∧ Within m (a ++ [x]) b) ∨ (∃ m, n = m + 1 ∧ Within m a (b ++ [y])) ∨
      ∃ m, n = m + (if x = y then 0 else 1) ∧ Within m a b := by
  obtain ⟨l, ha, hb, hcost⟩ := h
  induction l using List.reverseRecOn with
  | nil => exact absurd ha (by simp [upper])
  | append_singleton l p ih =>
    rw [upper_append] at ha
    rw [lower_append] at hb
    rw [cost_append, cost_singleton] at hcost
    obtain ⟨_ | u, _ | v⟩ := p
    · -- an empty column says nothing
      rw [if_pos rfl] at hcost
      exact ih (by simpa [upper] using ha) (by simpa [lower] using hb) hcost
    · rw [if_neg nofun] at hcost
      obtain ⟨hb, -⟩ := List.append_inj' (show lower l ++ [v] = b ++ [y] from hb) rfl
      exact .inl ⟨n - 1, by omega, l, by simpa [upper] using ha, hb, by omega⟩
    · rw [if_neg nofun] at hcost
      obtain ⟨ha, -⟩ := List.append_inj' (show upper l ++ [u] = a ++ [x] from ha) rfl
      exact .inr (.inl ⟨n - 1, by omega, l, ha, by simpa [lower] using hb, by omega⟩)
    · obtain ⟨hup, hu⟩ := List.append_inj' (show upper l ++ [u] = a ++ [x] from ha) rfl
      obtain ⟨hlow, hv⟩ := List.append_inj' (show lower l ++ [v] = b ++ [y] from hb) rfl
      obtain rfl : u = x := List.singleton_inj.mp hu
      obtain rfl : v = y := List.singleton_inj.mp hv
      simp only [Option.some.injEq] at hcost
      have hle : (if u = v then 0 else 1) ≤ n := (Nat.le_add_left _ _).trans hcost
      refine .inr (.inr ⟨n - if u = v then 0 else 1, (Nat.sub_add_cancel hle).symm, l, hup, hlow, ?_⟩)
      exact Nat.le_sub_of_add_le hcost

open Classical in
/-- The least number of edits. -/
noncomputable def dist (a b : List α) : ℕ :=
  Nat.find (show ∃ n, Within n a b from ⟨_, within_right a b⟩)

theorem dist_le_iff {n : ℕ} {a b : List α} : dist a b ≤ n ↔ Within n a b := by
  classical
  rw [dist, Nat.find_le_iff]
  exact ⟨fun ⟨m, hm, h⟩ => h.mono hm, fun h => ⟨n, le_rfl, h⟩⟩

theorem within_dist (a b : List α) : Within (dist a b) a b := dist_le_iff.mp le_rfl

theorem dist_self (a : List α) : dist a a = 0 := Nat.le_zero.mp (dist_le_iff.mpr (within_self a))

theorem length_le_dist (a b : List α) : a.length ≤ b.length + dist a b ∧ b.length ≤ a.length + dist a b :=
  (within_dist a b).length_le

theorem dist_nil_left (b : List α) : dist [] b = b.length := by
  refine le_antisymm (dist_le_iff.mpr ?_) (by simpa using (length_le_dist [] b).2)
  simpa using within_right [] b

theorem dist_nil_right (a : List α) : dist a [] = a.length :=
  le_antisymm (dist_le_iff.mpr (within_left a)) (by simpa using (length_le_dist a []).1)

/-- **The recurrence of the table.** -/
theorem dist_snoc (a b : List α) (x y : α) :
    dist (a ++ [x]) (b ++ [y]) =
      min (min (dist (a ++ [x]) b + 1) (dist a (b ++ [y]) + 1)) (dist a b + if x = y then 0 else 1) := by
  refine le_antisymm (le_min (le_min ?_ ?_) ?_) ?_
  · have h := (within_dist (a ++ [x]) b).snoc (none, some y)
    rw [if_neg nofun, Option.toList_none, List.append_nil] at h
    exact dist_le_iff.mpr h
  · have h := (within_dist a (b ++ [y])).snoc (some x, none)
    rw [if_neg nofun, Option.toList_none, List.append_nil] at h
    exact dist_le_iff.mpr h
  · have h := (within_dist a b).snoc (some x, some y)
    simp only [Option.some.injEq] at h
    exact dist_le_iff.mpr h
  · obtain ⟨m, hm, h⟩ | ⟨m, hm, h⟩ | ⟨m, hm, h⟩ := within_snoc (within_dist (a ++ [x]) (b ++ [y]))
    · rw [hm]
      exact (min_le_left _ _).trans ((min_le_left _ _).trans (Nat.add_le_add_right (dist_le_iff.mpr h) 1))
    · rw [hm]
      exact (min_le_left _ _).trans ((min_le_right _ _).trans (Nat.add_le_add_right (dist_le_iff.mpr h) 1))
    · rw [hm]
      exact (min_le_right _ _).trans (Nat.add_le_add_right (dist_le_iff.mpr h) _)

omit [DecidableEq α] in
/-- An alignment is cut where its upper side has a given front. -/
theorem exists_cut {l : List (Column α)} {a₁ a₂ : List α} (h : upper l = a₁ ++ a₂) :
    ∃ l₁ l₂, l = l₁ ++ l₂ ∧ upper l₁ = a₁ := by
  induction l generalizing a₁ with
  | nil => exact ⟨[], [], rfl, ((List.append_eq_nil_iff.mp h.symm).1).symm⟩
  | cons p l ih =>
    cases a₁ with
    | nil => exact ⟨[], p :: l, rfl, rfl⟩
    | cons c a₁ =>
      obtain ⟨_ | u, q⟩ := p
      · obtain ⟨l₁, l₂, rfl, hl₁⟩ := ih (show upper l = c :: a₁ ++ a₂ from h)
        exact ⟨(none, q) :: l₁, l₂, rfl, hl₁⟩
      · obtain ⟨rfl, hrest⟩ := List.cons.inj (show u :: upper l = c :: (a₁ ++ a₂) from h)
        obtain ⟨l₁, l₂, rfl, hl₁⟩ := ih hrest
        exact ⟨(some u, q) :: l₁, l₂, rfl, congrArg (u :: ·) hl₁⟩

/-- **A row of the table bounds the distance from below.** -/
theorem exists_dist_take_le (a b : List α) (i : ℕ) : ∃ j ≤ b.length, dist (a.take i) (b.take j) ≤ dist a b := by
  obtain ⟨l, ha, hb, hcost⟩ := within_dist a b
  obtain ⟨l₁, l₂, rfl, hl₁⟩ := exists_cut (ha.trans (List.take_append_drop i a).symm)
  rw [lower_append] at hb
  rw [cost_append] at hcost
  refine ⟨(lower l₁).length, ?_, dist_le_iff.mpr ⟨l₁, hl₁, ?_, (Nat.le_add_right _ _).trans hcost⟩⟩
  · rw [← hb, List.length_append]
    exact Nat.le_add_right _ _
  · rw [← hb, List.take_left]

end EditDistance
