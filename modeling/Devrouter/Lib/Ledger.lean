import Mathlib.Algebra.BigOperators.Group.Finset.Basic
import Mathlib.Algebra.BigOperators.Group.Finset.Piecewise
import Mathlib.Algebra.Order.BigOperators.Group.Finset
import Mathlib.Algebra.Order.Field.Rat
import Mathlib.Algebra.Order.Field.Basic
import Mathlib.Algebra.BigOperators.Ring.Finset
import Mathlib.Tactic.Ring

/-!
# Ledgers of issued units

A `Ledger` issues units, numbered in the order they are issued, each to some accounts; payments are made
against units. Every account then has what was issued to it and what was paid to it, and the one bounds
the other as long as no unit is overdrawn (`Ledger.spent_le_issued`).
-/

/-- Units issued to the accounts `K`, and what was paid against each of them. -/
structure Ledger (K : Type) where
  count : ℕ
  /-- The accounts a unit was issued to, with multiplicity. -/
  accounts : ℕ → List K
  paid : ℕ → ℚ

namespace Ledger

variable {K : Type} [DecidableEq K]

/-- The ledger before anything is issued. -/
def empty (K : Type) : Ledger K := ⟨0, fun _ => [], fun _ => 0⟩

/-- The units issued to an account. -/
def issued (L : Ledger K) (k : K) : ℚ := ∑ v ∈ Finset.range L.count, ((L.accounts v).count k : ℚ)

/-- What was paid to an account. -/
def spent (L : Ledger K) (k : K) : ℚ :=
  ∑ v ∈ Finset.range L.count, L.paid v * ((L.accounts v).count k : ℚ)

/-- Issue one more unit. -/
def issue (L : Ledger K) (ks : List K) : Ledger K where
  count := L.count + 1
  accounts := Function.update L.accounts L.count ks
  paid := Function.update L.paid L.count 0

/-- Pay `w` against the unit `v`. -/
def pay (L : Ledger K) (v : ℕ) (w : ℚ) : Ledger K :=
  { L with paid := Function.update L.paid v (L.paid v + w) }

/-- No unit is overdrawn. -/
def Covered (L : Ledger K) : Prop := ∀ v < L.count, 0 ≤ L.paid v ∧ L.paid v ≤ 1

variable (L : Ledger K)

omit [DecidableEq K] in
theorem covered_empty : (empty K).Covered := fun _ hv => absurd hv (Nat.not_lt_zero _)

@[simp] theorem issued_empty (k : K) : (empty K).issued k = 0 := rfl

@[simp] theorem spent_empty (k : K) : (empty K).spent k = 0 := rfl

section Fields

variable {L} {u v : ℕ}

omit [DecidableEq K]

@[simp] theorem count_issue (ks : List K) : (L.issue ks).count = L.count + 1 := rfl

@[simp] theorem accounts_issue_self (ks : List K) : (L.issue ks).accounts L.count = ks :=
  Function.update_self ..

theorem accounts_issue_of_ne (h : v ≠ L.count) (ks : List K) : (L.issue ks).accounts v = L.accounts v :=
  Function.update_of_ne h ..

@[simp] theorem paid_issue_self (ks : List K) : (L.issue ks).paid L.count = 0 := Function.update_self ..

theorem paid_issue_of_ne (h : v ≠ L.count) (ks : List K) : (L.issue ks).paid v = L.paid v :=
  Function.update_of_ne h ..

@[simp] theorem count_pay (w : ℚ) : (L.pay v w).count = L.count := rfl

@[simp] theorem accounts_pay (w : ℚ) : (L.pay v w).accounts = L.accounts := rfl

@[simp] theorem paid_pay_self (w : ℚ) : (L.pay v w).paid v = L.paid v + w := Function.update_self ..

theorem paid_pay_of_ne (h : u ≠ v) (w : ℚ) : (L.pay v w).paid u = L.paid u := Function.update_of_ne h ..

end Fields

theorem issued_issue (ks : List K) (k : K) : (L.issue ks).issued k = L.issued k + (ks.count k : ℚ) := by
  have hold : ∀ v ∈ Finset.range L.count,
      (((L.issue ks).accounts v).count k : ℚ) = ((L.accounts v).count k : ℚ) := by
    intro v hv
    rw [accounts_issue_of_ne (Finset.mem_range.mp hv).ne]
  unfold issued
  rw [count_issue, Finset.sum_range_succ, Finset.sum_congr rfl hold, accounts_issue_self]

/-- A fresh unit has nothing paid against it. -/
theorem spent_issue (ks : List K) (k : K) : (L.issue ks).spent k = L.spent k := by
  have hold : ∀ v ∈ Finset.range L.count, (L.issue ks).paid v * (((L.issue ks).accounts v).count k : ℚ)
      = L.paid v * ((L.accounts v).count k : ℚ) := by
    intro v hv
    have hne := (Finset.mem_range.mp hv).ne
    rw [paid_issue_of_ne hne, accounts_issue_of_ne hne]
  unfold spent
  rw [count_issue, Finset.sum_range_succ, Finset.sum_congr rfl hold, paid_issue_self, zero_mul, add_zero]

@[simp] theorem issued_pay (v : ℕ) (w : ℚ) (k : K) : (L.pay v w).issued k = L.issued k := rfl

theorem spent_pay {v : ℕ} (hv : v < L.count) (w : ℚ) (k : K) :
    (L.pay v w).spent k = L.spent k + w * ((L.accounts v).count k : ℚ) := by
  have hmem : v ∈ Finset.range L.count := Finset.mem_range.mpr hv
  have hrest : ∑ u ∈ (Finset.range L.count).erase v, (L.pay v w).paid u * ((L.accounts u).count k : ℚ) =
      ∑ u ∈ (Finset.range L.count).erase v, L.paid u * ((L.accounts u).count k : ℚ) := by
    refine Finset.sum_congr rfl fun u hu => ?_
    rw [paid_pay_of_ne (Finset.ne_of_mem_erase hu)]
  unfold spent
  rw [count_pay, accounts_pay, ← Finset.add_sum_erase _ _ hmem, hrest, paid_pay_self,
    ← Finset.add_sum_erase _ (fun u => L.paid u * ((L.accounts u).count k : ℚ)) hmem]
  ring

/-- **A covered ledger** pays no account more than was issued to it. -/
theorem spent_le_issued (h : L.Covered) (k : K) : L.spent k ≤ L.issued k := by
  refine Finset.sum_le_sum fun v hv => ?_
  exact mul_le_of_le_one_left (Nat.cast_nonneg _) (h v (Finset.mem_range.mp hv)).2

theorem spent_nonneg (h : L.Covered) (k : K) : 0 ≤ L.spent k :=
  Finset.sum_nonneg fun v hv => mul_nonneg (h v (Finset.mem_range.mp hv)).1 (Nat.cast_nonneg _)

omit [DecidableEq K] in
variable {L} in
theorem Covered.issue (h : L.Covered) (ks : List K) : (L.issue ks).Covered := by
  intro v hv
  by_cases hlt : v = L.count
  · rw [hlt, paid_issue_self]
    exact ⟨le_rfl, zero_le_one⟩
  · rw [paid_issue_of_ne hlt]
    exact h v (lt_of_le_of_ne (Nat.le_of_lt_succ hv) hlt)

omit [DecidableEq K] in
variable {L} in
theorem Covered.pay (h : L.Covered) {v : ℕ} {w : ℚ} (hw : 0 ≤ w) (hroom : L.paid v + w ≤ 1) :
    (L.pay v w).Covered := by
  intro u hu
  by_cases huv : u = v
  · rw [huv, paid_pay_self]
    exact ⟨add_nonneg (h v (huv ▸ hu)).1 hw, hroom⟩
  · rw [paid_pay_of_ne huv]
    exact h u hu

/-! ### Several units -/

/-- Issue a unit to each of the lists of accounts. -/
def issueAll (L : Ledger K) (kss : List (List K)) : Ledger K := kss.foldl issue L

section IssueAll

variable {L}

omit [DecidableEq K]

@[simp] theorem count_issueAll (kss : List (List K)) : (L.issueAll kss).count = L.count + kss.length := by
  induction kss generalizing L with
  | nil => rfl
  | cons ks kss ih =>
    change ((L.issue ks).issueAll kss).count = _
    rw [ih, count_issue, List.length_cons]
    omega

/-- Units issued before keep their accounts. -/
theorem accounts_issueAll_of_lt {v : ℕ} (hv : v < L.count) (kss : List (List K)) :
    (L.issueAll kss).accounts v = L.accounts v := by
  induction kss generalizing L with
  | nil => rfl
  | cons ks kss ih =>
    change ((L.issue ks).issueAll kss).accounts v = _
    rw [ih (Nat.lt_succ_of_lt hv), accounts_issue_of_ne hv.ne]

/-- The new units, in order. -/
theorem accounts_issueAll_add {kss : List (List K)} {i : ℕ} {ks : List K} (hi : kss[i]? = some ks) :
    (L.issueAll kss).accounts (L.count + i) = ks := by
  induction kss generalizing L i with
  | nil => exact absurd hi (by simp)
  | cons ks' kss ih =>
    change ((L.issue ks').issueAll kss).accounts (L.count + i) = ks
    cases i with
    | zero =>
      obtain rfl : ks' = ks := Option.some.inj hi
      rw [add_zero, accounts_issueAll_of_lt (Nat.lt_succ_self _), accounts_issue_self]
    | succ i =>
      have hrest : kss[i]? = some ks := hi
      rw [← ih (L := L.issue ks') hrest, count_issue, Nat.add_right_comm, Nat.add_assoc]

theorem Covered.issueAll (h : L.Covered) (kss : List (List K)) : (L.issueAll kss).Covered := by
  induction kss generalizing L with
  | nil => exact h
  | cons ks kss ih => exact ih (h.issue ks)

end IssueAll

/-! ### Several payments -/

/-- Make the payments of a list. -/
def payAll (L : Ledger K) (ps : List (ℕ × ℚ)) : Ledger K := ps.foldl (fun L p => L.pay p.1 p.2) L

/-- What a list of payments takes from a unit. -/
def due (ps : List (ℕ × ℚ)) (v : ℕ) : ℚ := (ps.map fun p => if p.1 = v then p.2 else 0).sum

/-- There is room for the payments. -/
def HasRoom (L : Ledger K) (ps : List (ℕ × ℚ)) : Prop := ∀ v < L.count, L.paid v + due ps v ≤ 1

variable {L} {ps : List (ℕ × ℚ)} {v : ℕ} {w : ℚ}

theorem due_cons (p : ℕ × ℚ) (ps : List (ℕ × ℚ)) (v : ℕ) :
    due (p :: ps) v = (if p.1 = v then p.2 else 0) + due ps v := rfl

theorem due_nonneg (h : ∀ p ∈ ps, 0 ≤ p.2) (v : ℕ) : 0 ≤ due ps v := by
  refine List.sum_nonneg fun x hx => ?_
  obtain ⟨p, hp, rfl⟩ := List.mem_map.mp hx
  split_ifs
  · exact h p hp
  · exact le_rfl

/-- Nothing is taken from a unit that no payment names. -/
theorem due_eq_zero (h : ∀ p ∈ ps, p.1 ≠ v) : due ps v = 0 := by
  refine List.sum_eq_zero fun x hx => ?_
  obtain ⟨p, hp, rfl⟩ := List.mem_map.mp hx
  exact if_neg (h p hp)

omit [DecidableEq K]

theorem payAll_cons (L : Ledger K) (p : ℕ × ℚ) (ps : List (ℕ × ℚ)) :
    L.payAll (p :: ps) = (L.pay p.1 p.2).payAll ps := rfl

/-- The first payment fits, and leaves room for the rest. -/
theorem HasRoom.pay (h : L.HasRoom ((v, w) :: ps)) (hv : v < L.count) (hps : ∀ p ∈ ps, 0 ≤ p.2) :
    L.paid v + w ≤ 1 ∧ (L.pay v w).HasRoom ps := by
  constructor
  · have hroom := h v hv
    rw [due_cons, if_pos rfl, ← add_assoc] at hroom
    exact (le_add_of_nonneg_right (due_nonneg hps v)).trans hroom
  · intro u hu
    have hroom := h u hu
    rw [due_cons, ← add_assoc] at hroom
    by_cases huv : u = v
    · subst huv
      rw [if_pos rfl] at hroom
      rwa [paid_pay_self]
    · rw [paid_pay_of_ne huv]
      rwa [if_neg (Ne.symm huv), add_zero] at hroom

/-- A fresh unit that is not overdrawn by its own payment leaves room for the others. -/
theorem HasRoom.issue (h : L.HasRoom ps) (hps : ∀ p ∈ ps, p.1 < L.count) (hw : w ≤ 1) (ks : List K) :
    ((L.issue ks).pay L.count w).HasRoom ps := by
  intro u hu
  by_cases hnew : u = L.count
  · rw [hnew, paid_pay_self, paid_issue_self, due_eq_zero fun p hp => (hps p hp).ne, zero_add, add_zero]
    exact hw
  · rw [paid_pay_of_ne hnew, paid_issue_of_ne hnew]
    exact h u (lt_of_le_of_ne (Nat.le_of_lt_succ hu) hnew)

@[simp] theorem count_payAll (ps : List (ℕ × ℚ)) : (L.payAll ps).count = L.count := by
  induction ps generalizing L with
  | nil => rfl
  | cons p ps ih => rw [payAll_cons, ih, count_pay]

@[simp] theorem accounts_payAll (ps : List (ℕ × ℚ)) : (L.payAll ps).accounts = L.accounts := by
  induction ps generalizing L with
  | nil => rfl
  | cons p ps ih => rw [payAll_cons, ih, accounts_pay]

theorem Covered.payAll (h : L.Covered) (hnamed : ∀ p ∈ ps, p.1 < L.count) (hps : ∀ p ∈ ps, 0 ≤ p.2)
    (hroom : L.HasRoom ps) : (L.payAll ps).Covered := by
  induction ps generalizing L with
  | nil => exact h
  | cons p ps ih =>
    have hrest : ∀ q ∈ ps, 0 ≤ q.2 := fun q hq => hps q (List.mem_cons_of_mem p hq)
    obtain ⟨hfits, hroom'⟩ := hroom.pay (hnamed p List.mem_cons_self) hrest
    rw [payAll_cons]
    exact ih (h.pay (hps p List.mem_cons_self) hfits) (fun q hq => hnamed q (List.mem_cons_of_mem p hq)) hrest hroom'

end Ledger
