import Mathlib.Data.List.Sort
import Mathlib.Data.Prod.Lex
import Mathlib.Data.Finset.Max
import Mathlib.Order.Interval.Finset.Defs
import Mathlib.Tactic.Common

/-!
# Sorted sets

A `SortedSet` has members with scores, in the order of the scores and, among equal scores, of the members.
Adding a member that is there moves it. `add`, `dropUpTo` and `since` are described by their elements.

`Finset.newest n` are the elements of a finite set that fewer than `n` are above: what a reader of the top `n`
gets, stated without a list.
-/

/-! ### The newest elements -/

namespace Finset

variable {α : Type} [LinearOrder α] {n : ℕ} {s : Finset α}

/-- The `n` greatest elements. -/
def newest (n : ℕ) (s : Finset α) : Finset α := s.filter fun x => (s.filter (x < ·)).card < n

theorem mem_newest {x : α} : x ∈ s.newest n ↔ x ∈ s ∧ (s.filter (x < ·)).card < n := mem_filter

/-- Where there are no more than `n`, all are among the newest. -/
theorem newest_eq_self (h : s.card ≤ n) : s.newest n = s := by
  refine filter_true_of_mem fun x hx => ?_
  have hlt : (s.filter (x < ·)).card < s.card :=
    card_lt_card (filter_ssubset.mpr ⟨x, hx, lt_irrefl x⟩)
  exact hlt.trans_le h

/-- Where there are more than `n`, the least is not among the newest. -/
theorem notMem_newest_of_forall_le (h : n < s.card) {x : α} (hmin : ∀ y ∈ s, x ≤ y) : x ∉ s.newest n := by
  intro hx
  obtain ⟨hs, hlt⟩ := mem_newest.mp hx
  have habove : s.filter (x < ·) = s.erase x := by
    ext y
    rw [mem_filter, mem_erase]
    exact ⟨fun hy => ⟨hy.2.ne', hy.1⟩, fun hy => ⟨hy.2, lt_of_le_of_ne (hmin y hy.2) hy.1.symm⟩⟩
  rw [habove, card_erase_of_mem hs] at hlt
  omega

end Finset

/-! ### Sorted sets -/

/-- Members with their scores, in order; a member occurs once. -/
structure SortedSet (S M : Type) [LinearOrder S] [LinearOrder M] where
  entries : List (S ×ₗ M)
  sorted : entries.Pairwise (· ≤ ·)
  once : (entries.map fun x => (ofLex x).2).Nodup

namespace SortedSet

variable {S M : Type} [LinearOrder S] [LinearOrder M]

def empty : SortedSet S M := ⟨[], .nil, List.nodup_nil⟩

instance : Membership (S ×ₗ M) (SortedSet S M) := ⟨fun z x => x ∈ z.entries⟩

theorem mem_def {z : SortedSet S M} {x : S ×ₗ M} : x ∈ z ↔ x ∈ z.entries := Iff.rfl

@[simp] theorem notMem_empty (x : S ×ₗ M) : x ∉ (empty : SortedSet S M) := List.not_mem_nil

/-- The entries that meet `p`. -/
def filter (z : SortedSet S M) (p : S ×ₗ M → Bool) : SortedSet S M where
  entries := z.entries.filter p
  sorted := z.sorted.filter p
  once := (List.filter_sublist.map _).nodup z.once

@[simp] theorem mem_filter {z : SortedSet S M} {p : S ×ₗ M → Bool} {x : S ×ₗ M} :
    x ∈ z.filter p ↔ x ∈ z ∧ p x = true := List.mem_filter

/-- `ZADD`. -/
def add (z : SortedSet S M) (score : S) (member : M) : SortedSet S M where
  entries := (z.filter fun x => decide ((ofLex x).2 ≠ member)).entries.orderedInsert (· ≤ ·) (toLex (score, member))
  sorted := (z.filter _).sorted.orderedInsert _ _
  once := by
    rw [((List.perm_orderedInsert _ _ _).map _).nodup_iff, List.map_cons, List.nodup_cons]
    refine ⟨fun h => ?_, (z.filter _).once⟩
    obtain ⟨x, hx, hmem⟩ := List.mem_map.mp h
    exact of_decide_eq_true (mem_filter.mp hx).2 hmem

@[simp] theorem mem_add {z : SortedSet S M} {score : S} {member : M} {x : S ×ₗ M} :
    x ∈ z.add score member ↔ x = toLex (score, member) ∨ x ∈ z ∧ (ofLex x).2 ≠ member := by
  rw [mem_def, add, List.mem_orderedInsert, ← mem_def, mem_filter, decide_eq_true_iff]

/-- `ZREMRANGEBYSCORE -inf cutoff`. -/
def dropUpTo (z : SortedSet S M) (cutoff : S) : SortedSet S M := z.filter fun x => decide (cutoff < (ofLex x).1)

@[simp] theorem mem_dropUpTo {z : SortedSet S M} {cutoff : S} {x : S ×ₗ M} :
    x ∈ z.dropUpTo cutoff ↔ x ∈ z ∧ cutoff < (ofLex x).1 := by
  rw [dropUpTo, mem_filter, decide_eq_true_iff]

/-- The part with scores from `least` on. -/
def since (z : SortedSet S M) (least : S) : SortedSet S M := z.filter fun x => decide (least ≤ (ofLex x).1)

@[simp] theorem mem_since {z : SortedSet S M} {least : S} {x : S ×ₗ M} :
    x ∈ z.since least ↔ x ∈ z ∧ least ≤ (ofLex x).1 := by
  rw [since, mem_filter, decide_eq_true_iff]

/-- `ZRANGEBYSCORE least +inf LIMIT 0 count`: the members, lowest score first. -/
def rangeByScore (z : SortedSet S M) (least : S) (count : ℕ) : List M :=
  ((z.since least).entries.take count).map fun x => (ofLex x).2

theorem nodup (z : SortedSet S M) : z.entries.Nodup := z.once.of_map

/-- A sorted set with the elements of a finite set has as many entries. -/
theorem length_eq_card {z : SortedSet S M} {s : Finset (S ×ₗ M)} (h : ∀ x, x ∈ z ↔ x ∈ s) :
    z.entries.length = s.card := by
  have hset : z.entries.toFinset = s := by
    ext x
    rw [List.mem_toFinset]
    exact h x
  rw [← hset, List.toFinset_card_of_nodup z.nodup]

/-- Where no more than `count` have a score from `least` on, a range has them all. -/
theorem rangeByScore_eq_all {z : SortedSet S M} {least : S} {count : ℕ}
    (h : (z.since least).entries.length ≤ count) :
    z.rangeByScore least count = (z.since least).entries.map fun x => (ofLex x).2 := by
  rw [rangeByScore, List.take_of_length_le h]

/-- A range starts with the least. -/
theorem exists_rangeByScore_eq_cons {z : SortedSet S M} {least : S} {count : ℕ} (hcount : 0 < count)
    (h : 0 < (z.since least).entries.length) :
    ∃ x rest, x ∈ z.since least ∧ (∀ y ∈ z.since least, x ≤ y) ∧
      z.rangeByScore least count = (ofLex x).2 :: rest := by
  obtain ⟨x, l, hxl⟩ := List.exists_cons_of_length_pos h
  obtain ⟨c, rfl⟩ := Nat.exists_eq_succ_of_ne_zero hcount.ne'
  have hle : ∀ y ∈ l, x ≤ y := (List.pairwise_cons.mp (hxl ▸ (z.since least).sorted)).1
  refine ⟨x, (l.take c).map fun y => (ofLex y).2, ?_, fun y hy => ?_, ?_⟩
  · rw [mem_def, hxl]
    exact List.mem_cons_self
  · rw [mem_def, hxl] at hy
    exact (List.mem_cons.mp hy).elim (fun heq => heq.ge) (hle y)
  · rw [rangeByScore, hxl]
    rfl

end SortedSet
