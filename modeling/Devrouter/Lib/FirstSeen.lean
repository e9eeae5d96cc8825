import Mathlib.Data.List.Dedup
import Devrouter.Lib.Trim

/-!
# What is seen first

Removing repetitions from a list keeps of each value the occurrence that is seen first, in that order
(`pairwise_idxOf_eraseDups`). An element is among the first `n` that are left when it stands at a place before which
it does not occur, and behind fewer than `n` different ones (`mem_take_eraseDups_iff`).

`Taken f n l a` says so of an element of a list whose elements are rewritten or dropped by `f` before.
-/

namespace List

variable {α β : Type}

/-! ### Trimming what is rewritten -/

theorem trimWhile_map (f : α → β) (p : β → Bool) (l : List α) :
    (l.map f).trimWhile p = (l.trimWhile (p ∘ f)).map f := by
  unfold trimWhile
  rw [dropWhile_map, ← map_reverse, dropWhile_map, ← map_reverse]

theorem tight_map_iff {f : α → β} {p : β → Bool} {l : List α} : (l.map f).Tight p ↔ l.Tight (p ∘ f) := by
  constructor
  · intro h
    refine ⟨fun a ha => h.head (f a) ?_, fun a ha => h.last (f a) ?_⟩
    · rw [head?_map, ha, Option.map_some]
    · rw [getLast?_map, ha, Option.map_some]
  · intro h
    refine ⟨fun b hb => ?_, fun b hb => ?_⟩
    · rw [head?_map] at hb
      obtain ⟨a, ha, rfl⟩ := Option.map_eq_some_iff.mp hb
      exact h.head a ha
    · rw [getLast?_map] at hb
      obtain ⟨a, ha, rfl⟩ := Option.map_eq_some_iff.mp hb
      exact h.last a ha

variable [DecidableEq β]

/-! ### First occurrences -/

/-- What a filter keeps stays in its order. -/
theorem idxOf_lt_of_filter {p : β → Bool} {l : List β} {a b : β} (ha : p a = true) (hb : p b = true)
    (h : (l.filter p).idxOf a < (l.filter p).idxOf b) : l.idxOf a < l.idxOf b := by
  induction l with
  | nil => exact absurd h (lt_irrefl _)
  | cons c l ih =>
    by_cases hc : p c = true
    · rw [filter_cons_of_pos hc] at h
      by_cases hca : c = a
      · -- `b` cannot come first, or it would be found before `a`
        have hcb : c ≠ b := by
          rintro rfl
          rw [hca] at h
          exact absurd h (lt_irrefl _)
        rw [idxOf_cons_eq _ hca, idxOf_cons_ne _ hcb]
        exact Nat.succ_pos _
      · -- neither is first, so both stand one further behind than in the rest
        have hcb : c ≠ b := by
          rintro rfl
          rw [idxOf_cons_eq _ rfl] at h
          exact absurd h (Nat.not_lt_zero _)
        rw [idxOf_cons_ne _ hca, idxOf_cons_ne _ hcb] at h ⊢
        exact Nat.succ_lt_succ (ih (Nat.lt_of_succ_lt_succ h))
    · -- what is dropped is neither of them
      have hca : c ≠ a := fun heq => hc (heq ▸ ha)
      have hcb : c ≠ b := fun heq => hc (heq ▸ hb)
      rw [filter_cons_of_neg hc] at h
      rw [idxOf_cons_ne _ hca, idxOf_cons_ne _ hcb]
      exact Nat.succ_lt_succ (ih h)

/-- Removing repetitions from the back, of the reversed list. -/
theorem reverse_dedup_reverse (l : List β) : l.reverse.dedup.reverse = l.eraseDups := by
  induction l using reverseRecOn with
  | nil => rfl
  | append_singleton l a ih =>
    rw [reverse_append, reverse_singleton, singleton_append, eraseDups_append]
    by_cases ha : a ∈ l
    · have hgone : [a].removeAll l = [] := by simp [removeAll, ha]
      rw [dedup_cons_of_mem (mem_reverse.mpr ha), ih, hgone, eraseDups_nil, append_nil]
    · have hnew : [a].removeAll l = [a] := by simp [removeAll, ha]
      rw [dedup_cons_of_notMem (mt mem_reverse.mp ha), reverse_cons, ih, hnew, (nodup_singleton a).eraseDups_eq]

/-- **First-seen order.** -/
theorem pairwise_idxOf_eraseDups (l : List β) : l.eraseDups.Pairwise fun a b => l.idxOf a < l.idxOf b := by
  induction hn : l.length using Nat.strong_induction_on generalizing l with
  | _ n ih =>
    cases l with
    | nil => exact Pairwise.nil
    | cons c l =>
      -- what is left behind the first element is shorter, so the induction is on the length
      have hlen : (l.filter fun b => !b == c).length < n := by
        rw [← hn, length_cons]
        exact Nat.lt_succ_of_le (length_filter_le _ l)
      have hne : ∀ {a : β}, a ∈ (l.filter fun b => !b == c).eraseDups → c ≠ a := by
        intro a ha
        have hkept := (mem_filter.mp (mem_eraseDups.mp ha)).2
        rw [Bool.not_eq_true', beq_eq_false_iff_ne] at hkept
        exact hkept.symm
      rw [eraseDups_cons, pairwise_cons]
      refine ⟨fun a ha => ?_, (ih _ hlen _ rfl).imp_of_mem fun {a b} ha hb hab => ?_⟩
      · -- the first element comes before all others
        rw [idxOf_cons_eq _ rfl, idxOf_cons_ne _ (hne ha)]
        exact Nat.succ_pos _
      · -- the others keep their places, one behind those among themselves
        rw [idxOf_cons_ne _ (hne ha), idxOf_cons_ne _ (hne hb)]
        refine Nat.succ_lt_succ (idxOf_lt_of_filter ?_ ?_ hab)
        · exact (mem_filter.mp (mem_eraseDups.mp ha)).2
        · exact (mem_filter.mp (mem_eraseDups.mp hb)).2

theorem eraseDups_append_cons {pre post : List β} {a : β} (h : a ∉ pre) :
    (pre ++ a :: post).eraseDups = pre.eraseDups ++ a :: ((post.removeAll pre).filter fun b => !b == a).eraseDups := by
  have hnew : pre.contains a = false := by
    rw [contains_eq_mem]
    exact decide_eq_false h
  rw [eraseDups_append, cons_removeAll, if_pos hnew, eraseDups_cons]

/-- The first occurrence of an element. -/
theorem exists_first {l : List β} {a : β} (h : a ∈ l) : ∃ pre post, l = pre ++ a :: post ∧ a ∉ pre := by
  induction l with
  | nil => exact absurd h not_mem_nil
  | cons b l ih =>
    by_cases hb : b = a
    · exact ⟨[], l, hb ▸ rfl, not_mem_nil⟩
    · obtain ⟨pre, post, rfl, hpre⟩ := ih ((mem_cons.mp h).resolve_left fun heq => hb heq.symm)
      exact ⟨b :: pre, post, rfl, fun hmem => (mem_cons.mp hmem).elim (fun heq => hb heq.symm) hpre⟩

/-- **The first `n` that are left.** -/
theorem mem_take_eraseDups_iff {l : List β} {n : ℕ} {a : β} :
    a ∈ l.eraseDups.take n ↔ ∃ pre post, l = pre ++ a :: post ∧ a ∉ pre ∧ pre.eraseDups.length < n := by
  -- at its first occurrence it stands behind what is left of the list before
  have hplace : ∀ {pre post : List β}, l = pre ++ a :: post → a ∉ pre →
      (a ∈ l.eraseDups.take n ↔ pre.eraseDups.length < n) := by
    rintro pre post rfl hpre
    have hbefore : a ∉ pre.eraseDups.take n := fun hmem => hpre (mem_eraseDups.mp (mem_of_mem_take hmem))
    rw [eraseDups_append_cons hpre, take_append, mem_append]
    constructor
    · intro hmem
      have hrest := hmem.resolve_left hbefore
      by_contra hlong
      rw [Nat.sub_eq_zero_of_le (not_lt.mp hlong)] at hrest
      exact absurd hrest not_mem_nil
    · intro hlt
      obtain ⟨k, hk⟩ := Nat.exists_eq_succ_of_ne_zero (Nat.sub_pos_of_lt hlt).ne'
      rw [hk, take_succ_cons]
      exact .inr mem_cons_self
  constructor
  · intro h
    obtain ⟨pre, post, hl, hpre⟩ := exists_first (mem_eraseDups.mp (mem_of_mem_take h))
    exact ⟨pre, post, hl, hpre, (hplace hl hpre).mp h⟩
  · rintro ⟨pre, post, hl, hpre, hlen⟩
    exact (hplace hl hpre).mpr hlen

/-! ### Rewriting first -/

/-- The element is not dropped, no element before it is rewritten to the same, and those before it are rewritten to
fewer than `n` different ones. -/
def Taken (f : α → Option β) (n : ℕ) (l : List α) (a : α) : Prop :=
  ∃ pre post b, l = pre ++ a :: post ∧ f a = some b ∧ b ∉ pre.filterMap f ∧ (pre.filterMap f).eraseDups.length < n

/-- **What is taken** is what is left. -/
theorem mem_take_normalised_iff {f : α → Option β} {n : ℕ} {l : List α} {b : β} :
    b ∈ (l.filterMap f).eraseDups.take n ↔ ∃ a, Taken f n l a ∧ f a = some b := by
  rw [mem_take_eraseDups_iff]
  constructor
  · rintro ⟨pre, post, hl, hpre, hlen⟩
    obtain ⟨front, rest, rfl, rfl, hrest⟩ := filterMap_eq_append_iff.mp hl
    obtain ⟨dropped, a, tail, rfl, hdropped, ha, -⟩ := filterMap_eq_cons_iff.mp hrest
    -- the elements that are dropped right before it change nothing
    have hnone : dropped.filterMap f = [] := filterMap_eq_nil_iff.mpr hdropped
    have hfront : (front ++ dropped).filterMap f = front.filterMap f := by
      rw [filterMap_append, hnone, append_nil]
    exact ⟨a, ⟨front ++ dropped, tail, b, (append_assoc _ _ _).symm, ha, hfront ▸ hpre, hfront ▸ hlen⟩, ha⟩
  · rintro ⟨a, ⟨pre, post, b', rfl, hb', hnew, hlen⟩, ha⟩
    obtain rfl := Option.some.inj (hb'.symm.trans ha)
    exact ⟨pre.filterMap f, post.filterMap f, by rw [filterMap_append, filterMap_cons_some ha], hnew, hlen⟩

end List
