import Mathlib.Data.List.DropRight
import Mathlib.Data.List.TakeWhile

/-!
# Trimming, splitting and normalising lists

`List.trimWhile p` drops what satisfies `p` from both ends of a list. A list is *tight* for `p` when
neither of its ends satisfies it: these are the fixed points (`trimWhile_eq_self_iff`), and what trimming
returns (`tight_trimWhile`).

The fields of `List.splitOn` do not contain the separator (`notMem_of_mem_splitOn`).

A list of distinct entries is normalised by dropping or rewriting each entry, removing repetitions and
cutting the rest off. It comes out as it was exactly when every entry does (`normalised_eq_self_iff`).
-/

namespace List

variable {α : Type}

/-- Drop what satisfies `p` from both ends. -/
def trimWhile (p : α → Bool) (l : List α) : List α := ((l.dropWhile p).reverse.dropWhile p).reverse

/-- Neither end satisfies `p`. -/
structure Tight (p : α → Bool) (l : List α) : Prop where
  head : ∀ a, l.head? = some a → p a = false
  last : ∀ a, l.getLast? = some a → p a = false

variable {p : α → Bool} {l : List α}

/-- The first element that is not dropped does not satisfy `p`. -/
theorem head?_dropWhile_eq_some {a : α} (h : (l.dropWhile p).head? = some a) : p a = false := by
  have hnot := head?_dropWhile_not p l
  rw [h] at hnot
  exact hnot

theorem dropWhile_eq_self_of_head (h : ∀ a, l.head? = some a → p a = false) : l.dropWhile p = l := by
  cases l with
  | nil => rfl
  | cons a l => exact dropWhile_cons_of_neg (by simp [h a rfl])

theorem Tight.reverse (h : l.Tight p) : l.reverse.Tight p :=
  ⟨fun a ha => h.last a (by rwa [head?_reverse] at ha), fun a ha => h.head a (by rwa [getLast?_reverse] at ha)⟩

/-- What trimming returns is tight. -/
theorem tight_trimWhile (p : α → Bool) (l : List α) : (l.trimWhile p).Tight p := by
  have hprefix : l.trimWhile p <+: l.dropWhile p := by
    have hsuffix : (l.dropWhile p).reverse.dropWhile p <:+ (l.dropWhile p).reverse := dropWhile_suffix p
    have hrev := reverse_prefix.mpr hsuffix
    rwa [reverse_reverse] at hrev
  constructor
  · intro a ha
    -- what is left starts where the first trim ended
    obtain ⟨t, ht⟩ := hprefix
    refine head?_dropWhile_eq_some (l := l) ?_
    rw [← ht]
    cases hl : l.trimWhile p with
    | nil =>
      rw [hl] at ha
      exact absurd ha (by simp)
    | cons b m =>
      rw [hl] at ha
      exact ha
  · intro a ha
    rw [trimWhile, getLast?_reverse] at ha
    exact head?_dropWhile_eq_some ha

theorem Tight.trimWhile_eq (h : l.Tight p) : l.trimWhile p = l := by
  rw [trimWhile, dropWhile_eq_self_of_head h.head, dropWhile_eq_self_of_head h.reverse.head, reverse_reverse]

/-- **Fixed points.** Trimming leaves exactly the tight lists as they are. -/
theorem trimWhile_eq_self_iff : l.trimWhile p = l ↔ l.Tight p :=
  ⟨fun h => h ▸ tight_trimWhile p l, Tight.trimWhile_eq⟩

@[simp] theorem trimWhile_trimWhile : (l.trimWhile p).trimWhile p = l.trimWhile p :=
  (tight_trimWhile p l).trimWhile_eq

theorem trimWhile_isInfix (p : α → Bool) (l : List α) : l.trimWhile p <:+: l := by
  have hsuffix : (l.dropWhile p).reverse.dropWhile p <:+ (l.dropWhile p).reverse := dropWhile_suffix p
  have hprefix : l.trimWhile p <+: l.dropWhile p := by
    have hrev := reverse_prefix.mpr hsuffix
    rwa [reverse_reverse] at hrev
  exact hprefix.isInfix.trans (dropWhile_suffix p).isInfix

theorem mem_of_mem_trimWhile {a : α} (h : a ∈ l.trimWhile p) : a ∈ l := (trimWhile_isInfix p l).subset h

/-- What trimming takes away satisfies `p`. -/
theorem mem_trimWhile_or {a : α} (h : a ∈ l) : a ∈ l.trimWhile p ∨ p a = true := by
  have hdrop : ∀ {m : List α}, a ∈ m → a ∈ m.dropWhile p ∨ p a = true := by
    intro m hm
    rw [← takeWhile_append_dropWhile (p := p) (l := m), mem_append] at hm
    exact hm.symm.imp_right mem_takeWhile_imp
  obtain h | h := hdrop h
  · obtain h | h := hdrop (mem_reverse.mpr h)
    · exact .inl (mem_reverse.mpr h)
    · exact .inr h
  · exact .inr h

theorem trimWhile_eq_nil (h : ∀ a ∈ l, p a = true) : l.trimWhile p = [] := by
  have hdrop : l.dropWhile p = [] := dropWhile_eq_nil_iff.mpr h
  unfold trimWhile
  rw [hdrop]
  rfl

/-! ### Splitting -/

/-- The fields around the separators have none. -/
theorem not_of_mem_splitOnP {q : α → Bool} {xs f : List α} (h : f ∈ xs.splitOnP q) : ∀ a ∈ f, q a = false := by
  induction xs generalizing f with
  | nil =>
    rw [splitOnP_nil] at h
    rw [mem_singleton.mp h]
    exact fun a ha => absurd ha not_mem_nil
  | cons x xs ih =>
    rw [splitOnP_cons_eq_if_modifyHead] at h
    split_ifs at h with hx
    · -- the field that ends at the separator is empty
      rcases mem_cons.mp h with rfl | h
      · exact fun a ha => absurd ha not_mem_nil
      · exact ih h
    · -- the first field of the rest is continued by `x`
      cases hrest : xs.splitOnP q with
      | nil => exact absurd hrest (splitOnP_ne_nil q xs)
      | cons g gs =>
        rw [hrest, modifyHead_cons] at h
        rcases mem_cons.mp h with rfl | h
        · exact forall_mem_cons.mpr ⟨Bool.eq_false_iff.mpr hx, ih (hrest ▸ mem_cons_self)⟩
        · exact ih (hrest ▸ mem_cons_of_mem g h)

/-- The first field stands at the front of the list, and every other one somewhere in it. -/
theorem splitOnP_parts (q : α → Bool) (xs : List α) :
    ∃ g gs, xs.splitOnP q = g :: gs ∧ g <+: xs ∧ ∀ f ∈ gs, f <:+: xs := by
  induction xs with
  | nil => exact ⟨[], [], splitOnP_nil, nil_prefix, nofun⟩
  | cons x xs ih =>
    obtain ⟨g, gs, hrest, hg, hgs⟩ := ih
    have hlater : ∀ f, f <:+: xs → f <:+: x :: xs := fun f hf => hf.trans (suffix_cons x xs).isInfix
    rw [splitOnP_cons_eq_if_modifyHead, hrest]
    split_ifs
    · exact ⟨[], g :: gs, rfl, nil_prefix,
        forall_mem_cons.mpr ⟨hlater g hg.isInfix, fun f hf => hlater f (hgs f hf)⟩⟩
    · exact ⟨x :: g, gs, rfl, (prefix_cons_inj x).mpr hg, fun f hf => hlater f (hgs f hf)⟩

/-- A field is a part of the list. -/
theorem isInfix_of_mem_splitOnP {q : α → Bool} {xs f : List α} (h : f ∈ xs.splitOnP q) : f <:+: xs := by
  obtain ⟨g, gs, hparts, hg, hgs⟩ := splitOnP_parts q xs
  rw [hparts] at h
  rcases mem_cons.mp h with rfl | h
  · exact hg.isInfix
  · exact hgs f h

theorem mem_of_mem_splitOnP {q : α → Bool} {xs f : List α} (h : f ∈ xs.splitOnP q) {a : α} (ha : a ∈ f) : a ∈ xs :=
  (isInfix_of_mem_splitOnP h).subset ha

/-- What is no separator is in a field. -/
theorem exists_mem_splitOnP {q : α → Bool} {xs : List α} {a : α} (ha : a ∈ xs) (hq : q a = false) :
    ∃ f ∈ xs.splitOnP q, a ∈ f := by
  induction xs with
  | nil => exact absurd ha not_mem_nil
  | cons x xs ih =>
    obtain ⟨g, gs, hrest⟩ := exists_cons_of_ne_nil (splitOnP_ne_nil q xs)
    rw [splitOnP_cons_eq_if_modifyHead]
    by_cases hx : q x = true
    · -- the separator is not `a`, so `a` stands in the rest
      have hmem : a ∈ xs := (mem_cons.mp ha).resolve_left fun h => by rw [h, hx] at hq; exact absurd hq (by simp)
      obtain ⟨f, hf, haf⟩ := ih hmem
      rw [if_pos hx]
      exact ⟨f, mem_cons_of_mem _ hf, haf⟩
    · rw [if_neg hx, hrest, modifyHead_cons]
      -- `a` is the first element of the first field, or stands in a field of the rest
      obtain rfl | hmem := mem_cons.mp ha
      · exact ⟨a :: g, mem_cons_self, mem_cons_self⟩
      · obtain ⟨f, hf, haf⟩ := ih hmem
        rw [hrest] at hf
        obtain rfl | hf := mem_cons.mp hf
        · exact ⟨x :: f, mem_cons_self, mem_cons_of_mem _ haf⟩
        · exact ⟨f, mem_cons_of_mem _ hf, haf⟩

theorem splitOnP_congr {q q' : α → Bool} {xs : List α} (h : ∀ a ∈ xs, q a = q' a) :
    xs.splitOnP q = xs.splitOnP q' := by
  induction xs with
  | nil => rfl
  | cons x xs ih =>
    rw [splitOnP_cons_eq_if_modifyHead, splitOnP_cons_eq_if_modifyHead, h x mem_cons_self,
      ih fun a ha => h a (mem_cons_of_mem _ ha)]

/-- Splitting at one kind of separator, then each field at another. -/
theorem splitOnP_or (q q' : α → Bool) (xs : List α) :
    xs.splitOnP (fun a => q a || q' a) = (xs.splitOnP q).flatMap (splitOnP q') := by
  induction xs with
  | nil => rfl
  | cons x xs ih =>
    obtain ⟨g, gs, hrest⟩ := exists_cons_of_ne_nil (splitOnP_ne_nil q xs)
    rw [splitOnP_cons_eq_if_modifyHead, splitOnP_cons_eq_if_modifyHead (p := q), ih]
    by_cases hx : q x = true
    · rw [if_pos (by simp [hx]), if_pos hx, flatMap_cons]
      rfl
    · rw [if_neg hx, hrest, modifyHead_cons, flatMap_cons, flatMap_cons, splitOnP_cons_eq_if_modifyHead (p := q')]
      by_cases hx' : q' x = true
      · rw [if_pos (by simp [hx']), if_pos hx']
        rfl
      · -- the first part of the first field is continued by `x`
        obtain ⟨u, us, hparts⟩ := exists_cons_of_ne_nil (splitOnP_ne_nil q' g)
        rw [if_neg (by simp [hx, hx']), if_neg hx', hparts]
        rfl

theorem notMem_of_mem_splitOn [BEq α] [LawfulBEq α] {a : α} {xs f : List α} (h : f ∈ xs.splitOn a) : a ∉ f := by
  rw [splitOn_eq_splitOnP] at h
  intro hmem
  have hne := not_of_mem_splitOnP h a hmem
  simp at hne

/-! ### Repetitions -/

section EraseDups

variable {β : Type} [BEq β] [LawfulBEq β]

omit [LawfulBEq β] in
theorem eraseDups_sublist (l : List β) : l.eraseDups <+ l := by
  induction hn : l.length using Nat.strong_induction_on generalizing l with
  | _ n ih =>
    cases l with
    | nil => exact Sublist.refl _
    | cons a l =>
      have hlen : (l.filter fun b => !b == a).length < n := by
        rw [← hn, length_cons]
        exact Nat.lt_succ_of_le (length_filter_le _ l)
      rw [eraseDups_cons]
      exact ((ih _ hlen _ rfl).trans filter_sublist).cons_cons a

theorem nodup_eraseDups (l : List β) : l.eraseDups.Nodup := by
  induction hn : l.length using Nat.strong_induction_on generalizing l with
  | _ n ih =>
    cases l with
    | nil => exact nodup_nil
    | cons a l =>
      have hlen : (l.filter fun b => !b == a).length < n := by
        rw [← hn, length_cons]
        exact Nat.lt_succ_of_le (length_filter_le _ l)
      rw [eraseDups_cons, nodup_cons]
      refine ⟨fun hmem => ?_, ih _ hlen _ rfl⟩
      have hne := (mem_filter.mp (mem_eraseDups.mp hmem)).2
      simp at hne

theorem Nodup.eraseDups_eq {l : List β} (h : l.Nodup) : l.eraseDups = l := by
  induction l with
  | nil => rfl
  | cons a l ih =>
    obtain ⟨ha, hl⟩ := nodup_cons.mp h
    have hfilter : (l.filter fun b => !b == a) = l := by
      rw [filter_eq_self]
      intro b hb
      have hne : b ≠ a := fun heq => ha (heq ▸ hb)
      simpa using hne
    rw [eraseDups_cons, hfilter, ih hl]

end EraseDups

/-! ### Normalised lists -/

theorem filterMap_eq_self_iff {f : α → Option α} {l : List α} : l.filterMap f = l ↔ ∀ a ∈ l, f a = some a := by
  constructor
  · induction l with
    | nil => exact fun _ a ha => absurd ha not_mem_nil
    | cons x l ih =>
      intro h
      -- an element that is dropped makes the list shorter
      cases hx : f x with
      | none =>
        rw [filterMap_cons_none hx] at h
        have hlen := congrArg length h
        have hle := length_filterMap_le f l
        rw [length_cons] at hlen
        omega
      | some y =>
        rw [filterMap_cons_some hx] at h
        obtain ⟨rfl, hrest⟩ := cons.inj h
        exact forall_mem_cons.mpr ⟨hx, ih hrest⟩
  · intro h
    induction l with
    | nil => rfl
    | cons x l ih =>
      obtain ⟨hx, hl⟩ := forall_mem_cons.mp h
      rw [filterMap_cons_some hx, ih hl]

/-- **Normalised lists.** A list of distinct entries within the bound is left as it is exactly when each of
its entries is. -/
theorem normalised_eq_self_iff [DecidableEq α] {f : α → Option α} {l : List α} {n : ℕ} (hnodup : l.Nodup)
    (hlen : l.length ≤ n) : (l.filterMap f).eraseDups.take n = l ↔ ∀ a ∈ l, f a = some a := by
  rw [← filterMap_eq_self_iff]
  constructor
  · intro h
    have hsub : l <+ l.filterMap f := by
      have hsub' := (take_sublist n (l.filterMap f).eraseDups).trans (eraseDups_sublist _)
      rwa [h] at hsub'
    exact (hsub.eq_of_length (le_antisymm hsub.length_le (length_filterMap_le f l))).symm
  · intro h
    rw [h, hnodup.eraseDups_eq, take_of_length_le hlen]

end List
