import Mathlib.Data.List.Pairwise
import Mathlib.Data.List.Sort
import Mathlib.Data.List.TakeWhile

/-!
# Stable sorting

A stable sort by a total preorder `r` keeps the elements that tie in the order of its input. What it
returns is determined by that: it is the one list that is sorted and has, for every element, the elements
tied with it in the order of the input (`eq_insertionSort_iff`).

So a sort commutes with a filter (`filter_insertionSort`), and it does not depend on the order of its input
beyond the order of the ties (`insertionSort_congr`, `insertionSort_congr_key`); blocks of which no two tie
may come in any order (`insertionSort_flatMap_perm`). Two sorts of one list agree exactly when the two
relations order every two of its elements alike (`insertionSort_eq_iff`).

Of a list that comes in any order, the first `n` after the sort can be those with fewer than `n` strictly before them
(`exists_perm_kept_iff`).
-/

section Descending

variable {α β : Type} [LinearOrder β] (f : α → β) (le : α → α → Prop)

/-- Highest score first, ties by another order. -/
def Descending (a b : α) : Prop := f b < f a ∨ (f a = f b ∧ le a b)

instance [DecidableRel le] : DecidableRel (Descending f le) := fun _ _ => inferInstanceAs (Decidable (_ ∨ _))

instance [Std.Total le] : Std.Total (Descending f le) where
  total a b := by
    obtain h | h | h := lt_trichotomy (f a) (f b)
    · exact .inr (.inl h)
    · exact (total_of le a b).imp (fun hle => .inr ⟨h, hle⟩) fun hle => .inr ⟨h.symm, hle⟩
    · exact .inl (.inl h)

instance [IsTrans α le] : IsTrans α (Descending f le) where
  trans a b c hab hbc := by
    obtain hab | ⟨hab, hle⟩ := hab
    · obtain hbc | ⟨hbc, -⟩ := hbc
      · exact .inl (hbc.trans hab)
      · exact .inl (hbc ▸ hab)
    · obtain hbc | ⟨hbc, hle'⟩ := hbc
      · exact .inl (hab ▸ hbc)
      · exact .inr ⟨hab.trans hbc, trans_of le hle hle'⟩

/-- What ties by both. -/
theorem Descending.antisymm {a b : α} (hab : Descending f le a b) (hba : Descending f le b a) :
    f a = f b ∧ le a b ∧ le b a := by
  obtain hab | ⟨heq, hab⟩ := hab
  · obtain hba | ⟨heq, -⟩ := hba
    · exact absurd hab hba.asymm
    · exact absurd heq hab.ne
  · obtain hba | ⟨-, hba⟩ := hba
    · exact absurd heq hba.ne
    · exact ⟨heq, hab, hba⟩

end Descending

namespace List

variable {α : Type} {r s : α → α → Prop} [DecidableRel r] [DecidableRel s]

/-- The elements of a list that tie with `a`. -/
def ties (r : α → α → Prop) [DecidableRel r] (a : α) (l : List α) : List α :=
  l.filter fun b => decide (r a b ∧ r b a)

theorem mem_ties {a b : α} {l : List α} : b ∈ l.ties r a ↔ b ∈ l ∧ r a b ∧ r b a := by
  rw [ties, mem_filter, decide_eq_true_eq]

theorem ties_cons_of_tied {a c : α} (h : r c a ∧ r a c) (l : List α) : (a :: l).ties r c = a :: l.ties r c :=
  filter_cons_of_pos (decide_eq_true h)

theorem ties_cons_of_not {a c : α} (h : ¬ (r c a ∧ r a c)) (l : List α) : (a :: l).ties r c = l.ties r c :=
  filter_cons_of_neg (by simpa using h)

theorem ties_filter (p : α → Bool) (a : α) (l : List α) : (l.filter p).ties r a = (l.ties r a).filter p := by
  unfold ties
  rw [filter_filter, filter_filter]
  refine filter_congr fun b _ => ?_
  rw [Bool.and_comm]

section Sorting

variable [Std.Total r] [IsTrans α r]

omit [Std.Total r] in
/-- **Stability.** -/
theorem ties_insertionSort (a : α) (l : List α) : (l.insertionSort r).ties r a = l.ties r a := by
  have htied : (l.ties r a).Pairwise r := by
    refine pairwise_of_forall_mem_list fun b hb c hc => ?_
    exact trans_of r (mem_ties.mp hb).2.2 (mem_ties.mp hc).2.1
  have hsub : l.ties r a <+ l.insertionSort r := sublist_insertionSort htied filter_sublist
  have hties : (l.ties r a).ties r a = l.ties r a :=
    filter_eq_self.mpr fun b hb => decide_eq_true (mem_ties.mp hb).2
  -- the ties stand in the sorted list in their order, and there are no others
  have hinto : l.ties r a <+ (l.insertionSort r).ties r a := hties ▸ hsub.filter _
  exact (hinto.eq_of_length ((perm_insertionSort r l).filter _).length_eq.symm).symm

omit [Std.Total r] [IsTrans α r] in
/-- A sorted list is determined by the order of its ties. -/
theorem eq_of_ties_eq [Std.Refl r] {l m : List α} (hl : l.Pairwise r) (hm : m.Pairwise r)
    (h : ∀ a, l.ties r a = m.ties r a) : l = m := by
  have hmem : ∀ {l m : List α}, (∀ a, l.ties r a = m.ties r a) → ∀ a ∈ l, a ∈ m := by
    intro l m h a ha
    have hself : a ∈ l.ties r a := mem_ties.mpr ⟨ha, refl_of r a, refl_of r a⟩
    rw [h a] at hself
    exact (mem_ties.mp hself).1
  induction l generalizing m with
  | nil =>
    cases m with
    | nil => rfl
    | cons b m => exact absurd (hmem (fun a => (h a).symm) b mem_cons_self) not_mem_nil
  | cons a l ih =>
    cases m with
    | nil => exact absurd (hmem h a mem_cons_self) not_mem_nil
    | cons b m =>
      obtain ⟨hal, htail⟩ := pairwise_cons.mp hl
      obtain ⟨hbm, htail'⟩ := pairwise_cons.mp hm
      have hba : r b a := by
        obtain rfl | ha := mem_cons.mp (hmem h a mem_cons_self)
        · exact refl_of r a
        · exact hbm a ha
      have hab : r a b := by
        obtain rfl | hb := mem_cons.mp (hmem (fun a => (h a).symm) b mem_cons_self)
        · exact refl_of r b
        · exact hal b hb
      -- the two heads tie, so they are the first of one class
      have hheads : (a :: l).ties r a = (b :: m).ties r a := h a
      rw [ties_cons_of_tied ⟨refl_of r a, refl_of r a⟩, ties_cons_of_tied ⟨hab, hba⟩] at hheads
      obtain rfl : a = b := (cons.inj hheads).1
      refine congrArg (cons a) (ih htail htail' fun c => ?_)
      have hc := h c
      by_cases hca : r c a ∧ r a c
      · rw [ties_cons_of_tied hca, ties_cons_of_tied hca] at hc
        exact (cons.inj hc).2
      · rwa [ties_cons_of_not hca, ties_cons_of_not hca] at hc

/-- What a stable sort returns. -/
theorem eq_insertionSort_iff {l m : List α} :
    m = l.insertionSort r ↔ m.Pairwise r ∧ ∀ a, m.ties r a = l.ties r a := by
  constructor
  · rintro rfl
    exact ⟨pairwise_insertionSort r l, fun a => ties_insertionSort a l⟩
  · rintro ⟨hm, hties⟩
    exact eq_of_ties_eq hm (pairwise_insertionSort r l) fun a => (hties a).trans (ties_insertionSort a l).symm

/-- The order of the input matters only among ties. -/
theorem insertionSort_congr {l m : List α} (h : ∀ a, l.ties r a = m.ties r a) :
    l.insertionSort r = m.insertionSort r :=
  eq_insertionSort_iff.mpr ⟨pairwise_insertionSort r l, fun a => (ties_insertionSort a l).trans (h a)⟩

/-- Where ties have one key, the order of the input matters only among the elements of a key. -/
theorem insertionSort_congr_key {β : Type} [DecidableEq β] {key : α → β}
    (htied : ∀ x y, r x y → r y x → key x = key y) {l m : List α}
    (h : ∀ b, l.filter (fun x => decide (key x = b)) = m.filter fun x => decide (key x = b)) :
    l.insertionSort r = m.insertionSort r := by
  have hties : ∀ (l : List α) (a : α), l.ties r a = (l.filter fun x => decide (key x = key a)).ties r a := by
    intro l a
    rw [ties_filter]
    refine (filter_eq_self.mpr fun x hx => ?_).symm
    obtain ⟨-, hax, hxa⟩ := mem_ties.mp hx
    exact decide_eq_true (htied x a hxa hax)
  exact insertionSort_congr fun a => by rw [hties l, hties m, h]

/-- Sorting commutes with taking out elements. -/
theorem filter_insertionSort (p : α → Bool) (l : List α) :
    (l.insertionSort r).filter p = (l.filter p).insertionSort r := by
  refine eq_insertionSort_iff.mpr ⟨(pairwise_insertionSort r l).filter p, fun a => ?_⟩
  rw [ties_filter, ties_insertionSort, ties_filter]

/-! ### Blocks -/

section Blocks

variable {β γ : Type} [DecidableEq β]

/-- What is in one of the parts only. -/
theorem flatMap_of_nodup {l : List β} (hl : l.Nodup) {g : β → List γ} {b : β} (h : ∀ b' ∈ l, b' ≠ b → g b' = []) :
    l.flatMap g = if b ∈ l then g b else [] := by
  induction l with
  | nil => rfl
  | cons c l ih =>
    obtain ⟨hc, hl⟩ := nodup_cons.mp hl
    have hrest := ih hl fun b' hb' => h b' (mem_cons_of_mem c hb')
    by_cases heq : c = b
    · subst heq
      rw [flatMap_cons, hrest, if_neg hc, append_nil, if_pos mem_cons_self]
    · have hmem : b ∈ c :: l ↔ b ∈ l := by simp [Ne.symm heq]
      rw [flatMap_cons, hrest, h c mem_cons_self heq, nil_append]
      simp only [hmem]

variable {f : β → List α} {key : α → β}

omit [Std.Total r] [IsTrans α r] in
/-- Elements that tie are in one block. -/
theorem ties_flatMap (hf : ∀ b, ∀ x ∈ f b, key x = b) (htied : ∀ x y, r x y → r y x → key x = key y) {l : List β}
    (hl : l.Nodup) (a : α) : (l.flatMap f).ties r a = if key a ∈ l then (f (key a)).ties r a else [] := by
  have hblocks : (l.flatMap f).ties r a = l.flatMap fun b => (f b).ties r a := by
    unfold ties
    exact filter_flatMap
  rw [hblocks]
  refine flatMap_of_nodup hl fun b _ hne => eq_nil_iff_forall_not_mem.mpr fun x hx => hne ?_
  obtain ⟨hmem, hax, hxa⟩ := mem_ties.mp hx
  exact (hf b x hmem).symm.trans (htied a x hax hxa).symm

/-- **Blocks in any order.** Where only elements of one block tie, the order of the blocks does not matter. -/
theorem insertionSort_flatMap_perm (hf : ∀ b, ∀ x ∈ f b, key x = b) (htied : ∀ x y, r x y → r y x → key x = key y)
    {l m : List β} (hl : l.Nodup) (h : l.Perm m) :
    (l.flatMap f).insertionSort r = (m.flatMap f).insertionSort r := by
  refine insertionSort_congr fun a => ?_
  rw [ties_flatMap hf htied hl, ties_flatMap hf htied (h.nodup_iff.mp hl)]
  simp only [h.mem_iff]

end Blocks

/-! ### Two orders -/

variable [Std.Total s] [IsTrans α s]

/-- No two elements of the list tie. -/
def NoTies (r : α → α → Prop) (l : List α) : Prop := ∀ a ∈ l, ∀ b ∈ l, r a b → r b a → a = b

omit [DecidableRel r] [IsTrans α r] in
/-- Of two elements that do not tie, one stands before the other. -/
theorem NoTies.rel_iff_not {l : List α} (h : l.NoTies r) {a b : α} (ha : a ∈ l) (hb : b ∈ l) (hne : a ≠ b) :
    r b a ↔ ¬ r a b :=
  ⟨fun hba hab => hne (h a ha b hb hab hba), fun hab => (total_of r a b).resolve_left hab⟩

/-- Without ties there is one sorted arrangement. -/
theorem NoTies.eq_insertionSort {l m : List α} (h : l.NoTies r) (hperm : m.Perm l) (hm : m.Pairwise r) :
    m = l.insertionSort r := by
  refine Perm.eq_of_pairwise (fun a b ha hb => ?_) hm (pairwise_insertionSort r l)
    (hperm.trans (perm_insertionSort r l).symm)
  exact h a (hperm.subset ha) b ((mem_insertionSort r).mp hb)

/-- **Two sorts of a list agree** exactly when the relations agree on every two of its elements. -/
theorem insertionSort_eq_iff {l : List α} (hr : l.NoTies r) (hs : l.NoTies s) (hl : l.Nodup) :
    l.insertionSort r = l.insertionSort s ↔ l.Pairwise fun a b => r a b ↔ s a b := by
  constructor
  · intro heq
    have hsymm : Std.Symm fun a b => (r a b ∧ s a b) ∨ (r b a ∧ s b a) := ⟨fun _ _ h => h.symm⟩
    have hsorted : (l.insertionSort r).Pairwise fun a b => (r a b ∧ s a b) ∨ (r b a ∧ s b a) :=
      ((pairwise_insertionSort r l).and (heq ▸ pairwise_insertionSort s l)).imp .inl
    refine hl.imp_of_mem fun {a b} ha hb hne => ?_
    -- one of the two stands first in the common list
    have hor := hsorted.forall ((mem_insertionSort r).mpr ha) ((mem_insertionSort r).mpr hb) hne
    obtain ⟨hrab, hsab⟩ | ⟨hrba, hsba⟩ := hor
    · exact iff_of_true hrab hsab
    · exact iff_of_false ((hr.rel_iff_not ha hb hne).mp hrba) ((hs.rel_iff_not ha hb hne).mp hsba)
  · intro hpair
    have hsymm : Std.Symm fun a b => (r a b ↔ s a b) ∧ (r b a ↔ s b a) := ⟨fun _ _ h => h.symm⟩
    have hboth : l.Pairwise fun a b => (r a b ↔ s a b) ∧ (r b a ↔ s b a) := by
      refine (hpair.and hl).imp_of_mem fun {a b} ha hb h => ⟨h.1, ?_⟩
      rw [hr.rel_iff_not ha hb h.2, hs.rel_iff_not ha hb h.2, h.1]
    have hnodup : (l.insertionSort r).Nodup := (perm_insertionSort r l).nodup_iff.mpr hl
    have hsorted : (l.insertionSort r).Pairwise s := by
      refine ((pairwise_insertionSort r l).and hnodup).imp_of_mem fun {a b} ha hb h => ?_
      have hiff := hboth.forall ((mem_insertionSort r).mp ha) ((mem_insertionSort r).mp hb) h.2
      exact hiff.1.mp h.1
    refine Perm.eq_of_pairwise (fun a b ha hb => ?_) hsorted (pairwise_insertionSort s l)
      ((perm_insertionSort r l).trans (perm_insertionSort s l).symm)
    exact hs a ((mem_insertionSort r).mp ha) b ((mem_insertionSort s).mp hb)

end Sorting

/-! ### The first of a sorted list -/

section Kept

variable {α β : Type} [LinearOrder β] {key : α → β} {l : List α} {a : α} {n : ℕ}

/-- Few elements stand strictly before one that is kept. -/
theorem countP_lt_of_mem_take_insertionSort (h : a ∈ (l.insertionSort fun x y => key x ≤ key y).take n) :
    l.countP (fun x => key x < key a) < n := by
  obtain ⟨u, v, huv⟩ := append_of_mem h
  have hsplit : l.insertionSort (fun x y => key x ≤ key y) =
      u ++ a :: (v ++ (l.insertionSort fun x y => key x ≤ key y).drop n) := by
    conv_lhs => rw [← take_append_drop n (l.insertionSort fun x y => key x ≤ key y), huv]
    rw [append_assoc, cons_append]
  have hlength : u.length < n := by
    have htake := length_take_le n (l.insertionSort fun x y => key x ≤ key y)
    rw [huv, length_append, length_cons] at htake
    omega
  have hsorted : (l.insertionSort fun x y => key x ≤ key y).Pairwise fun x y => key x ≤ key y :=
    pairwise_insertionSort _ l
  rw [hsplit, pairwise_append, pairwise_cons] at hsorted
  -- what comes behind is not before it
  have hbehind : (a :: (v ++ (l.insertionSort fun x y => key x ≤ key y).drop n)).countP (fun x => key x < key a) = 0 := by
    rw [countP_eq_zero]
    intro x hx
    obtain rfl | hx := mem_cons.mp hx
    · simp
    · simpa using hsorted.2.1.1 x hx
  rw [← (perm_insertionSort (fun x y => key x ≤ key y) l).countP_eq, hsplit, countP_append, hbehind]
  have hle : u.countP (fun x => key x < key a) ≤ u.length := countP_le_length
  omega

/-- An element that comes first in the list leads its ties. -/
theorem mem_take_insertionSort_cons (h : l.countP (fun x => key x < key a) < n) :
    a ∈ ((a :: l).insertionSort fun x y => key x ≤ key y).take n := by
  rw [insertionSort_cons, orderedInsert_eq_take_drop]
  have hfew : ((l.insertionSort fun x y => key x ≤ key y).takeWhile fun b => decide ¬key a ≤ key b).length < n := by
    refine lt_of_le_of_lt ?_ h
    rw [← (perm_insertionSort (fun x y => key x ≤ key y) l).countP_eq]
    have hall : ∀ b ∈ (l.insertionSort fun x y => key x ≤ key y).takeWhile (fun b => decide ¬key a ≤ key b),
        decide (key b < key a) = true := by
      intro b hb
      simpa using mem_takeWhile_imp hb
    rw [← countP_eq_length.mpr hall]
    exact (takeWhile_sublist _).countP_le
  obtain ⟨m, hm⟩ := Nat.exists_eq_add_of_lt hfew
  rw [hm, Nat.add_assoc, take_length_add_append, take_succ_cons]
  exact mem_append_right _ mem_cons_self

/-- **What can be kept**: of a list in any order, the elements with fewer than `n` strictly before them. -/
theorem exists_perm_kept_iff :
    (∃ m : List α, m.Perm l ∧ a ∈ (m.insertionSort fun x y => key x ≤ key y).take n) ↔
      a ∈ l ∧ l.countP (fun x => key x < key a) < n := by
  constructor
  · rintro ⟨m, hperm, hkept⟩
    refine ⟨hperm.subset ((mem_insertionSort _).mp (mem_of_mem_take hkept)), ?_⟩
    rw [← hperm.countP_eq]
    exact countP_lt_of_mem_take_insertionSort hkept
  · rintro ⟨hmem, hfew⟩
    obtain ⟨u, v, rfl⟩ := append_of_mem hmem
    refine ⟨a :: (u ++ v), perm_middle.symm, mem_take_insertionSort_cons (lt_of_le_of_lt ?_ hfew)⟩
    rw [countP_append, countP_append]
    rw [countP_cons]
    omega

end Kept

end List
