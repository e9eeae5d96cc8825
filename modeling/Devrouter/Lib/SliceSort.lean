import Mathlib.Data.List.Nodup
import Mathlib.Data.List.Sort

/-!
# An unstable sort

A sort that compares the elements of a slice by a score and moves them is known by the order in which it leaves the
positions, and that order depends on the scores alone. `SliceSort` is such a sort, highest score first, with ties in
any order; `sortBy` applies it to a list of anything that has scores. So labels on the elements ride along
(`sortBy_map`).

Cutting off what is sorted leaves it to the order of the ties what stays. `exists_cut_iff` counts when some order keeps
one element and cuts off another.
-/

/-- A sort of scores: the positions, in the order in which they end up. -/
structure SliceSort (R : Type) [LT R] where
  order : List R → List ℕ
  perm : ∀ scores, (order scores).Perm (List.range scores.length)
  /-- No score is followed by a higher one. -/
  sorted : ∀ scores, ((order scores).filterMap (scores[·]?)).Pairwise fun a b => ¬a < b

namespace SliceSort

variable {R α β : Type}

theorem range_filterMap (l : List α) : (List.range l.length).filterMap (l[·]?) = l := by
  induction l with
  | nil => rfl
  | cons a l ih =>
    rw [List.length_cons, List.range_succ_eq_map, List.filterMap_cons_some List.getElem?_cons_zero, List.filterMap_map]
    exact congrArg (a :: ·) ih

section Apply

variable [LT R] (s : SliceSort R)

/-- The list, sorted by the scores of its elements. -/
def sortBy (f : α → R) (l : List α) : List α := (s.order (l.map f)).filterMap (l[·]?)

theorem sortBy_perm (f : α → R) (l : List α) : (s.sortBy f l).Perm l := by
  have hperm := (s.perm (l.map f)).filterMap (l[·]?)
  rw [List.length_map, range_filterMap] at hperm
  exact hperm

theorem sortBy_nil (f : α → R) : s.sortBy f [] = [] := (s.sortBy_perm f []).eq_nil

/-- **Labels ride along.** -/
theorem sortBy_map (g : α → β) (f : β → R) (l : List α) : s.sortBy f (l.map g) = (s.sortBy (f ∘ g) l).map g := by
  unfold sortBy
  rw [List.map_map, List.map_filterMap]
  refine List.filterMap_congr fun i _ => ?_
  exact List.getElem?_map

end Apply

/-- What is sorted with the positions beside them comes back with the positions. -/
theorem snd_perm {scores : List R} {p : List (R × ℕ)} (hp : p.Perm scores.zipIdx) :
    (p.map Prod.snd).Perm (List.range scores.length) := by
  have hperm := hp.map Prod.snd
  rwa [List.zipIdx_map_snd, ← List.range_eq_range'] at hperm

/-- Each position is mapped back to the score it came with. -/
theorem filterMap_snd {scores : List R} {p : List (R × ℕ)} (hp : p.Perm scores.zipIdx) :
    (p.map Prod.snd).filterMap (scores[·]?) = p.map Prod.fst := by
  rw [List.filterMap_map, ← List.filterMap_eq_map]
  refine List.filterMap_congr fun s hs => ?_
  exact List.mem_zipIdx_iff_getElem?.mp (hp.mem_iff.mp hs)

section Order

variable [LinearOrder R]

/-- The sort that leaves ties as they were. -/
def stable (R : Type) [LinearOrder R] : SliceSort R where
  order scores := (scores.zipIdx.mergeSort fun a b => decide (b.1 ≤ a.1)).map Prod.snd
  perm scores := snd_perm (List.mergeSort_perm _ _)
  sorted scores := by
    have hpairs : (scores.zipIdx.mergeSort fun a b => decide (b.1 ≤ a.1)).Pairwise
        fun a b => decide (b.1 ≤ a.1) = true := List.pairwise_mergeSort
      (fun a b c hab hbc => decide_eq_true ((of_decide_eq_true hbc).trans (of_decide_eq_true hab)))
      (fun a b => by simpa using le_total b.1 a.1) scores.zipIdx
    rw [filterMap_snd (List.mergeSort_perm _ _), List.pairwise_map]
    exact hpairs.imp fun h => (of_decide_eq_true h).not_gt

/-! ### Cutting off what is sorted -/

/-- The higher score first, and among ties the smaller `tie`. -/
def Leads (tie : ℕ → ℕ) (a b : R × ℕ) : Prop := b.1 < a.1 ∨ a.1 = b.1 ∧ tie a.2 ≤ tie b.2

instance (tie : ℕ → ℕ) (a b : R × ℕ) : Decidable (Leads tie a b) := inferInstanceAs (Decidable (_ ∨ _))

theorem pairwise_leads (tie : ℕ → ℕ) (p : List (R × ℕ)) :
    (p.mergeSort fun a b => decide (Leads tie a b)).Pairwise (Leads tie) := by
  -- the order of a position among equal keys is that of its tie, so the order is total and transitive
  have htrans : ∀ a b c : R × ℕ, decide (Leads tie a b) = true → decide (Leads tie b c) = true →
      decide (Leads tie a c) = true := by
    intro a b c hab hbc
    refine decide_eq_true ?_
    obtain hab | ⟨hab, hi⟩ := of_decide_eq_true hab
    · obtain hbc | ⟨hbc, -⟩ := of_decide_eq_true hbc
      · exact .inl (hbc.trans hab)
      · exact .inl (hbc ▸ hab)
    · obtain hbc | ⟨hbc, hj⟩ := of_decide_eq_true hbc
      · exact .inl (hab ▸ hbc)
      · exact .inr ⟨hab.trans hbc, hi.trans hj⟩
  have htotal : ∀ a b : R × ℕ, (decide (Leads tie a b) || decide (Leads tie b a)) = true := by
    intro a b
    rw [Bool.or_eq_true, decide_eq_true_eq, decide_eq_true_eq]
    obtain h | h | h := lt_trichotomy a.1 b.1
    · exact .inr (.inl h)
    · exact (le_total (tie a.2) (tie b.2)).imp (fun hle => .inr ⟨h, hle⟩) fun hle => .inr ⟨h.symm, hle⟩
    · exact .inl (.inl h)
  exact (List.pairwise_mergeSort htrans htotal p).imp of_decide_eq_true

/-- The sort that leaves ties in the order of `tie` at their positions. -/
def byTies (R : Type) [LinearOrder R] (tie : ℕ → ℕ) : SliceSort R where
  order scores := (scores.zipIdx.mergeSort fun a b => decide (Leads tie a b)).map Prod.snd
  perm scores := snd_perm (List.mergeSort_perm _ _)
  sorted scores := by
    rw [filterMap_snd (List.mergeSort_perm _ _), List.pairwise_map]
    refine (pairwise_leads tie scores.zipIdx).imp fun h => ?_
    exact h.elim (fun hlt => hlt.not_gt) fun heq => heq.1.not_lt

variable (s : SliceSort R) {f : α → R} {l : List α} {k : ℕ}

/-- Elements that have a position each are sorted by score and `tie`. -/
theorem sortBy_byTies (tie : ℕ → ℕ) (f : α → R) (l : List α) :
    ((byTies R tie).sortBy f l).Pairwise fun a b =>
      ∃ i j, l[i]? = some a ∧ l[j]? = some b ∧ Leads tie (f a, i) (f b, j) := by
  unfold sortBy byTies
  dsimp only
  rw [List.pairwise_filterMap, List.pairwise_map]
  refine (pairwise_leads tie (l.map f).zipIdx).imp_of_mem fun {p q} hp hq hlead a ha b hb => ?_
  have hscore : ∀ {p : R × ℕ} {a : α},
      p ∈ (l.map f).zipIdx.mergeSort (fun a b => decide (Leads tie a b)) → l[p.2]? = some a → (f a, p.2) = p := by
    intro p a hp ha
    have hget := List.mem_zipIdx_iff_getElem?.mp (List.mem_mergeSort.mp hp)
    rw [List.getElem?_map, ha] at hget
    exact Prod.ext (Option.some.inj hget) rfl
  exact ⟨p.2, q.2, ha, hb, by rwa [hscore hp ha, hscore hq hb]⟩

/-- **Scores fall.** -/
theorem sortBy_sorted (f : α → R) (l : List α) : (s.sortBy f l).Pairwise fun a b => f b ≤ f a := by
  have hscores : (s.sortBy f l).map f = (s.order (l.map f)).filterMap ((l.map f)[·]?) := by
    unfold sortBy
    rw [List.map_filterMap]
    refine List.filterMap_congr fun i _ => ?_
    exact List.getElem?_map.symm
  have hsorted := s.sorted (l.map f)
  rw [← hscores, List.pairwise_map] at hsorted
  exact hsorted.imp fun h => not_lt.mp h

/-- What is counted is kept or cut off. -/
theorem countP_sortBy (f : α → R) (l : List α) (p : α → Bool) (k : ℕ) :
    l.countP p = ((s.sortBy f l).take k).countP p + ((s.sortBy f l).drop k).countP p := by
  rw [← List.countP_append, List.take_append_drop, (s.sortBy_perm f l).countP_eq]

theorem mem_take_or_drop {z : α} (hz : z ∈ l) : z ∈ (s.sortBy f l).take k ∨ z ∈ (s.sortBy f l).drop k := by
  rw [← List.mem_append, List.take_append_drop]
  exact (s.sortBy_perm f l).mem_iff.mpr hz

theorem length_take_of_mem_drop {l : List α} {z : α} (hz : z ∈ l.drop k) : (l.take k).length = k := by
  have hpos := List.length_pos_of_mem hz
  rw [List.length_drop] at hpos
  rw [List.length_take]
  omega

theorem le_of_kept_of_cut {y x : α} (hy : y ∈ (s.sortBy f l).take k) (hx : x ∈ (s.sortBy f l).drop k) : f x ≤ f y := by
  have hsorted := s.sortBy_sorted f l
  rw [← List.take_append_drop k (s.sortBy f l), List.pairwise_append] at hsorted
  exact hsorted.2.2 y hy x hx

/-- Fewer than `k` have more than what stays. -/
theorem countP_lt_of_kept {y : α} (hy : y ∈ (s.sortBy f l).take k) : l.countP (fun z => f y < f z) < k := by
  have hdrop : ((s.sortBy f l).drop k).countP (fun z => f y < f z) = 0 :=
    List.countP_eq_zero.mpr fun z hz => by simpa using s.le_of_kept_of_cut hy hz
  have htake : ((s.sortBy f l).take k).countP (fun z => f y < f z) < ((s.sortBy f l).take k).length := by
    refine lt_of_le_of_ne List.countP_le_length fun heq => ?_
    exact lt_irrefl _ (of_decide_eq_true (List.countP_eq_length.mp heq y hy))
  have hcap := List.length_take_le k (s.sortBy f l)
  rw [s.countP_sortBy f l _ k, hdrop]
  omega

/-- More than `k` have at least what is cut off has. -/
theorem lt_countP_of_cut {x : α} (hx : x ∈ (s.sortBy f l).drop k) : k < l.countP fun z => f x ≤ f z := by
  have htake : ((s.sortBy f l).take k).countP (fun z => f x ≤ f z) = ((s.sortBy f l).take k).length :=
    List.countP_eq_length.mpr fun z hz => decide_eq_true (s.le_of_kept_of_cut hz hx)
  have hdrop : 0 < ((s.sortBy f l).drop k).countP fun z => f x ≤ f z :=
    List.countP_pos_iff.mpr ⟨x, hx, decide_eq_true le_rfl⟩
  rw [s.countP_sortBy f l _ k, htake, length_take_of_mem_drop hx]
  omega

/-- What has a place whatever the order of the ties stays. -/
theorem kept_of_countP_le {z : α} (hz : z ∈ l) (hfit : l.countP (fun w => f z ≤ f w) ≤ k) :
    z ∈ (s.sortBy f l).take k :=
  (s.mem_take_or_drop hz).resolve_right fun hcut => (s.lt_countP_of_cut hcut).not_ge hfit

/-- What has none is cut off. -/
theorem cut_of_le_countP {z : α} (hz : z ∈ l) (hfull : k ≤ l.countP fun w => f z < f w) :
    z ∈ (s.sortBy f l).drop k :=
  (s.mem_take_or_drop hz).resolve_left fun hkept => (s.countP_lt_of_kept hkept).not_ge hfull

theorem place_inj (hnodup : l.Nodup) {n m : ℕ} {z : α} (hn : l[n]? = some z) (hm : l[m]? = some z) : n = m := by
  obtain ⟨hn', hn⟩ := List.getElem?_eq_some_iff.mp hn
  obtain ⟨hm', hm⟩ := List.getElem?_eq_some_iff.mp hm
  exact (hnodup.getElem_inj_iff).mp (hn.trans hm.symm)

/-- What leads its ties stays when fewer than `k` have more. -/
theorem kept_of_leading {tie : ℕ → ℕ} (hnodup : l.Nodup) {y : α} {j : ℕ} (hj : l[j]? = some y)
    (hlow : ∀ n, n ≠ j → tie j < tie n) (hfew : l.countP (fun z => f y < f z) < k) :
    y ∈ ((byTies R tie).sortBy f l).take k := by
  by_contra hcut
  have hdrop := ((byTies R tie).mem_take_or_drop (f := f) (List.mem_of_getElem? hj)).resolve_left hcut
  have hpairs := sortBy_byTies tie f l
  rw [← List.take_append_drop k ((byTies R tie).sortBy f l), List.pairwise_append] at hpairs
  -- all that stay have more than `y`
  have hall : ∀ z ∈ ((byTies R tie).sortBy f l).take k, decide (f y < f z) = true := by
    intro z hz
    obtain ⟨n, m, hn, hm, hlead⟩ := hpairs.2.2 z hz y hdrop
    obtain rfl := place_inj hnodup hm hj
    have hne : n ≠ m := by
      rintro rfl
      exact hcut (Option.some.inj (hn.symm.trans hj) ▸ hz)
    exact decide_eq_true (hlead.resolve_right fun h => (hlow n hne).not_ge h.2)
  rw [(byTies R tie).countP_sortBy f l _ k, List.countP_eq_length.mpr hall, length_take_of_mem_drop hdrop] at hfew
  omega

/-- What trails its ties is cut off when more than `k` have as much. -/
theorem cut_of_trailing {tie : ℕ → ℕ} (hnodup : l.Nodup) {x : α} {i : ℕ} (hi : l[i]? = some x)
    (hhigh : ∀ n, n ≠ i → tie n < tie i) (hmany : k < l.countP fun z => f x ≤ f z) :
    x ∈ ((byTies R tie).sortBy f l).drop k := by
  by_contra hkept
  have htake := ((byTies R tie).mem_take_or_drop (f := f) (List.mem_of_getElem? hi)).resolve_right hkept
  have hpairs := sortBy_byTies tie f l
  rw [← List.take_append_drop k ((byTies R tie).sortBy f l), List.pairwise_append] at hpairs
  -- all that are cut off have less than `x`
  have hnone : ∀ z ∈ ((byTies R tie).sortBy f l).drop k, ¬ decide (f x ≤ f z) = true := by
    intro z hz hle
    obtain ⟨n, m, hn, hm, hlead⟩ := hpairs.2.2 x htake z hz
    obtain rfl := place_inj hnodup hn hi
    have hne : m ≠ n := by
      rintro rfl
      exact hkept (Option.some.inj (hm.symm.trans hi) ▸ hz)
    exact hlead.elim (fun hlt => hlt.not_ge (of_decide_eq_true hle)) fun h => (hhigh m hne).not_ge h.2
  rw [(byTies R tie).countP_sortBy f l _ k, List.countP_eq_zero.mpr hnone] at hmany
  have hlen := List.countP_le_length (p := fun z => decide (f x ≤ f z)) (l := ((byTies R tie).sortBy f l).take k)
  have hcap := List.length_take_le k ((byTies R tie).sortBy f l)
  omega

/-- **The cut of an unstable sort**: some order of the ties keeps `y` and cuts `x` off exactly when fewer than `k` have
more than `y`, and more than `k` have at least what `x` has. -/
theorem exists_cut_iff (f : α → R) (k : ℕ) (hnodup : l.Nodup) {x y : α} (hx : x ∈ l) (hy : y ∈ l) (hne : x ≠ y) :
    (∃ s : SliceSort R, y ∈ (s.sortBy f l).take k ∧ x ∈ (s.sortBy f l).drop k) ↔
      l.countP (fun z => f y < f z) < k ∧ k < l.countP fun z => f x ≤ f z := by
  refine ⟨fun ⟨s, hkept, hcut⟩ => ⟨s.countP_lt_of_kept hkept, s.lt_countP_of_cut hcut⟩, fun ⟨hfew, hmany⟩ => ?_⟩
  obtain ⟨i, hi⟩ := List.mem_iff_getElem?.mp hx
  obtain ⟨j, hj⟩ := List.mem_iff_getElem?.mp hy
  have hij : i ≠ j := by
    rintro rfl
    exact hne (Option.some.inj (hi.symm.trans hj))
  -- `y` leads its ties and `x` trails its own
  refine ⟨byTies R fun n => if n = j then 0 else if n = i then 2 else 1, ?_, ?_⟩
  · refine kept_of_leading hnodup hj (fun n hn => ?_) hfew
    rw [if_pos rfl, if_neg hn]
    split_ifs <;> decide
  · refine cut_of_trailing hnodup hi (fun n hn => ?_) hmany
    rw [if_neg hij, if_pos rfl, if_neg hn]
    split_ifs <;> decide

end Order

end SliceSort
