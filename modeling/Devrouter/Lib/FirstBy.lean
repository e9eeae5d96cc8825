import Mathlib.Data.List.Basic
import Mathlib.Logic.Function.Basic

/-!
# First occurrences

`List.firstBy key seen l` keeps the entries of `l` whose key has not occurred before, neither in `seen` nor
in front of them. It is the list that a loop with a set of seen keys collects.
-/

namespace List

variable {α β κ : Type} [DecidableEq κ]

/-- The first entry of each key that is not in `seen`. -/
def firstBy (key : α → κ) : List α → List κ → List α
  | [], _ => []
  | a :: l, seen => if key a ∈ seen then firstBy key l seen else a :: firstBy key l (key a :: seen)

variable {key : α → κ} {seen : List κ} {l : List α}

@[simp] theorem firstBy_nil : ([] : List α).firstBy key seen = [] := rfl

theorem firstBy_cons (a : α) : (a :: l).firstBy key seen =
    if key a ∈ seen then l.firstBy key seen else a :: l.firstBy key (key a :: seen) := rfl

theorem firstBy_sublist : l.firstBy key seen <+ l := by
  induction l generalizing seen with
  | nil => exact Sublist.refl _
  | cons a l ih =>
    rw [firstBy_cons]
    split_ifs
    · exact ih.trans (sublist_cons_self a l)
    · exact ih.cons_cons a

theorem notMem_of_mem_firstBy {a : α} (h : a ∈ l.firstBy key seen) : key a ∉ seen := by
  induction l generalizing seen with
  | nil => exact absurd h not_mem_nil
  | cons b l ih =>
    rw [firstBy_cons] at h
    split_ifs at h with hb
    · exact ih h
    · rcases mem_cons.mp h with rfl | h
      · exact hb
      · exact fun hmem => ih h (mem_cons_of_mem _ hmem)

/-- The keys are different. -/
theorem nodup_map_firstBy : ((l.firstBy key seen).map key).Nodup := by
  induction l generalizing seen with
  | nil => exact nodup_nil
  | cons a l ih =>
    rw [firstBy_cons]
    split_ifs
    · exact ih
    · refine nodup_cons.mpr ⟨fun h => ?_, ih⟩
      obtain ⟨b, hb, hkey⟩ := mem_map.mp h
      exact notMem_of_mem_firstBy hb (hkey ▸ mem_cons_self)

/-- Every new key has its entry. -/
theorem mem_map_firstBy {k : κ} : k ∈ (l.firstBy key seen).map key ↔ k ∈ l.map key ∧ k ∉ seen := by
  induction l generalizing seen with
  | nil => simp
  | cons a l ih =>
    rw [firstBy_cons, map_cons, mem_cons]
    by_cases ha : key a ∈ seen
    · rw [if_pos ha, ih]
      refine and_congr_left fun hk => ⟨.inr, fun h => h.resolve_left ?_⟩
      rintro rfl
      exact hk ha
    · rw [if_neg ha, map_cons, mem_cons, ih, mem_cons, not_or]
      by_cases hk : k = key a
      · subst hk
        exact iff_of_true (.inl rfl) ⟨.inl rfl, ha⟩
      · exact ⟨fun h => (h.resolve_left hk).imp .inr And.right, fun h => .inr ⟨h.1.resolve_left hk, hk, h.2⟩⟩

/-- What entries of one key have in common is not lost. -/
theorem mem_map_firstBy_iff {f : α → β} (hf : ∀ a ∈ l, ∀ b ∈ l, key a = key b → f a = f b) {x : β} :
    x ∈ (l.firstBy key []).map f ↔ x ∈ l.map f := by
  constructor
  · intro h
    obtain ⟨a, ha, rfl⟩ := mem_map.mp h
    exact mem_map_of_mem (firstBy_sublist.subset ha)
  · intro h
    obtain ⟨a, ha, rfl⟩ := mem_map.mp h
    have hkey : key a ∈ (l.firstBy key []).map key := mem_map_firstBy.mpr ⟨mem_map_of_mem ha, not_mem_nil⟩
    obtain ⟨b, hb, hba⟩ := mem_map.mp hkey
    rw [← hf b (firstBy_sublist.subset hb) a ha hba]
    exact mem_map_of_mem hb

/-- Nothing is left out when the keys are different and new. -/
theorem firstBy_of_nodup (hnodup : (l.map key).Nodup) (hnew : ∀ a ∈ l, key a ∉ seen) : l.firstBy key seen = l := by
  induction l generalizing seen with
  | nil => rfl
  | cons a l ih =>
    rw [map_cons, nodup_cons] at hnodup
    obtain ⟨ha, hl⟩ := forall_mem_cons.mp hnew
    rw [firstBy_cons, if_neg ha, ih hnodup.2]
    intro b hb hmem
    obtain hkey | hkey := mem_cons.mp hmem
    · exact hnodup.1 (hkey ▸ mem_map_of_mem hb)
    · exact hl b hb hkey

theorem firstBy_map (f : β → α) (m : List β) :
    (m.map f).firstBy key seen = (m.firstBy (fun b => key (f b)) seen).map f := by
  induction m generalizing seen with
  | nil => rfl
  | cons b m ih =>
    rw [map_cons, firstBy_cons, firstBy_cons]
    split_ifs
    · exact ih
    · rw [ih, map_cons]

/-- Keys may be renamed one to one. -/
theorem firstBy_of_injective {κ' : Type} [DecidableEq κ'] {key' : α → κ'} {g : κ → κ'} (hg : Function.Injective g)
    (seen : List κ) (hkey : ∀ a ∈ l, key' a = g (key a)) : l.firstBy key' (seen.map g) = l.firstBy key seen := by
  induction l generalizing seen with
  | nil => rfl
  | cons a l ih =>
    obtain ⟨ha, hl⟩ := forall_mem_cons.mp hkey
    have hmem : key' a ∈ seen.map g ↔ key a ∈ seen := by rw [ha, mem_map_of_injective hg]
    rw [firstBy_cons, firstBy_cons, if_congr hmem rfl rfl, ha, ← map_cons, ih _ hl, ih _ hl]

/-- Two keys that tell the same entries apart keep the same entries. -/
theorem firstBy_eq_of_same {κ' : Type} [DecidableEq κ'] {key' : α → κ'} (m : List α)
    (hsame : ∀ a ∈ l, ∀ b ∈ m ++ l, key a = key b ↔ key' a = key' b) :
    l.firstBy key (m.map key) = l.firstBy key' (m.map key') := by
  induction l generalizing m with
  | nil => rfl
  | cons a l ih =>
    have hmem : key a ∈ m.map key ↔ key' a ∈ m.map key' := by
      rw [mem_map, mem_map]
      refine exists_congr fun b => and_congr_right fun hb => ?_
      rw [eq_comm, hsame a mem_cons_self b (mem_append_left _ hb), eq_comm]
    have hrest : ∀ m' : List α, (∀ b ∈ m', b ∈ a :: m) →
        ∀ x ∈ l, ∀ b ∈ m' ++ l, key x = key b ↔ key' x = key' b := by
      intro m' hm' x hx b hb
      refine hsame x (mem_cons_of_mem _ hx) b (mem_append.mpr ?_)
      rcases mem_append.mp hb with hb | hb
      · exact (mem_cons.mp (hm' b hb)).elim (fun h => .inr (h ▸ mem_cons_self)) .inl
      · exact .inr (mem_cons_of_mem _ hb)
    rw [firstBy_cons, firstBy_cons, if_congr hmem rfl rfl, ← map_cons, ← map_cons,
      ih m (hrest m fun b hb => mem_cons_of_mem _ hb), ih (a :: m) (hrest (a :: m) fun _ hb => hb)]

/-- The first entries of one group are the first entries of the group. -/
theorem filter_firstBy_prod {γ : Type} [DecidableEq γ] (f : α → γ) (g : α → κ) (k : γ) (seen : List (γ × κ)) :
    (l.firstBy (fun a => (f a, g a)) seen).filter (fun a => decide (f a = k)) =
      (l.filter fun a => decide (f a = k)).firstBy g ((seen.filter fun p => decide (p.1 = k)).map Prod.snd) := by
  induction l generalizing seen with
  | nil => rfl
  | cons a l ih =>
    -- among the entries of `k` the pair is as new as its second part
    have hmem : f a = k → ((f a, g a) ∈ seen ↔ g a ∈ (seen.filter fun p => decide (p.1 = k)).map Prod.snd) := by
      rintro rfl
      simp only [mem_map, mem_filter, decide_eq_true_eq]
      constructor
      · intro h
        exact ⟨_, ⟨h, rfl⟩, rfl⟩
      · rintro ⟨⟨x, y⟩, ⟨h, rfl⟩, rfl⟩
        exact h
    rw [firstBy_cons]
    by_cases hk : f a = k
    · rw [filter_cons_of_pos (by simpa using hk), firstBy_cons, if_congr (hmem hk).symm rfl rfl]
      split_ifs with hseen
      · exact ih seen
      · rw [filter_cons_of_pos (by simpa using hk), ih, filter_cons_of_pos (by simpa using hk), map_cons]
    · -- an entry of another first part is dropped, and what it has left behind is too
      rw [filter_cons_of_neg (by simpa using hk)]
      split_ifs with hseen
      · exact ih seen
      · rw [filter_cons_of_neg (by simpa using hk), ih, filter_cons_of_neg (by simpa using hk)]

/-- Only which keys have been seen matters. -/
theorem firstBy_congr {seen' : List κ} (h : ∀ a ∈ l, key a ∈ seen ↔ key a ∈ seen') :
    l.firstBy key seen = l.firstBy key seen' := by
  induction l generalizing seen seen' with
  | nil => rfl
  | cons a l ih =>
    obtain ⟨ha, hl⟩ := forall_mem_cons.mp h
    have htail : ∀ b ∈ l, key b ∈ key a :: seen ↔ key b ∈ key a :: seen' := by
      intro b hb
      rw [mem_cons, mem_cons, hl b hb]
    rw [firstBy_cons, firstBy_cons, if_congr ha (ih hl) rfl, ih htail]

/-- The second list is collected with the keys of the first. -/
theorem firstBy_append (m : List α) :
    (l ++ m).firstBy key seen = l.firstBy key seen ++ m.firstBy key (l.map key ++ seen) := by
  induction l generalizing seen with
  | nil => rfl
  | cons a l ih =>
    rw [cons_append, firstBy_cons, firstBy_cons, map_cons, cons_append]
    split_ifs with ha
    · rw [ih]
      refine congrArg _ (firstBy_congr fun b _ => ?_)
      rw [mem_cons, mem_append]
      exact ⟨.inr, fun hk => hk.elim (fun hka => .inr (hka ▸ ha)) id⟩
    · rw [ih, cons_append]
      refine congrArg _ (congrArg _ (firstBy_congr fun b _ => ?_))
      rw [mem_cons, mem_append, mem_append, mem_cons]
      exact or_left_comm

/-- More keys seen: their entries are left out. -/
theorem firstBy_append_seen (s : List κ) :
    l.firstBy key (s ++ seen) = (l.firstBy key seen).filter fun a => decide (key a ∉ s) := by
  induction l generalizing seen with
  | nil => rfl
  | cons a l ih =>
    rw [firstBy_cons, firstBy_cons]
    by_cases hseen : key a ∈ seen
    · rw [if_pos (mem_append_right s hseen), if_pos hseen, ih]
    · have hmid : l.firstBy key (key a :: (s ++ seen)) = l.firstBy key (s ++ key a :: seen) :=
        firstBy_congr fun b _ => by simp only [mem_cons, mem_append, or_left_comm]
      rw [if_neg hseen]
      by_cases hs : key a ∈ s
      · -- `a` is left out, and so is everything of its key
        rw [if_pos (mem_append_left seen hs), filter_cons_of_neg (by simpa using hs), ← ih]
        refine firstBy_congr fun b _ => ?_
        rw [mem_append, mem_append, mem_cons]
        exact ⟨fun h => h.imp id .inr, fun h => h.elim .inl fun h => h.elim (fun hk => .inl (hk ▸ hs)) .inr⟩
      · rw [if_neg fun h => (mem_append.mp h).elim hs hseen, filter_cons_of_pos (by simpa using hs), hmid, ih]

end List
