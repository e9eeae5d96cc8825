import Devrouter.Lib.FirstBy
import Devrouter.Lib.FirstSeen

/-!
# The most recent entries

A history lists entries with keys, the newest first. Its `n` most recent entries are those of the `n` keys that occurred
last, each with the entry that its key occurred with last (`recent`). A list that moves an entry to its front, takes the
other entries of its key away and is cut off behind `n` entries holds them (`recent_cons`).
-/

namespace List

variable {α κ : Type} [DecidableEq κ] {key : α → κ} {n : ℕ} {l : List α} {a b : α} {k : κ}

/-- The newest entries of the `n` keys that occurred last. -/
def recent (key : α → κ) (n : ℕ) (l : List α) : List α := (l.firstBy key []).take n

@[simp] theorem recent_nil : ([] : List α).recent key n = [] := take_nil

/-- The new entry, and the entries of the other keys. -/
theorem firstBy_cons_nil (a : α) (l : List α) : (a :: l).firstBy key [] =
    a :: (l.firstBy key []).filter fun b => decide (key b ≠ key a) := by
  have hseen : l.firstBy key ([key a] ++ []) = (l.firstBy key []).filter fun b => decide (key b ∉ [key a]) :=
    firstBy_append_seen [key a]
  rw [append_nil] at hseen
  rw [firstBy_cons, if_neg not_mem_nil, hseen]
  simp only [mem_singleton, ne_eq]

/-- Where the keys are different, a filter takes one entry away at most. -/
theorem length_le_length_filter (h : (l.map key).Nodup) (k : κ) :
    l.length ≤ (l.filter fun b => decide (key b ≠ k)).length + 1 := by
  induction l with
  | nil => exact Nat.zero_le _
  | cons a l ih =>
    obtain ⟨ha, hl⟩ := nodup_cons.mp h
    by_cases hk : key a = k
    · -- no other entry has the key
      have hall : (l.filter fun b => decide (key b ≠ k)) = l := by
        refine filter_eq_self.mpr fun b hb => decide_eq_true fun hbk => ha ?_
        exact mem_map.mpr ⟨b, hb, hbk.trans hk.symm⟩
      rw [filter_cons_of_neg (by simpa using hk), hall, length_cons]
    · rw [filter_cons_of_pos (by simpa using hk), length_cons, length_cons]
      exact Nat.succ_le_succ (ih hl)

/-- **The next entry.** It is put in front of the entries of the other keys, and the list is cut off. -/
theorem recent_cons (a : α) (l : List α) :
    (a :: (l.recent key n).filter fun b => decide (key b ≠ key a)).take n = (a :: l).recent key n := by
  cases n with
  | zero => rfl
  | succ n =>
    rw [recent, recent, firstBy_cons_nil, take_succ_cons, take_succ_cons]
    refine congrArg _ ?_
    -- what the cut has removed before is not reached
    have hsplit := take_append_drop (n + 1) (l.firstBy key [])
    have hkeys : (((l.firstBy key []).take (n + 1)).map key).Nodup :=
      nodup_map_firstBy.sublist ((take_sublist _ _).map key)
    have hlen := length_le_length_filter hkeys (key a)
    conv_rhs => rw [← hsplit, filter_append]
    obtain hshort | hlong := Nat.lt_or_ge (l.firstBy key []).length (n + 1)
    · rw [drop_eq_nil_of_le hshort.le, filter_nil, append_nil]
    · rw [length_take, Nat.min_eq_left hlong] at hlen
      rw [take_append_of_le_length (Nat.le_of_succ_le_succ hlen)]

theorem length_recent_le : (l.recent key n).length ≤ n := length_take_le _ _

/-- The newest entry is the first one. -/
theorem head?_recent (hn : 0 < n) : (l.recent key n).head? = l.head? := by
  obtain ⟨m, rfl⟩ := Nat.exists_eq_succ_of_ne_zero hn.ne'
  cases l with
  | nil => rfl
  | cons a l => rw [recent, firstBy_cons_nil, take_succ_cons, head?_cons, head?_cons]

/-- An entry that is kept is the newest one of its key. -/
theorem find?_of_mem_firstBy {seen : List κ} (h : a ∈ l.firstBy key seen) :
    l.find? (fun b => decide (key b = key a)) = some a := by
  have hnew := notMem_of_mem_firstBy h
  induction l generalizing seen with
  | nil => exact absurd h not_mem_nil
  | cons b l ih =>
    rw [firstBy_cons] at h
    by_cases hb : key b ∈ seen
    · -- the key of `b` has been seen, that of `a` has not
      have hne : key b ≠ key a := fun heq => hnew (heq ▸ hb)
      rw [if_pos hb] at h
      rw [find?_cons_of_neg (by simpa using hne)]
      exact ih h hnew
    · rw [if_neg hb] at h
      obtain rfl | h := mem_cons.mp h
      · exact find?_cons_of_pos (by simp)
      · -- `a` stands in the rest, and its key is not that of `b`
        have hlater := notMem_of_mem_firstBy h
        have hne : key b ≠ key a := fun heq => hlater (heq ▸ mem_cons_self)
        rw [find?_cons_of_neg (by simpa using hne)]
        exact ih h hlater

theorem find?_of_mem_recent (h : a ∈ l.recent key n) : l.find? (fun b => decide (key b = key a)) = some a :=
  find?_of_mem_firstBy (mem_of_mem_take h)

/-- The keys of the newest entries. -/
theorem map_firstBy_nil : (l.firstBy key []).map key = (l.map key).eraseDups := by
  induction l using reverseRecOn with
  | nil => rfl
  | append_singleton l a ih =>
    rw [firstBy_append, map_append, ih, map_append, eraseDups_append, append_nil, firstBy_cons, firstBy_nil, firstBy_nil]
    by_cases ha : key a ∈ l.map key
    · have hgone : ([a].map key).removeAll (l.map key) = [] := by simpa [removeAll] using ha
      rw [if_pos ha, hgone, eraseDups_nil, map_nil]
    · have hnew : ([a].map key).removeAll (l.map key) = [key a] := by simpa [removeAll] using ha
      rw [if_neg ha, hnew, (nodup_singleton (key a)).eraseDups_eq, map_singleton]

/-- **Presence.** A key is present when fewer than `n` different keys have occurred since it did. -/
theorem mem_map_recent_iff : k ∈ (l.recent key n).map key ↔
    ∃ newer older, l.map key = newer ++ k :: older ∧ k ∉ newer ∧ newer.eraseDups.length < n := by
  rw [recent, map_take, map_firstBy_nil, mem_take_eraseDups_iff]

/-- The entries are in the order in which their keys occurred last. -/
theorem pairwise_recent :
    (l.recent key n).Pairwise fun a b => (l.map key).idxOf (key a) < (l.map key).idxOf (key b) := by
  have hkeys := pairwise_idxOf_eraseDups (l.map key)
  rw [← map_firstBy_nil, pairwise_map] at hkeys
  exact hkeys.sublist (take_sublist _ _)

end List
