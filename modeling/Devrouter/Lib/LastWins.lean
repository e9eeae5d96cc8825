import Mathlib.Data.List.Basic

/-!
# Tables where the last write wins

A table lists its records in the order their keys were first set; setting a key again replaces the record where
it stands. Two records have the `same` key, where some records may have a key that not even they themselves
have again (a key that is compared by identity).

A query for one key finds the last record that was set with it (`find?_lastWins`). A table has no two records
with one key (`apart_lastWins`), and setting its records one by one gives it again (`Apart.lastWins_eq`).
-/

namespace List

variable {α : Type} {same : α → α → Bool}

/-- Replace the first record with the key, or append. -/
def setLast (same : α → α → Bool) : List α → α → List α
  | [], a => [a]
  | b :: l, a => if same b a then a :: l else b :: setLast same l a

/-- The table that a list of writes leaves behind. -/
def lastWins (same : α → α → Bool) (l : List α) : List α := l.foldl (setLast same) []

/-- No two records have one key. -/
def Apart (same : α → α → Bool) (l : List α) : Prop := l.Pairwise fun b a => same b a = false

theorem mem_setLast {l : List α} {a x : α} (h : x ∈ l.setLast same a) : x = a ∨ x ∈ l := by
  induction l with
  | nil => exact .inl (mem_singleton.mp h)
  | cons b l ih =>
    rw [setLast] at h
    split at h
    · exact (mem_cons.mp h).imp_right (mem_cons_of_mem b)
    · cases mem_cons.mp h with
      | inl heq => exact .inr (heq ▸ mem_cons_self)
      | inr hmem => exact (ih hmem).imp_right (mem_cons_of_mem b)

theorem mem_setLast_self (l : List α) (a : α) : a ∈ l.setLast same a := by
  induction l with
  | nil => exact mem_singleton.mpr rfl
  | cons b l ih =>
    rw [setLast]
    split
    · exact mem_cons_self
    · exact mem_cons_of_mem b ih

/-- A table grows by one record at most. -/
theorem length_setLast_le (l : List α) (a : α) : (l.setLast same a).length ≤ l.length + 1 := by
  induction l with
  | nil => exact Nat.le_refl 1
  | cons b l ih =>
    rw [setLast]
    split
    · exact Nat.le_succ _
    · exact Nat.succ_le_succ ih

/-- Setting a key again leaves a record with it. -/
theorem exists_mem_setLast {κ : Type} {f : α → κ} (hf : ∀ a b, same b a = true → f b = f a) {l : List α} {a x : α}
    (h : x ∈ l) : ∃ y ∈ l.setLast same a, f y = f x := by
  induction l with
  | nil => exact absurd h not_mem_nil
  | cons b l ih =>
    rw [setLast]
    cases hs : same b a with
    | true =>
      rw [if_pos rfl]
      cases mem_cons.mp h with
      | inl heq => exact ⟨a, mem_cons_self, heq ▸ (hf a b hs).symm⟩
      | inr hmem => exact ⟨x, mem_cons_of_mem a hmem, rfl⟩
    | false =>
      rw [if_neg Bool.false_ne_true]
      cases mem_cons.mp h with
      | inl heq => exact ⟨b, mem_cons_self, heq ▸ rfl⟩
      | inr hmem =>
        obtain ⟨y, hy, hyx⟩ := ih hmem
        exact ⟨y, mem_cons_of_mem b hy, hyx⟩

/-- Every key that was set has a record. -/
theorem exists_mem_lastWins {κ : Type} {f : α → κ} (hf : ∀ a b, same b a = true → f b = f a) {l : List α} {x : α}
    (h : x ∈ l) : ∃ y ∈ l.lastWins same, f y = f x := by
  have hrun : ∀ (l t : List α), (∃ y ∈ t ++ l, f y = f x) → ∃ y ∈ l.foldl (setLast same) t, f y = f x := by
    intro l
    induction l with
    | nil => exact fun t ht => by rwa [append_nil] at ht
    | cons a l ih =>
      rintro t ⟨y, hy, hyx⟩
      apply ih
      cases mem_append.mp hy with
      | inl hmem =>
        obtain ⟨z, hz, hzy⟩ := exists_mem_setLast hf (a := a) hmem
        exact ⟨z, mem_append_left l hz, hzy.trans hyx⟩
      | inr hmem =>
        cases mem_cons.mp hmem with
        | inl heq => exact ⟨a, mem_append_left l (mem_setLast_self t a), heq ▸ hyx⟩
        | inr hrest => exact ⟨y, mem_append_right _ hrest, hyx⟩
  exact hrun l [] ⟨x, by rwa [nil_append], rfl⟩

theorem mem_of_mem_lastWins {l : List α} {x : α} (h : x ∈ l.lastWins same) : x ∈ l := by
  have hrun : ∀ (l t : List α), x ∈ l.foldl (setLast same) t → x ∈ t ∨ x ∈ l := by
    intro l
    induction l with
    | nil => exact fun t ht => .inl ht
    | cons a l ih =>
      intro t ht
      cases ih _ ht with
      | inl hset =>
        cases mem_setLast hset with
        | inl heq => exact .inr (heq ▸ mem_cons_self)
        | inr hmem => exact .inl hmem
      | inr hmem => exact .inr (mem_cons_of_mem a hmem)
  exact (hrun l [] h).resolve_left not_mem_nil

/-! ### Queries -/

/-- A query for one key: its records have the key of each other, and no other record has it. -/
structure OneKey (same : α → α → Bool) (q : α → Bool) : Prop where
  same_of : ∀ {a b}, q a = true → q b = true → same b a = true
  of_same : ∀ {a b}, same b a = true → q b = q a

variable {q : α → Bool} (hq : OneKey same q)
include hq

theorem find?_setLast (l : List α) (a : α) :
    (l.setLast same a).find? q = if q a then some a else l.find? q := by
  induction l with
  | nil => cases h : q a <;> simp [setLast, h]
  | cons b l ih =>
    rw [setLast]
    cases hs : same b a with
    | true =>
      -- the record that is replaced answers the query exactly when the new one does
      have hba : q b = q a := hq.of_same hs
      cases ha : q a <;> simp [hba, ha]
    | false =>
      have hnot : q a = true → q b = false := by
        intro ha
        by_contra hb
        have hsame : same b a = true := hq.same_of ha (by simpa using hb)
        rw [hs] at hsame
        exact Bool.false_ne_true hsame
      cases hb : q b with
      | true =>
        have ha : q a = false := by
          by_contra ha
          exact absurd (hnot (by simpa using ha)) (by simp [hb])
        simp [hb, ha]
      | false => simpa [hb] using ih

/-- **The last write wins.** A query for one key finds the last record that was set with it. -/
theorem find?_lastWins (l : List α) : (l.lastWins same).find? q = l.reverse.find? q := by
  have hrun : ∀ (l t : List α), (l.foldl (setLast same) t).find? q = (l.reverse.find? q).or (t.find? q) := by
    intro l
    induction l with
    | nil => exact fun t => rfl
    | cons a l ih =>
      intro t
      rw [foldl_cons, ih, find?_setLast hq, reverse_cons, find?_append, Option.or_assoc]
      cases ha : q a <;> simp [ha]
  rw [lastWins, hrun l [], find?_nil, Option.or_none]

omit hq

/-! ### Tables -/

theorem Apart.setLast (trans : ∀ a b c, same a b = true → same b c = true → same a c = true) {l : List α}
    (h : Apart same l) (a : α) : Apart same (l.setLast same a) := by
  induction l with
  | nil => exact pairwise_singleton _ a
  | cons b l ih =>
    have hb := (pairwise_cons.mp h).1
    have hl := (pairwise_cons.mp h).2
    rw [List.setLast]
    cases hs : same b a with
    | true =>
      rw [if_pos rfl]
      -- what stands behind is apart from `b`, and `a` is the same as `b`
      refine pairwise_cons.mpr ⟨fun c hc => ?_, hl⟩
      by_contra hac
      have hbc : same b c = true := trans b a c hs (by simpa using hac)
      exact absurd (hb c hc) (by simp [hbc])
    | false =>
      rw [if_neg Bool.false_ne_true]
      -- `b` stays, and is apart from what comes into the rest
      refine pairwise_cons.mpr ⟨fun c hc => ?_, ih hl⟩
      cases mem_setLast hc with
      | inl heq => exact heq ▸ hs
      | inr hmem => exact hb c hmem

/-- A table has no two records with one key. -/
theorem apart_lastWins (trans : ∀ a b c, same a b = true → same b c = true → same a c = true) (l : List α) :
    Apart same (l.lastWins same) := by
  have hrun : ∀ (l t : List α), Apart same t → Apart same (l.foldl (List.setLast same) t) := by
    intro l
    induction l with
    | nil => exact fun t ht => ht
    | cons a l ih => exact fun t ht => ih _ (ht.setLast trans a)
  exact hrun l [] Pairwise.nil

/-- In a table the record that answers a query is found. -/
theorem Apart.find?_eq (hq : OneKey same q) {l : List α} (h : Apart same l) {a : α} (ha : a ∈ l) (hqa : q a = true) :
    l.find? q = some a := by
  induction l with
  | nil => exact absurd ha not_mem_nil
  | cons b l ih =>
    have hb := (pairwise_cons.mp h).1
    have hl := (pairwise_cons.mp h).2
    cases hqb : q b with
    | true =>
      cases mem_cons.mp ha with
      | inl heq => rw [find?_cons_of_pos hqb, heq]
      | inr hmem =>
        -- a second record would have the key again
        have hsame : same b a = true := hq.same_of hqa hqb
        rw [hb a hmem] at hsame
        exact absurd hsame Bool.false_ne_true
    | false =>
      rw [find?_cons_of_neg (by simp [hqb])]
      cases mem_cons.mp ha with
      | inl heq =>
        rw [heq, hqb] at hqa
        exact absurd hqa Bool.false_ne_true
      | inr hmem => exact ih hl hmem

/-- A record with a new key goes to the end. -/
theorem setLast_of_new {l : List α} {a : α} (h : ∀ b ∈ l, same b a = false) : l.setLast same a = l ++ [a] := by
  induction l with
  | nil => rfl
  | cons b l ih =>
    rw [setLast, h b mem_cons_self, if_neg Bool.false_ne_true, ih fun c hc => h c (mem_cons_of_mem b hc),
      cons_append]

/-- **A table is what its records leave behind.** -/
theorem Apart.lastWins_eq {l : List α} (h : Apart same l) : l.lastWins same = l := by
  have hrun : ∀ (l t : List α), Apart same (t ++ l) → l.foldl (List.setLast same) t = t ++ l := by
    intro l
    induction l with
    | nil => exact fun t _ => (append_nil t).symm
    | cons a l ih =>
      intro t ht
      have hnew : ∀ b ∈ t, same b a = false := fun b hb => (pairwise_append.mp ht).2.2 b hb a mem_cons_self
      rw [foldl_cons, setLast_of_new hnew, ih _ (by rwa [append_assoc]), append_assoc, singleton_append]
  exact hrun l [] h

end List
