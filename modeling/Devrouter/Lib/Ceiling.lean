import Mathlib.Data.Finset.Card
import Devrouter.Lib.FirstBy

/-!
# Tables with a ceiling

A table takes entries in one after another. The first entry of a key stays, and a new key is let in while there are
fewer entries than the ceiling allows (`enter`, `enterAll`).

`Arrives` says which entries of a sequence are let in without speaking of the table: those with nothing of their key
in front of them, and fewer different keys in front of them than the ceiling. The table holds what arrives, and never
more entries than the ceiling, nor two of one key (`filled_enterAll`).
-/

namespace Ceiling

variable {α κ : Type} [DecidableEq κ] (key : α → κ) (cap : ℕ)

/-- One entry. -/
def enter (table : List α) (a : α) : List α :=
  if key a ∈ table.map key then table else if cap ≤ table.length then table else table ++ [a]

def enterAll (table l : List α) : List α := l.foldl (enter key cap) table

/-- The different keys of a sequence. -/
def keys (l : List α) : Finset κ := (l.map key).toFinset

/-- The entry comes in the sequence, as the first of its key, while fewer keys than the ceiling have come. -/
def Arrives (l : List α) (a : α) : Prop :=
  ∃ before after, l = before ++ a :: after ∧ key a ∉ before.map key ∧ (keys key before).card < cap

variable {key : α → κ} {cap : ℕ} {table l before after : List α} {a b : α}

theorem enterAll_append (l' : List α) :
    enterAll key cap table (l ++ l') = enterAll key cap (enterAll key cap table l) l' := List.foldl_append

/-- **The table holds the first entries of the keys**, as many as fit. -/
theorem enterAll_eq_take (hlen : table.length ≤ cap) :
    enterAll key cap table l = (table ++ l.firstBy key (table.map key)).take cap := by
  induction l generalizing table with
  | nil => rw [List.firstBy_nil, List.append_nil, List.take_of_length_le hlen]; rfl
  | cons a l ih =>
    have hstep : enterAll key cap table (a :: l) = enterAll key cap (enter key cap table a) l := rfl
    rw [hstep, List.firstBy_cons]
    unfold enter
    split_ifs with hseen hfull
    · exact ih hlen
    · -- the table is full, and stays as it is
      have heq : table.length = cap := Nat.le_antisymm hlen hfull
      rw [ih hlen, ← heq, List.take_left, List.take_left]
    · have hroom : (table ++ [a]).length ≤ cap := by
        rw [List.length_append, List.length_singleton]
        omega
      have hkeys : l.firstBy key ((table ++ [a]).map key) = l.firstBy key (key a :: table.map key) :=
        List.firstBy_congr fun b _ => by simp [or_comm]
      rw [ih hroom, hkeys, List.append_assoc, List.singleton_append]

/-! ### What arrives -/

theorem mem_keys {k : κ} : k ∈ keys key l ↔ k ∈ l.map key := List.mem_toFinset

theorem keys_snoc : keys key (l ++ [b]) = insert (key b) (keys key l) := by
  unfold keys
  rw [List.map_append, List.toFinset_append, List.map_cons, List.map_nil, List.toFinset_cons, List.toFinset_nil,
    Finset.union_insert, Finset.union_empty]

theorem card_keys_le : (keys key l).card ≤ l.length := by
  have h := List.toFinset_card_le (l.map key)
  rwa [List.length_map] at h

theorem Arrives.mem (h : Arrives key cap l a) : a ∈ l := by
  obtain ⟨before, after, rfl, -⟩ := h
  exact List.mem_append_right _ List.mem_cons_self

theorem not_arrives_nil : ¬ Arrives key cap [] a := fun h => absurd h.mem List.not_mem_nil

/-- The last entry changes nothing for those in front of it. -/
theorem arrives_snoc :
    Arrives key cap (l ++ [b]) a ↔
      Arrives key cap l a ∨ a = b ∧ key b ∉ l.map key ∧ (keys key l).card < cap := by
  constructor
  · rintro ⟨before, after, heq, hnew, hroom⟩
    rcases List.eq_nil_or_concat after with rfl | ⟨after, c, rfl⟩
    · obtain ⟨rfl, hlast⟩ := List.append_inj' heq rfl
      injection hlast with hab
      subst hab
      exact .inr ⟨rfl, hnew, hroom⟩
    · rw [List.concat_eq_append, ← List.cons_append, ← List.append_assoc] at heq
      exact .inl ⟨before, after, (List.append_inj' heq rfl).1, hnew, hroom⟩
  · rintro (⟨before, after, rfl, hnew, hroom⟩ | ⟨rfl, hnew, hroom⟩)
    · exact ⟨before, after ++ [b], by rw [List.append_assoc, List.cons_append], hnew, hroom⟩
    · exact ⟨l, [], rfl, hnew, hroom⟩

/-- There is one place where an entry can arrive. -/
theorem arrives_iff_of_first (hl : l = before ++ a :: after) (hnew : key a ∉ before.map key) :
    Arrives key cap l a ↔ (keys key before).card < cap := by
  refine ⟨?_, fun hroom => ⟨before, after, hl, hnew, hroom⟩⟩
  rintro ⟨before', after', hl', hnew', hroom⟩
  have heq := hl.symm.trans hl'
  rcases List.append_eq_append_iff.mp heq with ⟨mid, rfl, htail⟩ | ⟨mid, rfl, htail⟩
  · rcases mid with _ | ⟨c, mid⟩
    · rwa [List.append_nil] at hroom
    · -- the entry would stand in front of itself
      obtain ⟨rfl, -⟩ := List.cons.inj htail
      exact absurd (List.mem_map_of_mem (List.mem_append_right _ List.mem_cons_self)) hnew'
  · rcases mid with _ | ⟨c, mid⟩
    · rwa [List.append_nil]
    · obtain ⟨rfl, -⟩ := List.cons.inj htail
      exact absurd (List.mem_map_of_mem (List.mem_append_right _ List.mem_cons_self)) hnew

/-! ### The table -/

/-- What a table has become after a sequence. -/
structure Filled (key : α → κ) (cap : ℕ) (l table : List α) : Prop where
  nodup : (table.map key).Nodup
  length_le : table.length ≤ cap
  le_card : table.length ≤ (keys key l).card
  /-- While there is room, every key has been let in. -/
  complete : table.length < cap → ∀ k ∈ l.map key, k ∈ table.map key
  mem_iff : ∀ a, a ∈ table ↔ Arrives key cap l a

theorem filled_nil : Filled key cap [] [] where
  nodup := List.nodup_nil
  length_le := Nat.zero_le _
  le_card := Nat.zero_le _
  complete := fun _ _ h => h
  mem_iff := fun _ => ⟨fun h => absurd h List.not_mem_nil, fun h => absurd h not_arrives_nil⟩

/-- Fewer keys than the ceiling have come just when there is room. -/
theorem Filled.room_iff (h : Filled key cap l table) : (keys key l).card < cap ↔ table.length < cap := by
  refine ⟨fun hroom => lt_of_le_of_lt h.le_card hroom, fun hroom => ?_⟩
  have hsub : keys key l ⊆ keys key table := fun k hk => mem_keys.mpr (h.complete hroom k (mem_keys.mp hk))
  calc (keys key l).card ≤ (keys key table).card := Finset.card_le_card hsub
    _ ≤ table.length := card_keys_le
    _ < cap := hroom

/-- **One more entry.** -/
theorem Filled.snoc (h : Filled key cap l table) (b : α) :
    Filled key cap (l ++ [b]) (enter key cap table b) := by
  have hmono : (keys key l).card ≤ (keys key (l ++ [b])).card := by
    rw [keys_snoc]
    exact Finset.card_le_card (Finset.subset_insert _ _)
  unfold enter
  split_ifs with hold hfull
  · -- the key is there already
    have hseen : key b ∈ l.map key := by
      obtain ⟨c, hc, hkey⟩ := List.mem_map.mp hold
      exact hkey ▸ List.mem_map_of_mem ((h.mem_iff c).mp hc).mem
    refine ⟨h.nodup, h.length_le, h.le_card.trans hmono, fun hroom k hk => ?_, fun a => ?_⟩
    · rw [List.map_append] at hk
      rcases List.mem_append.mp hk with hk | hk
      · exact h.complete hroom k hk
      · exact List.mem_singleton.mp hk ▸ hold
    · rw [h.mem_iff, arrives_snoc]
      exact (or_iff_left fun hlast => hlast.2.1 hseen).symm
  · -- there is no room
    refine ⟨h.nodup, h.length_le, h.le_card.trans hmono, fun hroom => absurd hroom (not_lt.mpr hfull), fun a => ?_⟩
    rw [h.mem_iff, arrives_snoc]
    exact (or_iff_left fun hlast => absurd (h.room_iff.mp hlast.2.2) (not_lt.mpr hfull)).symm
  · -- a new key that still fits
    have hroom := not_le.mp hfull
    -- below the ceiling the table holds every key that has come, so one it does not hold is new
    have hnew : key b ∉ l.map key := fun hseen => hold (h.complete hroom _ hseen)
    refine ⟨?_, ?_, ?_, fun _ k hk => ?_, fun a => ?_⟩
    · rw [List.map_append, List.nodup_append]
      refine ⟨h.nodup, List.nodup_singleton _, fun c hc d hd => ?_⟩
      rintro rfl
      exact hold (List.mem_singleton.mp hd ▸ hc)
    · rw [List.length_append]
      exact hroom
    · rw [List.length_append, List.length_singleton, keys_snoc,
        Finset.card_insert_of_notMem fun hk => hnew (mem_keys.mp hk)]
      exact Nat.succ_le_succ h.le_card
    · rw [List.map_append] at hk ⊢
      rcases List.mem_append.mp hk with hk | hk
      · exact List.mem_append_left _ (h.complete hroom k hk)
      · exact List.mem_append_right _ hk
    · rw [List.mem_append, List.mem_singleton, h.mem_iff, arrives_snoc]
      exact or_congr_right ⟨fun hab => ⟨hab, hnew, h.room_iff.mpr hroom⟩, fun hlast => hlast.1⟩

/-- **A whole sequence.** -/
theorem filled_enterAll (l : List α) : Filled key cap l (enterAll key cap [] l) := by
  induction l using List.reverseRecOn with
  | nil => exact filled_nil
  | append_singleton l b ih =>
    rw [enterAll_append]
    exact ih.snoc b

end Ceiling
