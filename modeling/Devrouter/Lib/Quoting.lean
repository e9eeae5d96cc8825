import Mathlib.Data.List.Flatten
import Mathlib.Tactic.Common

/-!
# Groups of quoted items

The text of a group is its items with a separator between any two of them and a closing mark behind the last one. An
escaping mark stands before a symbol that is taken as it is. `group` reads the group a text starts with; `Spells` says
what a text reads as when it is closed, whatever follows it, and has one rule for each kind of symbol.

`escape E` writes the escaping mark before the symbols of `E`. When no mark is among these it protects only part of the
texts: an escaped text spells itself exactly when it is `Kept` (`spells_escape_iff`). The reason is that no escaped text
reads as a longer one, and that reading it loses a symbol at every escaping mark the text itself has, unless a symbol of
`E` follows it.
-/

namespace Quoting

/-- The symbols with a meaning in a group. -/
structure Marks (α : Type) where
  esc : α
  sep : α
  close : α
  sep_ne_esc : sep ≠ esc
  close_ne_esc : close ≠ esc
  close_ne_sep : close ≠ sep

/-- A group that was read: its first item, the others, and the text behind the closing mark. -/
structure Reading (α : Type) where
  first : List α
  others : List (List α)
  after : List α
  deriving DecidableEq, Repr

namespace Reading

variable {α : Type}

def items (g : Reading α) : List (List α) := g.first :: g.others

/-- One more symbol in front of the first item. -/
def push (c : α) (g : Reading α) : Reading α := { g with first := c :: g.first }

/-- An empty item in front of the others. -/
def cut (g : Reading α) : Reading α := ⟨[], g.first :: g.others, g.after⟩

end Reading

namespace Marks

variable {α : Type} [DecidableEq α] (M : Marks α)

/-- Read a group, up to its closing mark. -/
def group : List α → Option (Reading α)
  | [] => none
  | c :: text =>
    if c = M.esc then
      match text with
      | [] => none
      | d :: text => (group text).map (Reading.push d)
    else if c = M.close then some ⟨[], [], text⟩
    else if c = M.sep then (group text).map Reading.cut
    else (group text).map (Reading.push c)

/-- A symbol without a meaning. -/
def Plain (c : α) : Prop := c ≠ M.esc ∧ c ≠ M.sep ∧ c ≠ M.close

instance (c : α) : Decidable (M.Plain c) := inferInstanceAs (Decidable (_ ∧ _))

/-- **Spelling.** Closed, the text reads as these items. -/
def Spells (body first : List α) (others : List (List α)) : Prop :=
  ∀ rest, M.group (body ++ M.close :: rest) = some ⟨first, others, rest⟩

/-- The escaping mark before every symbol of `E`. -/
def escape (E : α → Bool) (s : List α) : List α := s.flatMap fun c => if E c then [M.esc, c] else [c]

/-- There is no separator and no closing mark, and behind every escaping mark comes a symbol of `E`. -/
def Kept (E : α → Bool) : List α → Prop
  | [] => True
  | c :: s => c ≠ M.sep ∧ c ≠ M.close ∧ (c = M.esc → s.head?.any E = true) ∧ Kept E s

instance decidableKept (E : α → Bool) : (s : List α) → Decidable (M.Kept E s)
  | [] => .isTrue trivial
  | c :: s =>
    haveI := decidableKept E s
    inferInstanceAs (Decidable (c ≠ M.sep ∧ c ≠ M.close ∧ (c = M.esc → s.head?.any E = true) ∧ M.Kept E s))

variable {M} {c : α} {text body first : List α} {others : List (List α)}

/-! ### Reading symbol by symbol -/

theorem group_esc (d : α) : M.group (M.esc :: d :: text) = (M.group text).map (Reading.push d) := by
  rw [group.eq_def]
  exact if_pos rfl

theorem group_close : M.group (M.close :: text) = some ⟨[], [], text⟩ := by
  rw [group.eq_def]
  exact (if_neg M.close_ne_esc).trans (if_pos rfl)

theorem group_sep : M.group (M.sep :: text) = (M.group text).map Reading.cut := by
  rw [group.eq_def]
  exact (if_neg M.sep_ne_esc).trans ((if_neg M.close_ne_sep.symm).trans (if_pos rfl))

theorem group_plain (hc : M.Plain c) : M.group (c :: text) = (M.group text).map (Reading.push c) := by
  rw [group.eq_def]
  exact (if_neg hc.1).trans ((if_neg hc.2.2).trans (if_neg hc.2.1))

/-! ### The rules of spelling -/

theorem spells_nil_iff : M.Spells [] first others ↔ first = [] ∧ others = [] := by
  unfold Spells
  simp only [List.nil_append, group_close, Option.some.injEq, Reading.mk.injEq, and_true]
  constructor
  · intro h
    exact ⟨(h []).1.symm, (h []).2.symm⟩
  · rintro ⟨rfl, rfl⟩ rest
    exact ⟨rfl, rfl⟩

/-- A symbol that is read into the first item. -/
theorem spells_push_iff (start : List α)
    (hread : ∀ text, M.group (start ++ text) = (M.group text).map (Reading.push c)) :
    M.Spells (start ++ body) first others ↔ ∃ tail, first = c :: tail ∧ M.Spells body tail others := by
  unfold Spells
  simp only [List.append_assoc, hread, Option.map_eq_some_iff]
  constructor
  · intro h
    have htail : ∀ rest,
        ∃ tail, first = c :: tail ∧ M.group (body ++ M.close :: rest) = some ⟨tail, others, rest⟩ := by
      intro rest
      obtain ⟨⟨f, o, a⟩, hg, heq⟩ := h rest
      obtain ⟨rfl, rfl, rfl⟩ := Reading.mk.inj heq
      exact ⟨f, rfl, hg⟩
    -- the field that is read does not depend on the text behind
    obtain ⟨tail, hfirst, -⟩ := htail []
    refine ⟨tail, hfirst, ?_⟩
    intro rest
    obtain ⟨tail', hfirst', hg⟩ := htail rest
    obtain rfl : tail = tail' := (List.cons.inj (hfirst.symm.trans hfirst')).2
    exact hg
  · rintro ⟨tail, rfl, h⟩ rest
    exact ⟨_, h rest, rfl⟩

theorem spells_plain_iff (hc : M.Plain c) :
    M.Spells (c :: body) first others ↔ ∃ tail, first = c :: tail ∧ M.Spells body tail others :=
  spells_push_iff [c] fun _ => group_plain hc

/-- Behind an escaping mark any symbol is read as it is. -/
theorem spells_esc_iff (d : α) :
    M.Spells (M.esc :: d :: body) first others ↔ ∃ tail, first = d :: tail ∧ M.Spells body tail others :=
  spells_push_iff [M.esc, d] fun _ => group_esc d

theorem spells_sep_iff :
    M.Spells (M.sep :: body) first others ↔ ∃ f o, first = [] ∧ others = f :: o ∧ M.Spells body f o := by
  unfold Spells
  simp only [List.cons_append, group_sep, Option.map_eq_some_iff]
  constructor
  · intro h
    have hnext : ∀ rest,
        ∃ f o, first = [] ∧ others = f :: o ∧ M.group (body ++ M.close :: rest) = some ⟨f, o, rest⟩ := by
      intro rest
      obtain ⟨⟨f, o, a⟩, hg, heq⟩ := h rest
      obtain ⟨rfl, rfl, rfl⟩ := Reading.mk.inj heq
      exact ⟨f, o, rfl, rfl, hg⟩
    -- the field that is read does not depend on the text behind
    obtain ⟨f, o, hfirst, hothers, -⟩ := hnext []
    refine ⟨f, o, hfirst, hothers, ?_⟩
    intro rest
    obtain ⟨f', o', -, hothers', hg⟩ := hnext rest
    obtain ⟨rfl, rfl⟩ := List.cons.inj (hothers.symm.trans hothers')
    exact hg
  · rintro ⟨f, o, rfl, rfl, h⟩ rest
    exact ⟨_, h rest, rfl⟩

/-- The group ends at the mark, and not where the text ends. -/
theorem not_spells_close : ¬ M.Spells (M.close :: body) first others := by
  intro h
  have heq := h []
  rw [List.cons_append, group_close] at heq
  have hafter := (Reading.mk.inj (Option.some.inj heq)).2.2
  simp at hafter

/-- An escaping mark at the end hides the closing mark. -/
theorem not_spells_esc : ¬ M.Spells [M.esc] first others := by
  intro h
  have heq := h []
  rw [List.cons_append, List.nil_append, group_esc] at heq
  simp [group] at heq

/-- Plain symbols in front are the start of the first item. -/
theorem Spells.plain_append (h : M.Spells body first others) {s : List α} (hs : ∀ c ∈ s, M.Plain c) :
    M.Spells (s ++ body) (s ++ first) others := by
  induction s with
  | nil => exact h
  | cons c s ih =>
    obtain ⟨hc, hrest⟩ := List.forall_mem_cons.mp hs
    exact (spells_plain_iff hc).mpr ⟨s ++ first, rfl, ih hrest⟩

/-- An item in front of the others. -/
theorem Spells.sep_cons (h : M.Spells body first others) : M.Spells (M.sep :: body) [] (first :: others) :=
  spells_sep_iff.mpr ⟨first, others, rfl, rfl, h⟩

/-! ### Escaped texts -/

section Escape

variable {E : α → Bool} {s : List α}

omit [DecidableEq α] in
@[simp] theorem escape_nil : M.escape E [] = [] := rfl

omit [DecidableEq α] in
theorem escape_of_mem (hc : E c = true) : M.escape E (c :: s) = M.esc :: c :: M.escape E s := by
  simp [escape, hc]

omit [DecidableEq α] in
theorem escape_of_notMem (hc : E c ≠ true) : M.escape E (c :: s) = c :: M.escape E s := by
  simp [escape, hc]

/-- Before a plain symbol the escaping mark makes no difference. -/
theorem spells_escape_cons_iff (hc : M.Plain c) :
    M.Spells (M.escape E (c :: s) ++ body) first others ↔
      ∃ tail, first = c :: tail ∧ M.Spells (M.escape E s ++ body) tail others := by
  by_cases hmem : E c = true
  · rw [escape_of_mem hmem]
    exact spells_esc_iff c
  · rw [escape_of_notMem hmem]
    exact spells_plain_iff hc

variable (hE : ∀ c, E c = true → M.Plain c)

include hE

/-- An escaping mark of the text itself takes the escaping mark of the symbol of `E` behind it for an item's symbol. -/
theorem spells_esc_escape_iff {d : α} (hd : E d = true) :
    M.Spells (M.escape E (M.esc :: d :: s) ++ body) first others ↔
      ∃ tail, first = M.esc :: d :: tail ∧ M.Spells (M.escape E s ++ body) tail others := by
  have hesc : E M.esc ≠ true := fun h => (hE _ h).1 rfl
  rw [escape_of_notMem hesc, escape_of_mem hd, List.cons_append, List.cons_append, List.cons_append, spells_esc_iff]
  simp only [spells_plain_iff (hE d hd)]
  constructor
  · rintro ⟨_, rfl, tail, rfl, h⟩
    exact ⟨tail, rfl, h⟩
  · rintro ⟨tail, rfl, h⟩
    exact ⟨_, rfl, tail, rfl, h⟩

/-- A kept text in front is the start of the first item. -/
theorem Kept.spells_append (h : M.Spells body first others) :
    ∀ {s : List α}, M.Kept E s → M.Spells (M.escape E s ++ body) (s ++ first) others
  | [], _ => h
  | c :: s, ⟨hsep, hclose, hesc, hs⟩ => by
    by_cases hc : c = M.esc
    · subst hc
      cases s with
      | nil => exact absurd (hesc rfl) (by simp)
      | cons d s =>
        have hd : E d = true := by simpa using hesc rfl
        exact (spells_esc_escape_iff hE hd).mpr ⟨s ++ first, rfl, hs.2.2.2.spells_append h⟩
    · exact (spells_escape_cons_iff ⟨hc, hsep, hclose⟩).mpr ⟨s ++ first, rfl, hs.spells_append h⟩

/-- **What an escaped text reads as is no longer than it**, separators counted, and a single item is as long only if the
text is kept. -/
theorem length_le_of_spells : ∀ {s first : List α} {others : List (List α)},
    M.Spells (M.escape E s ++ []) first others → first.length + others.flatten.length + others.length ≤ s.length ∧
      (first.length = s.length → M.Kept E s)
  | [], _, _, h => by
    obtain ⟨rfl, rfl⟩ := spells_nil_iff.mp h
    exact ⟨Nat.le_refl _, fun _ => trivial⟩
  | c :: s, first, others, h => by
    by_cases hplain : M.Plain c
    · -- a plain element spells itself
      obtain ⟨tail, rfl, htail⟩ := (spells_escape_cons_iff hplain).mp h
      obtain ⟨hle, hkept⟩ := length_le_of_spells htail
      refine ⟨by simp only [List.length_cons]; omega, ?_⟩
      intro hlen
      exact ⟨hplain.2.1, hplain.2.2, fun hc => absurd hc hplain.1, hkept (Nat.succ.inj hlen)⟩
    · have hmem : E c ≠ true := fun hmem => hplain (hE c hmem)
      by_cases hc : c = M.esc
      · subst hc
        cases s with
        | nil =>
          -- a mark at the end would take the closing one with it
          rw [escape_of_notMem hmem] at h
          exact absurd h not_spells_esc
        | cons d s =>
          by_cases hd : E d = true
          · -- the mark and the element behind it are both kept
            obtain ⟨tail, rfl, htail⟩ := (spells_esc_escape_iff hE hd).mp h
            obtain ⟨hle, hkept⟩ := length_le_of_spells htail
            refine ⟨by simp only [List.length_cons]; omega, ?_⟩
            intro hlen
            have hs := hkept (Nat.succ.inj (Nat.succ.inj hlen))
            have hdplain := hE d hd
            exact ⟨M.sep_ne_esc.symm, M.close_ne_esc.symm, fun _ => by simpa using hd,
              hdplain.2.1, hdplain.2.2, fun hc => absurd hc hdplain.1, hs⟩
          · -- the mark is lost, so what is read is shorter
            rw [escape_of_notMem hmem, escape_of_notMem hd] at h
            obtain ⟨tail, rfl, htail⟩ := (spells_esc_iff d).mp h
            have hle := (length_le_of_spells htail).1
            refine ⟨by simp only [List.length_cons]; omega, ?_⟩
            intro hlen
            simp only [List.length_cons] at hlen
            omega
      · rw [escape_of_notMem hmem] at h
        by_cases hsep : c = M.sep
        · subst hsep
          -- a separator ends the field, so the field is shorter
          obtain ⟨f, o, rfl, rfl, hrest⟩ := spells_sep_iff.mp h
          have hle := (length_le_of_spells hrest).1
          refine ⟨by simp only [List.flatten_cons, List.length_append, List.length_cons, List.length_nil]; omega, ?_⟩
          intro hlen
          exact absurd hlen (by simp)
        · obtain rfl : c = M.close := by
            by_contra hclose
            exact hplain ⟨hc, hsep, hclose⟩
          exact absurd h not_spells_close

/-- **Which texts the escaping protects.** -/
theorem spells_escape_iff : M.Spells (M.escape E s) s [] ↔ M.Kept E s := by
  rw [← List.append_nil (M.escape E s)]
  constructor
  · intro h
    exact (length_le_of_spells hE h).2 rfl
  · intro h
    have hread := h.spells_append hE (spells_nil_iff.mpr ⟨rfl, rfl⟩)
    rwa [List.append_nil s] at hread

/-- A text that is not kept reads as other items only. -/
theorem ne_of_spells (h : M.Spells (M.escape E s) first others) (hs : ¬ M.Kept E s) : s ∉ first :: others := by
  rw [← List.append_nil (M.escape E s)] at h
  obtain ⟨hle, hkept⟩ := length_le_of_spells hE h
  intro hmem
  rcases List.mem_cons.mp hmem with rfl | hmem
  · exact hs (hkept rfl)
  · have hflat : s.length ≤ others.flatten.length := (List.sublist_flatten_of_mem hmem).length_le
    have hothers : 0 < others.length := List.length_pos_of_mem hmem
    omega

end Escape

end Marks

end Quoting
