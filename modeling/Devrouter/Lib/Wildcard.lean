import Mathlib.Data.List.Forall2
import Mathlib.Data.List.Infix
import Mathlib.Tactic.Common

/-!
# Patterns with wildcards

A pattern is a list of elements: a letter, which stands for the letters that are the same by some relation, a place for
one letter, and a place for any text. `accepts` is the matcher; `Fills` says how a text comes out of a pattern by filling
its places, and the two agree (`accepts_iff`).

Between two places for any text it is a part of the text that fills the rest (`fills_surrounded_iff`).
-/

namespace Wildcard

inductive Elem (α : Type)
  | lit (a : α)
  | one
  | many
  deriving DecidableEq

variable {α : Type} (same : α → α → Bool)

def accepts : List (Elem α) → List α → Bool
  | [], s => s.isEmpty
  | .lit _ :: _, [] => false
  | .lit a :: p, b :: s => same a b && accepts p s
  | .one :: _, [] => false
  | .one :: p, _ :: s => accepts p s
  | .many :: p, s => s.tails.any fun t => accepts p t

/-- **Filling** the places of a pattern. -/
inductive Fills : List (Elem α) → List α → Prop
  | nil : Fills [] []
  | lit {a b : α} {p : List (Elem α)} {s : List α} (h : same a b = true) : Fills p s → Fills (.lit a :: p) (b :: s)
  | one (b : α) {p : List (Elem α)} {s : List α} : Fills p s → Fills (.one :: p) (b :: s)
  | many (v : List α) {p : List (Elem α)} {s : List α} : Fills p s → Fills (.many :: p) (v ++ s)

variable {same} {p q : List (Elem α)} {s : List α} {a : α}

@[simp] theorem fills_nil_iff : Fills same [] s ↔ s = [] := by
  constructor
  · intro h
    cases h
    rfl
  · rintro rfl
    exact .nil

theorem fills_lit_iff : Fills same (.lit a :: p) s ↔ ∃ b t, s = b :: t ∧ same a b = true ∧ Fills same p t := by
  constructor
  · intro h
    cases h with
    | lit hsame hrest => exact ⟨_, _, rfl, hsame, hrest⟩
  · rintro ⟨b, t, rfl, hsame, hrest⟩
    exact .lit hsame hrest

theorem fills_one_iff : Fills same (.one :: p) s ↔ ∃ b t, s = b :: t ∧ Fills same p t := by
  constructor
  · intro h
    cases h with
    | one b hrest => exact ⟨b, _, rfl, hrest⟩
  · rintro ⟨b, t, rfl, hrest⟩
    exact .one b hrest

/-- What comes last fills the rest. -/
theorem fills_many_iff : Fills same (.many :: p) s ↔ ∃ t, t <:+ s ∧ Fills same p t := by
  constructor
  · intro h
    cases h with
    | many v hrest => exact ⟨_, List.suffix_append _ _, hrest⟩
  · rintro ⟨t, ⟨v, rfl⟩, hrest⟩
    exact .many v hrest

/-- **The matcher** accepts what fills the pattern. -/
theorem accepts_iff : accepts same p s = true ↔ Fills same p s := by
  induction p generalizing s with
  | nil => rw [accepts, List.isEmpty_iff, fills_nil_iff]
  | cons e p ih =>
    cases e with
    | lit a =>
      rw [fills_lit_iff]
      cases s with
      | nil => simp [accepts]
      | cons b s => simp [accepts, ih]
    | one =>
      rw [fills_one_iff]
      cases s with
      | nil => simp [accepts]
      | cons b s => simp [accepts, ih]
    | many => simp [accepts, fills_many_iff, ih, List.mem_tails]

/-- Two patterns in a row are filled one after the other. -/
theorem fills_append_iff : Fills same (p ++ q) s ↔ ∃ u v, s = u ++ v ∧ Fills same p u ∧ Fills same q v := by
  induction p generalizing s with
  | nil => simp
  | cons e p ih =>
    rw [List.cons_append]
    cases e with
    | lit a =>
      -- a letter takes one rune that is the same
      simp only [fills_lit_iff, ih]
      constructor
      · rintro ⟨b, t, rfl, hsame, u, v, rfl, hu, hv⟩
        exact ⟨b :: u, v, rfl, ⟨b, u, rfl, hsame, hu⟩, hv⟩
      · rintro ⟨u', v, rfl, ⟨b, u, rfl, hsame, hu⟩, hv⟩
        exact ⟨b, u ++ v, rfl, hsame, u, v, rfl, hu, hv⟩
    | one =>
      -- a `?` takes any rune
      simp only [fills_one_iff, ih]
      constructor
      · rintro ⟨b, t, rfl, u, v, rfl, hu, hv⟩
        exact ⟨b :: u, v, rfl, ⟨b, u, rfl, hu⟩, hv⟩
      · rintro ⟨u', v, rfl, ⟨b, u, rfl, hu⟩, hv⟩
        exact ⟨b, u ++ v, rfl, u, v, rfl, hu, hv⟩
    | many =>
      -- a `*` takes a part that ends anywhere
      simp only [fills_many_iff, ih]
      constructor
      · rintro ⟨t, ⟨w, rfl⟩, u, v, rfl, hu, hv⟩
        exact ⟨w ++ u, v, (List.append_assoc ..).symm, ⟨u, List.suffix_append _ _, hu⟩, hv⟩
      · rintro ⟨u', v, rfl, ⟨u, ⟨w, rfl⟩, hu⟩, hv⟩
        exact ⟨u ++ v, ⟨w, (List.append_assoc ..).symm⟩, u, v, rfl, hu, hv⟩

/-- What comes first fills a pattern before a place for any text. -/
theorem fills_then_many_iff : Fills same (p ++ [.many]) s ↔ ∃ u, u <+: s ∧ Fills same p u := by
  rw [fills_append_iff]
  constructor
  · rintro ⟨u, v, rfl, hu, -⟩
    exact ⟨u, List.prefix_append _ _, hu⟩
  · rintro ⟨u, ⟨v, rfl⟩, hu⟩
    exact ⟨u, v, rfl, hu, fills_many_iff.mpr ⟨[], List.nil_suffix, .nil⟩⟩

/-- **Containing.** Between two places for any text it is a part of the text that fills the pattern. -/
theorem fills_surrounded_iff : Fills same (.many :: (p ++ [.many])) s ↔ ∃ u, u <:+: s ∧ Fills same p u := by
  rw [fills_many_iff]
  constructor
  · rintro ⟨t, hsuffix, ht⟩
    obtain ⟨u, hprefix, hu⟩ := fills_then_many_iff.mp ht
    exact ⟨u, hprefix.isInfix.trans hsuffix.isInfix, hu⟩
  · rintro ⟨u, ⟨v, w, rfl⟩, hu⟩
    exact ⟨u ++ w, ⟨v, (List.append_assoc ..).symm⟩, fills_then_many_iff.mpr ⟨u, List.prefix_append _ _, hu⟩⟩

end Wildcard
