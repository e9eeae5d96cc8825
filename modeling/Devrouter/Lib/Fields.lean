import Mathlib.Data.List.Basic
import Mathlib.Data.List.TakeWhile

/-!
# Names joined by a separator

Keys are often built by joining names with a separator character. Two such keys can be told apart
when the names around the separator do not contain it: `List.append_sep_inj` reads the field before
the first separator back, `List.append_sep_inj_right` the field after the last one. The `String`
forms below are the ones a key made of `++` needs.
-/

namespace List

variable {α : Type} {c : α}

/-- The field before the first separator. -/
theorem append_sep_inj : ∀ {x₁ x₂ z₁ z₂ : List α}, c ∉ x₁ → c ∉ x₂ →
    (x₁ ++ c :: z₁ = x₂ ++ c :: z₂ ↔ x₁ = x₂ ∧ z₁ = z₂)
  | [], [], _, _, _, _ => by simp
  | [], b :: _, _, _, _, h₂ => by
    have hb : c ≠ b := fun h => h₂ (h ▸ mem_cons_self)
    simp [hb]
  | a :: _, [], _, _, h₁, _ => by
    have ha : a ≠ c := fun h => h₁ (h ▸ mem_cons_self)
    simp [ha]
  | a :: x₁, b :: x₂, z₁, z₂, h₁, h₂ => by
    have h₁' : c ∉ x₁ := fun h => h₁ (mem_cons_of_mem _ h)
    have h₂' : c ∉ x₂ := fun h => h₂ (mem_cons_of_mem _ h)
    simp only [cons_append, cons.injEq, append_sep_inj h₁' h₂', and_assoc]

/-- The field after the last separator. -/
theorem append_sep_inj_right {x₁ x₂ z₁ z₂ : List α} (h₁ : c ∉ z₁) (h₂ : c ∉ z₂) :
    x₁ ++ c :: z₁ = x₂ ++ c :: z₂ ↔ x₁ = x₂ ∧ z₁ = z₂ := by
  -- read from the right, the last separator is the first
  have h₁' : c ∉ z₁.reverse := by simpa using h₁
  have h₂' : c ∉ z₂.reverse := by simpa using h₂
  have h : z₁.reverse ++ c :: x₁.reverse = z₂.reverse ++ c :: x₂.reverse ↔
      z₁.reverse = z₂.reverse ∧ x₁.reverse = x₂.reverse := append_sep_inj h₁' h₂'
  rw [← reverse_inj]
  simp only [reverse_append, reverse_cons, append_assoc, cons_append, nil_append] at h ⊢
  rw [h, reverse_inj, reverse_inj, and_comm]

/-- Two joined texts that run together to one are split at the same place, or the separator of each stands in a part of
the other. -/
theorem append_sep_eq_iff {x x' z z' : List α} : x ++ c :: z = x' ++ c :: z' ↔
    (x = x' ∧ z = z') ∨ (∃ w, x' = x ++ c :: w ∧ z = w ++ c :: z') ∨ ∃ w, x = x' ++ c :: w ∧ z' = w ++ c :: z := by
  rw [append_eq_append_iff]
  constructor
  · -- one of the two leading fields is longer; where the first separator stands tells which
    rintro (⟨w, rfl, heq⟩ | ⟨w, rfl, heq⟩)
    · cases w with
      | nil =>
        -- both fields end together
        rw [append_nil]
        exact .inl ⟨rfl, (cons.inj heq).2⟩
      | cons b w =>
        -- the separator of the left text lies in the right text's first field
        obtain ⟨rfl, htail⟩ := cons.inj heq
        exact .inr (.inl ⟨w, rfl, htail⟩)
    · cases w with
      | nil =>
        rw [append_nil]
        exact .inl ⟨rfl, (cons.inj heq).2.symm⟩
      | cons b w =>
        obtain ⟨rfl, htail⟩ := cons.inj heq
        exact .inr (.inr ⟨w, rfl, htail⟩)
  · rintro (⟨rfl, rfl⟩ | ⟨w, rfl, rfl⟩ | ⟨w, rfl, rfl⟩)
    · exact .inl ⟨[], (append_nil x).symm, rfl⟩
    · exact .inl ⟨c :: w, rfl, rfl⟩
    · exact .inr ⟨c :: w, rfl, rfl⟩

/-- What stands before and after the first separator; nothing without one. -/
def cutAt [DecidableEq α] (c : α) (l : List α) : Option (List α × List α) :=
  match l.dropWhile (· ≠ c) with
  | [] => none
  | _ :: z => some (l.takeWhile (· ≠ c), z)

/-- **What was joined is cut again**, and nothing else. -/
theorem cutAt_eq_some_iff [DecidableEq α] {l x z : List α} :
    l.cutAt c = some (x, z) ↔ c ∉ x ∧ l = x ++ c :: z := by
  constructor
  · intro h
    unfold cutAt at h
    split at h
    · exact nomatch h
    · rename_i d z' hdrop
      obtain ⟨rfl, rfl⟩ := Prod.mk.inj (Option.some.inj h)
      refine ⟨fun hmem => ?_, ?_⟩
      · simpa using List.mem_takeWhile_imp hmem
      · -- what the search stops at is the separator
        have hstop := List.head?_dropWhile_not (fun a => decide (a ≠ c)) l
        rw [hdrop] at hstop
        obtain rfl : d = c := by simpa using hstop
        rw [← hdrop, List.takeWhile_append_dropWhile]
  · rintro ⟨hc, rfl⟩
    have hall : ∀ a ∈ x, decide (a ≠ c) = true := fun a ha => decide_eq_true fun hac => hc (hac ▸ ha)
    -- the search runs over the whole of `x` and stops at the separator behind it
    unfold cutAt
    rw [List.dropWhile_append_of_pos hall, List.takeWhile_append_of_pos hall]
    simp

end List

namespace String

variable {x₁ x₂ z₁ z₂ : String} {sep : String} {c : Char}

/-- The field before the first separator. -/
theorem append_sep_inj (hs : sep.toList = [c]) (h₁ : c ∉ x₁.toList) (h₂ : c ∉ x₂.toList) :
    x₁ ++ sep ++ z₁ = x₂ ++ sep ++ z₂ ↔ x₁ = x₂ ∧ z₁ = z₂ := by
  simp only [← toList_inj, toList_append, hs, List.append_assoc, List.cons_append, List.nil_append]
  exact List.append_sep_inj h₁ h₂

/-- The field after the last separator. -/
theorem append_sep_inj_right (hs : sep.toList = [c]) (h₁ : c ∉ z₁.toList) (h₂ : c ∉ z₂.toList) :
    x₁ ++ sep ++ z₁ = x₂ ++ sep ++ z₂ ↔ x₁ = x₂ ∧ z₁ = z₂ := by
  simp only [← toList_inj, toList_append, hs, List.append_assoc, List.cons_append, List.nil_append]
  exact List.append_sep_inj_right h₁ h₂

/-- The separator of the second stands in the first field of it, and that of the first in its second field. -/
def Straddles (sep x z x' z' : String) : Prop := ∃ w, x' = x ++ sep ++ w ∧ z = w ++ sep ++ z'

/-- Two joined pairs run together to one text when they are the same, or one straddles the other. -/
theorem append_sep_eq_iff (hs : sep.toList = [c]) : x₁ ++ sep ++ z₁ = x₂ ++ sep ++ z₂ ↔
    (x₁ = x₂ ∧ z₁ = z₂) ∨ Straddles sep x₁ z₁ x₂ z₂ ∨ Straddles sep x₂ z₂ x₁ z₁ := by
  have hstraddles : ∀ {x z x' z' : String}, Straddles sep x z x' z' ↔
      ∃ w : List Char, x'.toList = x.toList ++ c :: w ∧ z.toList = w ++ c :: z'.toList := by
    intro x z x' z'
    unfold Straddles
    simp only [← toList_inj, toList_append, hs, List.append_assoc, List.cons_append, List.nil_append]
    constructor
    · rintro ⟨w, h⟩
      exact ⟨w.toList, h⟩
    · rintro ⟨w, h⟩
      exact ⟨ofList w, by rwa [toList_ofList]⟩
  rw [hstraddles, hstraddles]
  simp only [← toList_inj, toList_append, hs, List.append_assoc, List.cons_append, List.nil_append]
  exact List.append_sep_eq_iff

/-- Who straddles is not the same. -/
theorem Straddles.ne (hs : sep.toList = [c]) (h : Straddles sep x₁ z₁ x₂ z₂) : x₁ ≠ x₂ := by
  obtain ⟨w, rfl, -⟩ := h
  intro heq
  have hlen := congrArg (fun s : String => s.toList.length) heq
  simp [hs] at hlen

/-- `strings.Cut`: what stands before and after the first separator character. -/
def cutAt (c : Char) (s : String) : Option (String × String) :=
  (s.toList.cutAt c).map fun p => (ofList p.1, ofList p.2)

theorem cutAt_eq_some_iff (hs : sep.toList = [c]) {s x z : String} :
    s.cutAt c = some (x, z) ↔ c ∉ x.toList ∧ s = x ++ sep ++ z := by
  unfold cutAt
  rw [Option.map_eq_some_iff]
  simp only [← toList_inj, toList_append, hs, List.append_assoc, List.cons_append, List.nil_append]
  constructor
  · rintro ⟨⟨x', z'⟩, h, heq⟩
    obtain ⟨rfl, rfl⟩ := Prod.mk.inj heq
    rw [toList_ofList, toList_ofList]
    exact List.cutAt_eq_some_iff.mp h
  · intro h
    exact ⟨(x.toList, z.toList), List.cutAt_eq_some_iff.mpr h, by rw [ofList_toList, ofList_toList]⟩

/-- Joined names that do not contain the separator are split again. -/
theorem splitOn_intercalate_sep (hs : sep.toList = [c]) {xs : List String} (h : ∀ x ∈ xs, c ∉ x.toList)
    (hne : xs ≠ []) : ((sep.intercalate xs).toList.splitOn c).map ofList = xs := by
  have hlists : ∀ l ∈ xs.map toList, c ∉ l := by
    intro l hl
    obtain ⟨x, hx, rfl⟩ := List.mem_map.mp hl
    exact h x hx
  rw [toList_intercalate, hs, List.splitOn_intercalate c hlists (by simpa using hne), List.map_map]
  exact (List.map_congr_left fun x _ => ofList_toList).trans (List.map_id xs)

end String
