import Mathlib.Order.Basic
import Mathlib.Tactic.Common

/-!
# Loops that thread a state

`Sweep.loop f as` runs `f` on the elements of a list one after the other, with a state threaded through, and collects
what it returns. When each step can only add to the state, a loop leaves the state alone exactly when each of its
steps does (`Sweep.loop_eq_self_iff`): what an earlier step added is not taken back by a later one.
-/

namespace Sweep

variable {S α β : Type}

def loop (f : α → S → β × S) : List α → S → List β × S
  | [], s => ([], s)
  | a :: as, s => ((f a s).1 :: (loop f as (f a s).2).1, (loop f as (f a s).2).2)

variable {f : α → S → β × S}

@[simp] theorem loop_nil (s : S) : loop f [] s = ([], s) := rfl

theorem loop_cons (a : α) (as : List α) (s : S) :
    loop f (a :: as) s = ((f a s).1 :: (loop f as (f a s).2).1, (loop f as (f a s).2).2) := rfl

/-- A loop of steps that add to the state adds to it. -/
theorem le_loop [Preorder S] (hf : ∀ a s, s ≤ (f a s).2) (as : List α) (s : S) : s ≤ (loop f as s).2 := by
  induction as generalizing s with
  | nil => exact le_refl s
  | cons a as ih =>
    calc
      s ≤ (f a s).2 := hf a s
      _ ≤ (loop f as (f a s).2).2 := ih (f a s).2

/-- What a loop returns for an element is what its step returns on some later state. -/
theorem exists_of_mem_loop [Preorder S] (hf : ∀ a s, s ≤ (f a s).2) {as : List α} {s : S} {b : β}
    (h : b ∈ (loop f as s).1) : ∃ a ∈ as, ∃ s', s ≤ s' ∧ b = (f a s').1 := by
  induction as generalizing s with
  | nil => cases h
  | cons a as ih =>
    rw [loop_cons, List.mem_cons] at h
    rcases h with rfl | h
    · exact ⟨a, List.mem_cons_self, s, le_refl s, rfl⟩
    · obtain ⟨a', ha', s', hle, rfl⟩ := ih h
      exact ⟨a', List.mem_cons_of_mem a ha', s', (hf a s).trans hle, rfl⟩

theorem map_loop {γ : Type} {g : β → γ} {k : α → γ} (hg : ∀ a s, g (f a s).1 = k a) (as : List α) (s : S) :
    (loop f as s).1.map g = as.map k := by
  induction as generalizing s with
  | nil => rfl
  | cons a as ih => rw [loop_cons, List.map_cons, List.map_cons, hg, ih]

/-- **A loop that changes nothing** has no step that does. -/
theorem loop_eq_self_iff [PartialOrder S] (hf : ∀ a s, s ≤ (f a s).2) (as : List α) (s : S) :
    (loop f as s).2 = s ↔ ∀ a ∈ as, (f a s).2 = s := by
  induction as with
  | nil => simp
  | cons a as ih =>
    rw [loop_cons, List.forall_mem_cons, ← ih]
    constructor
    · intro h
      -- the state after the first step lies between the two ends
      have hle : (f a s).2 ≤ s := (le_loop hf as (f a s).2).trans h.le
      have ha : (f a s).2 = s := le_antisymm hle (hf a s)
      rw [ha] at h
      exact ⟨ha, h⟩
    · rintro ⟨ha, has⟩
      rw [ha]
      exact has

end Sweep
