import Mathlib.Order.Defs.Unbundled
import Mathlib.Data.List.Basic

/-!
# Purging a run

Whether an observer can tell that some actions of a run were left out. The observer is a relation `R`
on states, "looks the same"; `concerns` marks the actions it may depend on. An `Unwinding` collects
the two conditions on single steps:

* `frame` — an action that does not concern the observer looks like no action;
* `congr` — an action that concerns it does the same to states that look the same.

`Unwinding.purge` is the run: it looks the same with the other actions purged. Both conditions are
asked under an invariant of the system.
-/

/-- The step conditions under which an observer depends on the concerning actions alone. -/
structure Unwinding {S A : Type} (step : S → A → S) (inv : S → Prop) (R : S → S → Prop)
    (concerns : A → Bool) : Prop where
  inv_step : ∀ s a, inv s → inv (step s a)
  trans : ∀ s t u, R s t → R t u → R s u
  symm : ∀ s t, R s t → R t s
  frame : ∀ s a, inv s → concerns a = false → R s (step s a)
  congr : ∀ s t a, inv s → inv t → R s t → concerns a = true → R (step s a) (step t a)

namespace Unwinding

variable {S A : Type} {step : S → A → S} {inv : S → Prop} {R : S → S → Prop} {concerns : A → Bool}

/-- **The purged run looks the same.** -/
theorem purge (h : Unwinding step inv R concerns) {s t : S} (hs : inv s) (ht : inv t)
    (hst : R s t) (as : List A) :
    R (as.foldl step s) ((as.filter concerns).foldl step t) := by
  induction as generalizing s t with
  | nil => exact hst
  | cons a as ih =>
    cases ha : concerns a with
    | true =>
      rw [List.filter_cons_of_pos ha]
      exact ih (h.inv_step s a hs) (h.inv_step t a ht) (h.congr s t a hs ht hst ha)
    | false =>
      rw [List.filter_cons_of_neg (Bool.eq_false_iff.mp ha)]
      -- the step is invisible on the left and does not happen on the right
      have hskip : R (step s a) t := h.trans _ _ _ (h.symm _ _ (h.frame s a hs ha)) hst
      exact ih (h.inv_step s a hs) ht hskip

end Unwinding
