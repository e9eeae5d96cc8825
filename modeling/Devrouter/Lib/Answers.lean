import Mathlib.Tactic.Common

/-!
# What a server answers

A `Server S Q A` answers calls `Q` from a state `S`. Two servers cannot be told apart by their calls when a relation
of their states is kept by every call and makes them answer it alike (`Server.run_eq_of_simulation`): this is how a
server with a cache is compared with the one without it.
-/

structure Server (S Q A : Type) where
  call : S → Q → A × S

namespace Server

variable {S T Q A : Type} (M : Server S Q A)

/-- The answers to a list of calls, and the state that is left behind. -/
def run : S → List Q → List A × S
  | s, [] => ([], s)
  | s, q :: qs => ((M.call s q).1 :: (run (M.call s q).2 qs).1, (run (M.call s q).2 qs).2)

@[simp] theorem run_nil (s : S) : M.run s [] = ([], s) := rfl

/-- **Simulation.** Related servers give the same answers, and are related behind them. -/
theorem run_eq_of_simulation {M : Server S Q A} {N : Server T Q A} {R : S → T → Prop}
    (hcall : ∀ s t q, R s t → (M.call s q).1 = (N.call t q).1 ∧ R (M.call s q).2 (N.call t q).2)
    {s : S} {t : T} (hR : R s t) (qs : List Q) :
    (M.run s qs).1 = (N.run t qs).1 ∧ R (M.run s qs).2 (N.run t qs).2 := by
  induction qs generalizing s t with
  | nil => exact ⟨rfl, hR⟩
  | cons q qs ih =>
    obtain ⟨hanswer, hnext⟩ := hcall s t q hR
    obtain ⟨hanswers, hlast⟩ := ih hnext
    exact ⟨congrArg₂ List.cons hanswer hanswers, hlast⟩

end Server
