import Devrouter.Lib.Prog

/-!
# Services side by side

A program that talks to two services is a program of their product, whose state is the pair of the two
states and whose commands are those of either. `Prog.left` and `Prog.right` read a program of one service
as a program of the product; it leaves the other service alone.
-/

/-- Two servers side by side. -/
abbrev Service.prod (V W : Service) : Service where
  State := V.State × W.State
  Cmd := V.Cmd ⊕ W.Cmd
  Reply := Sum.elim V.Reply W.Reply
  apply
    | .inl c, s => ((V.apply c s.1).1, ((V.apply c s.1).2, s.2))
    | .inr c, s => ((W.apply c s.2).1, (s.1, (W.apply c s.2).2))

namespace Prog

variable {V W : Service} {α : Type}

/-- A program of the first service. -/
def left : Prog V α → Prog (V.prod W) α
  | .ret a => .ret a
  | .exec c k => .exec (.inl c) fun r => (k r).left

/-- A program of the second service. -/
def right : Prog W α → Prog (V.prod W) α
  | .ret a => .ret a
  | .exec c k => .exec (.inr c) fun r => (k r).right

theorem right_map {β : Type} (f : α → β) (p : Prog W α) :
    ((f <$> p).right : Prog (V.prod W) β) = f <$> p.right := by
  induction p with
  | ret a => rfl
  | exec c k ih => exact congrArg (Prog.exec (V := V.prod W) (.inr c)) (funext ih)

variable {s : V.State × W.State} {Q : α → V.State × W.State → Prop}

@[simp] theorem run_left (p : Prog V α) (s : V.State × W.State) :
    (p.left : Prog (V.prod W) α).run s = ((p.run s.1).1, ((p.run s.1).2, s.2)) := by
  induction p generalizing s with
  | ret a => rfl
  | exec c k ih => exact ih _ _

@[simp] theorem run_right (p : Prog W α) (s : V.State × W.State) :
    (p.right : Prog (V.prod W) α).run s = ((p.run s.2).1, (s.1, (p.run s.2).2)) := by
  induction p generalizing s with
  | ret a => rfl
  | exec c k ih => exact ih _ _

@[simp] theorem wp_left (p : Prog V α) :
    (p.left : Prog (V.prod W) α).wp Q s ↔ p.wp (fun a v => Q a (v, s.2)) s.1 := by
  induction p generalizing s with
  | ret a => rfl
  | exec c k ih => exact and_congr (ih _) (ih _)

@[simp] theorem wp_right (p : Prog W α) :
    (p.right : Prog (V.prod W) α).wp Q s ↔ p.wp (fun a w => Q a (s.1, w)) s.2 := by
  induction p generalizing s with
  | ret a => rfl
  | exec c k ih => exact and_congr (ih _) (ih _)

end Prog
