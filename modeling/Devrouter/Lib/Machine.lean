import Mathlib.Tactic.Common

/-!
# Labelled machines and their runs

A `Machine S A` has states `S`, actions `A` and a partial step: an action that is not enabled in a
state has no step. `exec` runs a list of actions, `Along` says that a side condition is met at each
of them. The rules below are the inductions that every result about whole runs goes through:

* `Machine.invariant` — what each allowed step keeps holds at the end of an allowed run;
* `Machine.along_iff_reached` — when the side condition is exact, so is the allowed run;
* `Machine.stable` — what each allowed step does to a pair of states, closed under composition,
  relates the two ends of an allowed run.
-/

/-- A deterministic labelled transition system with partial steps. -/
structure Machine (S A : Type) where
  step : S → A → Option S

namespace Machine

variable {S A : Type} (M : Machine S A)

/-- Run a list of actions; `none` as soon as one of them is not enabled. -/
def exec : S → List A → Option S
  | s, [] => some s
  | s, a :: as => (M.step s a).bind fun s' => exec s' as

/-- The side condition `ok` is met by every action of the run. -/
def Along (ok : S → A → Prop) : S → List A → Prop
  | _, [] => True
  | s, a :: as => ok s a ∧ ∀ s', M.step s a = some s' → Along ok s' as

variable {M}

@[simp] theorem exec_nil (s : S) : M.exec s [] = some s := rfl

theorem exec_cons (s : S) (a : A) (as : List A) :
    M.exec s (a :: as) = (M.step s a).bind fun s' => M.exec s' as := rfl

theorem exec_cons_eq_some {s t : S} {a : A} {as : List A} :
    M.exec s (a :: as) = some t ↔ ∃ s', M.step s a = some s' ∧ M.exec s' as = some t := by
  rw [exec_cons, Option.bind_eq_some_iff]

theorem exec_append (s : S) (as bs : List A) :
    M.exec s (as ++ bs) = (M.exec s as).bind fun s' => M.exec s' bs := by
  induction as generalizing s with
  | nil => rfl
  | cons a as ih =>
    rw [List.cons_append, exec_cons, exec_cons, Option.bind_assoc]
    exact congrArg _ (funext ih)

theorem exec_append_eq_some {s t : S} {as bs : List A} :
    M.exec s (as ++ bs) = some t ↔ ∃ s', M.exec s as = some s' ∧ M.exec s' bs = some t := by
  rw [exec_append, Option.bind_eq_some_iff]

theorem Along.mono {ok ok' : S → A → Prop} (h : ∀ s a, ok s a → ok' s a) {s : S} {as : List A}
    (ha : M.Along ok s as) : M.Along ok' s as := by
  induction as generalizing s with
  | nil => trivial
  | cons a as ih => exact ⟨h s a ha.1, fun s' hs => ih (ha.2 s' hs)⟩

/-- A condition on the actions alone. -/
theorem Along.of_forall_mem {ok : S → A → Prop} {as : List A} (h : ∀ a ∈ as, ∀ s, ok s a) (s : S) :
    M.Along ok s as := by
  induction as generalizing s with
  | nil => trivial
  | cons a as ih =>
    exact ⟨h a List.mem_cons_self s, fun s' _ => ih (fun b hb => h b (List.mem_cons_of_mem a hb)) s'⟩

/-- The side condition holds along the rest of the run. -/
theorem Along.append_right {ok : S → A → Prop} {s s' : S} {as bs : List A}
    (ha : M.Along ok s (as ++ bs)) (hs : M.exec s as = some s') : M.Along ok s' bs := by
  induction as generalizing s with
  | nil => cases hs; exact ha
  | cons a as ih =>
    obtain ⟨t, ht, hs⟩ := exec_cons_eq_some.mp hs
    exact ih (ha.2 t ht) hs

theorem Along.append_left {ok : S → A → Prop} {s : S} {as bs : List A}
    (ha : M.Along ok s (as ++ bs)) : M.Along ok s as := by
  induction as generalizing s with
  | nil => trivial
  | cons a as ih => exact ⟨ha.1, fun s' hs => ih (ha.2 s' hs)⟩

/-- The side condition is met at each action of the run. -/
theorem along_iff_each {ok : S → A → Prop} {s : S} {as : List A} :
    M.Along ok s as ↔ ∀ before a after t, as = before ++ a :: after → M.exec s before = some t → ok t a := by
  constructor
  · rintro h before a after t rfl ht
    exact (h.append_right ht).1
  · intro h
    induction as generalizing s with
    | nil => trivial
    | cons a as ih =>
      refine ⟨h [] a as s rfl rfl, fun s' hs => ih fun before b after t has ht => ?_⟩
      exact h (a :: before) b after t (by rw [has]; rfl) (exec_cons_eq_some.mpr ⟨s', hs, ht⟩)

/-- **Invariant rule.** A predicate that every allowed step keeps holds at the end of every allowed
run. -/
theorem invariant {ok : S → A → Prop} {I : S → Prop}
    (hstep : ∀ s a s', I s → ok s a → M.step s a = some s' → I s')
    {s t : S} {as : List A} (hI : I s) (ha : M.Along ok s as) (he : M.exec s as = some t) : I t := by
  induction as generalizing s with
  | nil => cases he; exact hI
  | cons a as ih =>
    obtain ⟨s', hs, he⟩ := exec_cons_eq_some.mp he
    exact ih (hstep s a s' hI ha.1 hs) (ha.2 s' hs) he

/-- **Exact condition.** When an allowed step is exactly one that keeps `I`, the allowed runs are exactly
those that reach only states with `I`. `J` is what every step keeps. -/
theorem along_iff_reached {ok : S → A → Prop} {I J : S → Prop}
    (hstep : ∀ s a s', J s → I s → M.step s a = some s' → J s' ∧ (I s' ↔ ok s a))
    (htotal : ∀ s a, ∃ s', M.step s a = some s') {s : S} (hJ : J s) (hI : I s) (as : List A) :
    M.Along ok s as ↔ ∀ as₁ as₂ t, as = as₁ ++ as₂ → M.exec s as₁ = some t → I t := by
  induction as generalizing s with
  | nil =>
    refine ⟨fun _ as₁ as₂ t has ht => ?_, fun _ => trivial⟩
    obtain ⟨rfl, -⟩ := List.append_eq_nil_iff.mp has.symm
    exact Option.some.inj ht ▸ hI
  | cons a as ih =>
    obtain ⟨s', hs⟩ := htotal s a
    obtain ⟨hJ', hiff⟩ := hstep s a s' hJ hI hs
    constructor
    · -- the first state is reached by no step, the others from the next one
      rintro ⟨hok, halong⟩ as₁ as₂ t has ht
      cases as₁ with
      | nil => exact Option.some.inj ht ▸ hI
      | cons b bs =>
        rw [List.cons_append] at has
        obtain ⟨rfl, htail⟩ := List.cons.inj has
        obtain ⟨u, hu, ht⟩ := exec_cons_eq_some.mp ht
        obtain rfl := Option.some.inj (hs.symm.trans hu)
        exact (ih hJ' (hiff.mpr hok)).mp (halong _ hs) bs as₂ t htail ht
    · -- the invariant in the next state is the condition on the first step
      intro hreach
      have hI' : I s' := hreach [a] as s' rfl (exec_cons_eq_some.mpr ⟨s', hs, rfl⟩)
      refine ⟨hiff.mp hI', fun u hu => ?_⟩
      obtain rfl := Option.some.inj (hs.symm.trans hu)
      refine (ih hJ' hI').mpr fun as₁ as₂ t has ht => ?_
      exact hreach (a :: as₁) as₂ t (by rw [has]; rfl) (exec_cons_eq_some.mpr ⟨s', hs, ht⟩)

/-- **Two-state rule.** A reflexive and transitive relation that contains every allowed step taken
under the invariant `I` relates the two ends of every allowed run. -/
theorem stable {ok : S → A → Prop} {I : S → Prop} {R : S → S → Prop}
    (hstep : ∀ s a s', I s → ok s a → M.step s a = some s' → I s' ∧ R s s')
    (hrefl : ∀ s, R s s) (htrans : ∀ s₁ s₂ s₃, R s₁ s₂ → R s₂ s₃ → R s₁ s₃)
    {s t : S} {as : List A} (hI : I s) (ha : M.Along ok s as) (he : M.exec s as = some t) :
    R s t := by
  induction as generalizing s with
  | nil => cases he; exact hrefl _
  | cons a as ih =>
    obtain ⟨s', hs, he⟩ := exec_cons_eq_some.mp he
    obtain ⟨hI', hR⟩ := hstep s a s' hI ha.1 hs
    exact htrans _ _ _ hR (ih hI' (ha.2 s' hs) he)

end Machine
