import Mathlib.Logic.Relation
import Mathlib.Logic.Function.Basic
import Mathlib.Order.WellFoundedSet

/-!
# Lineages

Versions that replace one another, with a link in each direction: a version names the one that replaced
it (`next`) and the one it replaced (`prev`), and carries a mark when it has been replaced. A `Lineage`
is a table of versions; nothing in its type makes the two links of a replacement agree. `Consistent` says
that they do, that the mark agrees with them, and that following `next` from a replaced version ends at
one that is not.

The table is changed in three ways: a version is made anew (`reset`), is marked as replaced (`retire`),
is told what it replaced (`adopt`); `link` does the last two. For each, an equivalence says when a
consistent lineage stays consistent. All of them rest on `Consistent.of_acyclic`: over a finite table the
end of every chain comes for free.
-/

/-- A version: whether it has been replaced, by which one, and which one it replaced. -/
structure Version (α : Type) where
  retired : Bool
  next : Option α
  prev : Option α
  deriving DecidableEq, Repr

/-- The versions that exist. -/
abbrev Lineage (α : Type) := α → Option (Version α)

namespace Lineage

variable {α : Type} (L : Lineage α)

/-- The version that replaced `a`. -/
def next (a : α) : Option α := (L a).bind Version.next

/-- The version that `a` replaced. -/
def prev (a : α) : Option α := (L a).bind Version.prev

/-- `b` replaced `a`. -/
def Step (a b : α) : Prop := L.next a = some b

/-- The versions that exist, as a set. -/
def support : Set α := {a | L a ≠ none}

/-- **Consistency.** The mark, the link forward and the link backward agree, no version replaces itself
directly or through others, and every chain of replacements ends at a version that is not replaced. -/
structure Consistent : Prop where
  retired_iff : ∀ a v, L a = some v → (v.retired = true ↔ v.next ≠ none)
  link : ∀ a b, L.next a = some b ↔ L.prev b = some a
  acyclic : ∀ a, ¬ Relation.TransGen L.Step a a
  current : ∀ a v, L a = some v → v.retired = true →
    ∃ b w, Relation.TransGen L.Step a b ∧ L b = some w ∧ w.retired = false

variable {L}

theorem mem_support_of_prev {a b : α} (h : L.prev b = some a) : b ∈ L.support := by
  intro hnone
  unfold prev at h
  rw [hnone] at h
  exact absurd h (by simp)

theorem next_of_eq {a : α} {v : Version α} (h : L a = some v) : L.next a = v.next := by
  unfold next
  rw [h]
  rfl

/-- Over a finite table a chain without cycles ends. -/
theorem exists_end (hfin : L.support.Finite) (hlink : ∀ a b, L.next a = some b ↔ L.prev b = some a)
    (hacyclic : ∀ a, ¬ Relation.TransGen L.Step a a) {a : α} (ha : a ∈ L.support) :
    ∃ b ∈ L.support, Relation.ReflTransGen L.Step a b ∧ L.next b = none := by
  -- the induction is on the versions that come later
  let later : α → α → Prop := fun b a => Relation.TransGen L.Step a b
  have hstrict : IsStrictOrder α later :=
    { irrefl := hacyclic
      trans := fun _ _ _ hab hbc => hbc.trans hab }
  have hwf : L.support.WellFoundedOn later := hfin.wellFoundedOn
  refine hwf.induction (P := fun a => ∃ b ∈ L.support, Relation.ReflTransGen L.Step a b ∧
    L.next b = none) ha fun a ha ih => ?_
  cases hn : L.next a with
  | none => exact ⟨a, ha, .refl, hn⟩
  | some b =>
    obtain ⟨c, hc, hbc, hend⟩ :=
      ih b (mem_support_of_prev ((hlink a b).mp hn)) (Relation.TransGen.single hn)
    exact ⟨c, hc, Relation.ReflTransGen.head hn hbc, hend⟩

/-- Over a finite table the end of every chain comes for free. -/
theorem Consistent.of_acyclic (hfin : L.support.Finite)
    (hretired : ∀ a v, L a = some v → (v.retired = true ↔ v.next ≠ none))
    (hlink : ∀ a b, L.next a = some b ↔ L.prev b = some a)
    (hacyclic : ∀ a, ¬ Relation.TransGen L.Step a a) : L.Consistent where
  retired_iff := hretired
  link := hlink
  acyclic := hacyclic
  current a v hv hr := by
    have hmem : a ∈ L.support := by
      unfold support
      simp [hv]
    -- the chain of successors ends, as the support is finite
    obtain ⟨b, hb, hab, hend⟩ := exists_end hfin hlink hacyclic hmem
    obtain ⟨w, hw⟩ := Option.ne_none_iff_exists'.mp hb
    have hnext : w.next = none := (next_of_eq hw).symm.trans hend
    have hne : a ≠ b := by
      rintro rfl
      obtain rfl : v = w := Option.some.inj (hv.symm.trans hw)
      exact (hretired a v hv).mp hr hnext
    refine ⟨b, w, ?_, hw, ?_⟩
    · -- where it ends is not retired, or it would have a successor
      exact (Relation.reflTransGen_iff_eq_or_transGen.mp hab).resolve_left hne.symm
    · have := (hretired b w hw).not.mpr (not_not.mpr hnext)
      simpa using this

/-- Nothing is consistent. -/
theorem Consistent.empty : Consistent (fun _ => none : Lineage α) := by
  refine .of_acyclic ?_ (fun _ _ h => nomatch h) ?_ ?_
  · have : support (fun _ => none : Lineage α) = ∅ := by
      ext a
      simp [support]
    rw [this]
    exact Set.finite_empty
  · intro a b
    simp [next, prev]
  · intro a h
    obtain ⟨b, hab, -⟩ := Relation.TransGen.head'_iff.mp h
    exact nomatch hab

/-- No version in a consistent lineage replaces itself. -/
theorem Consistent.ne (h : L.Consistent) {a b : α} (hab : L.next a = some b) : a ≠ b := by
  rintro rfl
  exact h.acyclic a (Relation.TransGen.single hab)

/-! ### One more link -/

/-- A chain over one more link either is one without it or goes through it. -/
theorem transGen_insert {r r' : α → α → Prop} {x y : α}
    (hr : ∀ a b, r' a b → r a b ∨ (a = x ∧ b = y)) {a b : α} (h : Relation.TransGen r' a b) :
    Relation.TransGen r a b ∨ (Relation.ReflTransGen r a x ∧ Relation.ReflTransGen r y b) := by
  induction h with
  | single hab =>
    rcases hr _ _ hab with hab | ⟨rfl, rfl⟩
    · exact .inl (.single hab)
    · exact .inr ⟨.refl, .refl⟩
  | tail _ hbc ih =>
    rcases hr _ _ hbc, ih with ⟨hbc | ⟨rfl, rfl⟩, hab | ⟨hax, hyb⟩⟩
    · exact .inl (hab.tail hbc)
    · exact .inr ⟨hax, hyb.tail hbc⟩
    · exact .inr ⟨hab.to_reflTransGen, .refl⟩
    · exact .inr ⟨hax, .refl⟩

/-! ### Changes -/

variable [DecidableEq α]

/-- Make a version anew, without links. -/
def reset (L : Lineage α) (a : α) : Lineage α := Function.update L a (some ⟨false, none, none⟩)

/-- Mark a version as replaced by `n`. -/
def retire (L : Lineage α) (o n : α) : Lineage α :=
  Function.update L o ((L o).map fun v => { v with retired := true, next := some n })

/-- Tell a version that it replaced `o`. -/
def adopt (L : Lineage α) (n o : α) : Lineage α :=
  Function.update L n ((L n).map fun v => { v with prev := some o })

/-- Replace `o` by `n`. -/
def link (L : Lineage α) (o n : α) : Lineage α := (L.retire o n).adopt n o

theorem next_reset (a : α) : (L.reset a).next = Function.update L.next a none := by
  ext1 b
  unfold next reset
  by_cases hb : b = a
  · subst hb
    simp
  · simp [hb]

theorem prev_reset (a : α) : (L.reset a).prev = Function.update L.prev a none := by
  ext1 b
  unfold prev reset
  by_cases hb : b = a
  · subst hb
    simp
  · simp [hb]

theorem next_retire {o : α} (ho : o ∈ L.support) (n : α) :
    (L.retire o n).next = Function.update L.next o (some n) := by
  obtain ⟨v, hv⟩ := Option.ne_none_iff_exists'.mp ho
  ext1 b
  unfold next retire
  by_cases hb : b = o
  · subst hb
    simp [hv]
  · simp [hb]

@[simp] theorem prev_retire (o n : α) : (L.retire o n).prev = L.prev := by
  ext1 b
  unfold prev retire
  by_cases hb : b = o
  · subst hb
    cases hv : L b <;> simp
  · simp [hb]

@[simp] theorem next_adopt (n o : α) : (L.adopt n o).next = L.next := by
  ext1 b
  unfold next adopt
  by_cases hb : b = n
  · subst hb
    cases hv : L b <;> simp
  · simp [hb]

theorem prev_adopt {n : α} (hn : n ∈ L.support) (o : α) :
    (L.adopt n o).prev = Function.update L.prev n (some o) := by
  obtain ⟨v, hv⟩ := Option.ne_none_iff_exists'.mp hn
  ext1 b
  unfold prev adopt
  by_cases hb : b = n
  · subst hb
    simp [hv]
  · simp [hb]

@[simp] theorem support_retire (o n : α) : (L.retire o n).support = L.support := by
  ext b
  unfold support retire
  by_cases hb : b = o
  · subst hb
    simp
  · simp [hb]

@[simp] theorem support_adopt (n o : α) : (L.adopt n o).support = L.support := by
  ext b
  unfold support adopt
  by_cases hb : b = n
  · subst hb
    simp
  · simp [hb]

theorem support_reset (a : α) : (L.reset a).support = insert a L.support := by
  ext b
  unfold support reset
  by_cases hb : b = a
  · subst hb
    simp
  · simp [hb]

theorem next_link {o : α} (ho : o ∈ L.support) (n : α) :
    (L.link o n).next = Function.update L.next o (some n) := by
  unfold link
  rw [next_adopt, next_retire ho]

theorem prev_link {n : α} (hn : n ∈ L.support) (o : α) :
    (L.link o n).prev = Function.update L.prev n (some o) := by
  unfold link
  rw [prev_adopt (by rwa [support_retire]), prev_retire]

/-! ### The mark after a change -/

/-- The mark of every version agrees with its link forward. -/
def Marked (L : Lineage α) : Prop := ∀ a v, L a = some v → (v.retired = true ↔ v.next ≠ none)

theorem Marked.reset (h : L.Marked) (a : α) : (L.reset a).Marked := by
  intro b v hv
  unfold Lineage.reset at hv
  by_cases hb : b = a
  · subst hb
    rw [Function.update_self] at hv
    obtain rfl := Option.some.inj hv
    simp
  · rw [Function.update_of_ne hb] at hv
    exact h b v hv

theorem Marked.retire (h : L.Marked) (o n : α) : (L.retire o n).Marked := by
  intro b v hv
  unfold Lineage.retire at hv
  by_cases hb : b = o
  · subst hb
    rw [Function.update_self] at hv
    obtain ⟨w, -, rfl⟩ := Option.map_eq_some_iff.mp hv
    simp
  · rw [Function.update_of_ne hb] at hv
    exact h b v hv

theorem Marked.adopt (h : L.Marked) (n o : α) : (L.adopt n o).Marked := by
  intro b v hv
  unfold Lineage.adopt at hv
  by_cases hb : b = n
  · subst hb
    rw [Function.update_self] at hv
    obtain ⟨w, hw, rfl⟩ := Option.map_eq_some_iff.mp hv
    exact h b w hw
  · rw [Function.update_of_ne hb] at hv
    exact h b v hv

/-! ### When consistency is kept -/

omit [DecidableEq α] in
/-- A lineage with the same links is consistent when its marks are. -/
theorem Consistent.of_links {L' : Lineage α} (h : L.Consistent) (hfin : L'.support.Finite)
    (hmark : L'.Marked) (hnext : L'.next = L.next) (hprev : L'.prev = L.prev) : L'.Consistent := by
  have hstep : L'.Step = L.Step := by
    ext a b
    unfold Step
    rw [hnext]
  refine .of_acyclic hfin hmark ?_ ?_
  · rw [hnext, hprev]
    exact h.link
  · rw [hstep]
    exact h.acyclic

/-- **Making a version anew** keeps consistency exactly when the version has no links. -/
theorem consistent_reset_iff (hfin : L.support.Finite) (h : L.Consistent) (a : α) :
    (L.reset a).Consistent ↔ L.next a = none ∧ L.prev a = none := by
  constructor
  · intro h'
    constructor
    · cases hn : L.next a with
      | none => rfl
      | some b =>
        -- the newer version still names the one made anew
        have hprev : (L.reset a).prev b = some a := by
          rw [prev_reset, Function.update_of_ne (h.ne hn).symm]
          exact (h.link a b).mp hn
        have hnext := (h'.link a b).mpr hprev
        rw [next_reset, Function.update_self] at hnext
        exact nomatch hnext
    · cases hp : L.prev a with
      | none => rfl
      | some b =>
        have hlink := (h.link b a).mpr hp
        have hnext : (L.reset a).next b = some a := by
          rw [next_reset, Function.update_of_ne (h.ne hlink)]
          exact hlink
        have hprev := (h'.link b a).mp hnext
        rw [prev_reset, Function.update_self] at hprev
        exact nomatch hprev
  · rintro ⟨hn, hp⟩
    refine h.of_links ?_ (Marked.reset h.retired_iff a) ?_ ?_
    · rw [support_reset]
      exact hfin.insert a
    · rw [next_reset, ← hn, Function.update_eq_self]
    · rw [prev_reset, ← hp, Function.update_eq_self]

/-- **Half a link** keeps consistency exactly when the whole link is there already. -/
theorem consistent_retire_iff (hfin : L.support.Finite) (h : L.Consistent) {o : α}
    (ho : o ∈ L.support) (n : α) : (L.retire o n).Consistent ↔ L.next o = some n := by
  constructor
  · intro h'
    have hnext : (L.retire o n).next o = some n := by
      rw [next_retire ho, Function.update_self]
    have hprev := (h'.link o n).mp hnext
    rw [prev_retire] at hprev
    exact (h.link o n).mpr hprev
  · intro hn
    refine h.of_links ?_ (Marked.retire h.retired_iff o n) ?_ (prev_retire o n)
    · rwa [support_retire]
    · rw [next_retire ho, ← hn, Function.update_eq_self]

/-- `o` can be replaced by `n`: it is, or neither takes part in such a replacement yet and `n` is not an
older version of `o`. -/
def Replaceable (L : Lineage α) (o n : α) : Prop :=
  L.next o = some n ∨
    (L.next o = none ∧ L.prev n = none ∧ ¬ Relation.ReflTransGen L.Step n o)

omit [DecidableEq α] in
/-- A version that is not replaced leads to itself alone. -/
theorem not_reaches {n o : α} (hn : L.next n = none) (hne : n ≠ o) :
    ¬ Relation.ReflTransGen L.Step n o := by
  intro h
  rcases Relation.ReflTransGen.cases_head h with rfl | ⟨b, hb, -⟩
  · exact hne rfl
  · exact absurd (hn.symm.trans hb) (by simp)

section Link

variable {o n : α}

/-- The steps of a linked lineage: `o` leads to `n`, and everything else leads where it led. -/
theorem step_link_self (ho : o ∈ L.support) {x : α} : (L.link o n).Step o x ↔ x = n := by
  unfold Step
  rw [next_link ho, Function.update_self, Option.some_inj]
  exact eq_comm

theorem step_link_of_ne (ho : o ∈ L.support) {x y : α} (hx : x ≠ o) : (L.link o n).Step x y ↔ L.Step x y := by
  unfold Step
  rw [next_link ho, Function.update_of_ne hx]

/-- The version that replaced `o` so far still names it, so it is `n`. -/
theorem eq_of_link_consistent (h : L.Consistent) (ho : o ∈ L.support) (hn : n ∈ L.support)
    (h' : (L.link o n).Consistent) {m : α} (hm : L.next o = some m) : m = n := by
  by_contra hne
  have hback : (L.link o n).prev m = some o := by
    rw [prev_link hn, Function.update_of_ne hne]
    exact (h.link o m).mp hm
  exact hne ((step_link_self ho).mp ((h'.link o m).mpr hback))

/-- The version that `n` replaced so far still names it, so there is none but `o`. -/
theorem prev_eq_none_of_link_consistent (h : L.Consistent) (ho : o ∈ L.support) (h' : (L.link o n).Consistent)
    (hfree : L.next o = none) : L.prev n = none := by
  cases hprev : L.prev n with
  | none => rfl
  | some p =>
    have hp : L.next p = some n := (h.link p n).mpr hprev
    have hpo : p ≠ o := by
      rintro rfl
      exact absurd (hfree.symm.trans hp) (by simp)
    have hfwd : (L.link o n).prev n = some p := (h'.link p n).mp ((step_link_of_ne ho hpo).mpr hp)
    have hon : (L.link o n).prev n = some o := (h'.link o n).mp ((step_link_self ho).mpr rfl)
    exact absurd (Option.some.inj (hfwd.symm.trans hon)) hpo

/-- No chain leaves `o`, so a chain from `n` to `o` is not changed, and the link closes it. -/
theorem not_reaches_of_link_consistent (ho : o ∈ L.support) (h' : (L.link o n).Consistent)
    (hfree : L.next o = none) : ¬ Relation.ReflTransGen L.Step n o := by
  intro hpath
  have hmono : ∀ a b, L.Step a b → (L.link o n).Step a b := by
    intro a b hab
    have hao : a ≠ o := by
      rintro rfl
      exact absurd (hfree.symm.trans hab) (by simp)
    exact (step_link_of_ne ho hao).mpr hab
  exact h'.acyclic o (Relation.TransGen.head' ((step_link_self ho).mpr rfl)
    (Relation.ReflTransGen.mono hmono _ _ hpath))

/-- Free ends that are linked name each other, and nothing else changes. -/
theorem link_symmetric (h : L.Consistent) (ho : o ∈ L.support) (hn : n ∈ L.support) (hnext : L.next o = none)
    (hprev : L.prev n = none) (a b : α) : (L.link o n).next a = some b ↔ (L.link o n).prev b = some a := by
  rw [next_link ho, prev_link hn]
  by_cases ha : a = o
  · subst ha
    rw [Function.update_self]
    by_cases hb : b = n
    · subst hb
      rw [Function.update_self]
      exact ⟨fun _ => rfl, fun _ => rfl⟩
    · rw [Function.update_of_ne hb, ← h.link, hnext]
      exact ⟨fun heq => absurd (Option.some.inj heq).symm hb, fun heq => nomatch heq⟩
  · rw [Function.update_of_ne ha]
    by_cases hb : b = n
    · subst hb
      rw [Function.update_self, h.link, hprev]
      exact ⟨fun heq => (nomatch heq), fun heq => absurd (Option.some.inj heq).symm ha⟩
    · rw [Function.update_of_ne hb]
      exact h.link a b

/-- A link that closes no chain makes no cycle. -/
theorem link_acyclic (h : L.Consistent) (ho : o ∈ L.support) (hpath : ¬ Relation.ReflTransGen L.Step n o) (a : α) :
    ¬ Relation.TransGen (L.link o n).Step a a := by
  intro hcycle
  have hsteps : ∀ x y, (L.link o n).Step x y → L.Step x y ∨ (x = o ∧ y = n) := by
    intro x y hxy
    by_cases hx : x = o
    · subst hx
      exact .inr ⟨rfl, (step_link_self ho).mp hxy⟩
    · exact .inl ((step_link_of_ne ho hx).mp hxy)
  obtain hold | ⟨hao, hna⟩ := transGen_insert hsteps hcycle
  · exact h.acyclic a hold
  · exact hpath (hna.trans hao)

/-- **A link** keeps consistency exactly when the old version can be replaced by the new one. -/
theorem consistent_link_iff (hfin : L.support.Finite) (h : L.Consistent) (ho : o ∈ L.support) (hn : n ∈ L.support) :
    (L.link o n).Consistent ↔ L.Replaceable o n := by
  have hfin' : (L.link o n).support.Finite := by
    unfold link
    rwa [support_adopt, support_retire]
  have hmark : (L.link o n).Marked := (Marked.retire h.retired_iff o n).adopt n o
  constructor
  · intro h'
    cases hnext : L.next o with
    | some m =>
      left
      rw [hnext, eq_of_link_consistent h ho hn h' hnext]
    | none =>
      exact .inr ⟨hnext, prev_eq_none_of_link_consistent h ho h' hnext, not_reaches_of_link_consistent ho h' hnext⟩
  · rintro (hlinked | ⟨hnext, hprev, hpath⟩)
    · refine h.of_links hfin' hmark ?_ ?_
      · rw [next_link ho, ← hlinked, Function.update_eq_self]
      · rw [prev_link hn, ← (h.link o n).mp hlinked, Function.update_eq_self]
    · exact .of_acyclic hfin' hmark (link_symmetric h ho hn hnext hprev) (link_acyclic h ho hpath)

end Link

end Lineage
