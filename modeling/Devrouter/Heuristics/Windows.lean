import Devrouter.Heuristics.SourceBandit
import Devrouter.Lib.Weighted

/-!
# The window of a candidate

Both bandits collect the samples of a candidate and of its base in one way and decide in one way when there are
enough (`Bandit.Update` and `SourceBandit.Update`). That is a `Window` here, judged sample by sample; the models
of the two bandits carry out what the window says (`Candidate.judge_window`, `SourceBandit.update_eq`), and a
command of theirs may fail.

Samples have weights. The code scales each reward by its weight and divides by the number of samples, so what it
compares are not the weight-normalised means. `promotion_means` says what a promotion is worth: where the mean
weights of the two arms agree when the window closes it goes by the normalised means, and where they do not there
are rewards for which it does not.
-/

open Prog

namespace Devrouter

/-! ### Windows -/

/-- What a sample is for. -/
inductive Arm where
  | candidate | base | stale
  deriving DecidableEq, Repr

structure ArmSample where
  arm : Arm
  adjusted : ℚ
  weight : ℚ
  deriving DecidableEq

/-- The samples of a candidate under test. -/
structure Window where
  rewards : List ℚ
  baseSamples : List ℚ
  consecBad : Nat
  deriving DecidableEq

/-- What is done with a window that took a sample, or did not. -/
inductive WindowStep where
  | stale
  | keep (w : Window)
  | promote (w : Window)
  | discard (w : Window)
  | rollback (w : Window)

namespace Window

def fresh : Window := ⟨[], [], 0⟩

/-- The decision on a window, once it is full. -/
def close (w : Window) : WindowStep :=
  if promotionWindow ≤ w.rewards.length ∧ promotionBaseSamples ≤ w.baseSamples.length then
    if Bandit.mean w.baseSamples + promotionLift < Bandit.mean w.rewards then .promote w else .discard w
  else .keep w

/-- The window with one more sample. -/
def record (w : Window) (s : ArmSample) : Window :=
  match s.arm with
  | .candidate =>
    { w with
      rewards := w.rewards ++ [s.adjusted * s.weight]
      consecBad := if s.adjusted < rollbackThreshold then w.consecBad + 1 else 0 }
  | .base => { w with baseSamples := w.baseSamples ++ [s.adjusted * s.weight] }
  | .stale => w

/-- The decision on a sample. -/
def judge (w : Window) (s : ArmSample) : WindowStep :=
  match s.arm with
  | .candidate =>
    if rollbackStrikes ≤ (w.record s).consecBad then .rollback (w.record s) else (w.record s).close
  | .base => (w.record s).close
  | .stale => .stale

end Window

/-- What a decision leaves of a window: a promotion that cannot be written leaves it under test. -/
def WindowStep.Leaves (w : Window) : WindowStep → Option Window → Prop
  | .stale, after => after = some w
  | .keep w', after => after = some w'
  | .promote w', after => after = none ∨ after = some w'
  | .discard _, after => after = none
  | .rollback _, after => after = none

/-- What a sequence of samples can leave of a fresh window. -/
inductive Window.Runs : List ArmSample → Option Window → Prop
  | fresh : Runs [] (some .fresh)
  | step {us : List ArmSample} {w : Window} {s : ArmSample} {after : Option Window} :
      Runs us (some w) → (w.judge s).Leaves w after → Runs (us ++ [s]) after
  | gone {us : List ArmSample} {s : ArmSample} : Runs us none → Runs (us ++ [s]) none

/-! ### The samples of an arm -/

/-- The rewards of an arm with their weights. -/
def samplesOf (arm : Arm) (us : List ArmSample) : List (Weighted.Sample ℚ) :=
  (us.filter (·.arm = arm)).map fun s => ⟨s.adjusted, s.weight⟩

/-- The samples as the code keeps them. -/
def scaled (l : List (Weighted.Sample ℚ)) : List ℚ := l.map fun s => s.value * s.weight

/-- The bad rewards of the candidate in a row. -/
def strikes (us : List ArmSample) : Nat :=
  us.foldl (fun n s => if s.arm = .candidate then if s.adjusted < rollbackThreshold then n + 1 else 0 else n) 0

/-- The window that has taken all samples. -/
def Window.after (us : List ArmSample) : Window :=
  ⟨scaled (samplesOf .candidate us), scaled (samplesOf .base us), strikes us⟩

/-- Enough samples of both arms. -/
def Full (us : List ArmSample) : Prop :=
  promotionWindow ≤ (samplesOf .candidate us).length ∧ promotionBaseSamples ≤ (samplesOf .base us).length

/-- The weights are those of samples. -/
def Weighed (us : List ArmSample) : Prop := ∀ s ∈ us, 0 < s.weight ∧ s.weight ≤ 1

/-- Both arms have the same mean weight. -/
def Balanced (us : List ArmSample) : Prop :=
  Weighted.meanWeight (samplesOf .candidate us) = Weighted.meanWeight (samplesOf .base us)

/-- The normalised mean of the candidate is above that of the base by more than the lift. -/
def Lifted (us : List ArmSample) : Prop :=
  Weighted.mean (samplesOf .base us) + promotionLift < Weighted.mean (samplesOf .candidate us)

section Samples

variable {us : List ArmSample} {s : ArmSample}

theorem samplesOf_append (arm : Arm) (us vs : List ArmSample) :
    samplesOf arm (us ++ vs) = samplesOf arm us ++ samplesOf arm vs := by
  unfold samplesOf
  rw [List.filter_append, List.map_append]

theorem samplesOf_singleton (arm : Arm) (s : ArmSample) :
    samplesOf arm [s] = if s.arm = arm then [⟨s.adjusted, s.weight⟩] else [] := by
  unfold samplesOf
  by_cases h : s.arm = arm
  · rw [if_pos h, List.filter_cons_of_pos (by simpa using h)]
    rfl
  · rw [if_neg h, List.filter_cons_of_neg (by simpa using h)]
    rfl

theorem scaled_append (l l' : List (Weighted.Sample ℚ)) : scaled (l ++ l') = scaled l ++ scaled l' := List.map_append

/-- The code's mean of scaled samples. -/
theorem mean_scaled (l : List (Weighted.Sample ℚ)) : Bandit.mean (scaled l) = Weighted.scaledMean l := by
  unfold Bandit.mean Weighted.scaledMean Weighted.total scaled
  cases l with
  | nil => exact (div_zero _).symm
  | cons s l =>
    rw [if_neg (by simp), List.length_map]

theorem strikes_append (us : List ArmSample) (s : ArmSample) : strikes (us ++ [s]) =
    if s.arm = .candidate then if s.adjusted < rollbackThreshold then strikes us + 1 else 0 else strikes us := by
  unfold strikes
  rw [List.foldl_append]
  rfl

/-- One more sample is recorded. -/
theorem Window.record_after (us : List ArmSample) (s : ArmSample) : (after us).record s = after (us ++ [s]) := by
  unfold record after
  rw [samplesOf_append, samplesOf_append, samplesOf_singleton, samplesOf_singleton, strikes_append, scaled_append,
    scaled_append]
  cases h : s.arm with
  | candidate => simp [scaled]
  | base => simp [scaled]
  | stale => simp [scaled]

end Samples

/-! ### Runs of a window -/

namespace Window

variable {us : List ArmSample} {s : ArmSample} {w : Window}

/-- A window that is still there has taken all samples. -/
theorem Runs.eq_after {slot : Option Window} (h : Runs us slot) : ∀ w, slot = some w → w = after us := by
  induction h with
  | fresh =>
    rintro w hw
    exact (Option.some.inj hw).symm
  | gone _ _ => exact fun w hw => absurd hw (by simp)
  | @step us w s slot _ hleaves ih =>
    intro w' hslot
    have hw := ih w rfl
    subst hw
    have hrecord := record_after us s
    -- whatever the decision, what it leaves has the sample
    have hclose : ∀ slot, ((after us).record s).close.Leaves (after us) slot → slot = some w' →
        w' = after (us ++ [s]) := by
      intro slot hl hs
      unfold close at hl
      split_ifs at hl
      · obtain hl | hl := hl
        · exact absurd (hl.symm.trans hs) (by simp)
        · rw [← hrecord]
          exact Option.some.inj (hs.symm.trans hl)
      · exact absurd (Eq.trans (Eq.symm hl) hs) (by simp)
      · rw [← hrecord]
        exact Option.some.inj (hs.symm.trans hl)
    unfold judge at hleaves
    cases harm : s.arm with
    | candidate =>
      rw [harm] at hleaves
      dsimp only at hleaves
      split_ifs at hleaves
      · exact absurd (Eq.trans (Eq.symm hleaves) hslot) (by simp)
      · exact hclose _ hleaves hslot
    | base =>
      rw [harm] at hleaves
      exact hclose _ hleaves hslot
    | stale =>
      rw [harm] at hleaves
      have hstale : (after us).record s = after us := by
        unfold record
        rw [harm]
      rw [← hrecord, hstale]
      exact Option.some.inj (hslot.symm.trans hleaves)

/-- A promotion is of a full window whose scaled means are apart. -/
theorem promoted (h : (after us).judge s = .promote w) :
    Full (us ++ [s]) ∧ Weighted.scaledMean (samplesOf .base (us ++ [s])) + promotionLift <
      Weighted.scaledMean (samplesOf .candidate (us ++ [s])) := by
  -- the window is closed only when it is full, and the lift is then the guard of the promotion
  have hclose : (after (us ++ [s])).close = .promote w → Full (us ++ [s]) ∧
      Weighted.scaledMean (samplesOf .base (us ++ [s])) + promotionLift <
        Weighted.scaledMean (samplesOf .candidate (us ++ [s])) := by
    intro hc
    unfold close at hc
    split_ifs at hc with hfull hlift
    refine ⟨?_, ?_⟩
    · unfold Full
      unfold after scaled at hfull
      rwa [List.length_map, List.length_map] at hfull
    · rw [← mean_scaled, ← mean_scaled]
      exact hlift
  unfold judge at h
  rw [record_after] at h
  -- a base's sample cannot strike, and a stale one closes nothing
  cases harm : s.arm with
  | candidate =>
    rw [harm] at h
    dsimp only at h
    split_ifs at h
    exact hclose h
  | base =>
    rw [harm] at h
    exact hclose h
  | stale =>
    rw [harm] at h
    cases h

end Window

theorem weighed_samplesOf {us : List ArmSample} (h : Weighed us) (arm : Arm) :
    ∀ s ∈ samplesOf arm us, 0 < s.weight ∧ s.weight ≤ 1 := by
  intro s hs
  obtain ⟨u, hu, rfl⟩ := List.mem_map.mp hs
  exact h u (List.mem_filter.mp hu).1

theorem Full.ne_nil {us : List ArmSample} (h : Full us) : samplesOf .candidate us ≠ [] ∧ samplesOf .base us ≠ [] := by
  constructor
  · intro hnil
    have hlength := h.1
    rw [hnil] at hlength
    exact absurd hlength (by decide)
  · intro hnil
    have hlength := h.2
    rw [hnil] at hlength
    exact absurd hlength (by decide)

/-- **Balanced windows.** A promotion goes by the normalised means. -/
theorem lifted_of_promoted {us : List ArmSample} {s : ArmSample} {w w' : Window} (hrun : Window.Runs us (some w))
    (hpromote : w.judge s = .promote w') (hweighed : Weighed (us ++ [s])) (hbalanced : Balanced (us ++ [s])) :
    Lifted (us ++ [s]) := by
  rw [hrun.eq_after w rfl] at hpromote
  obtain ⟨hfull, hscaled⟩ := Window.promoted hpromote
  have hlift : (0 : ℚ) ≤ promotionLift := by decide +kernel
  exact Weighted.mean_lift_of_scaled (fun s hs => (weighed_samplesOf hweighed _ s hs).1)
    (fun s hs => (weighed_samplesOf hweighed _ s hs).1) hfull.ne_nil.1 hfull.ne_nil.2
    (fun s hs => (weighed_samplesOf hweighed _ s hs).2) hbalanced hlift hscaled

/-! ### Rewards for given weights -/

/-- The sample with another reward. -/
def ArmSample.rewarded (s : ArmSample) (x : ℚ) : ArmSample := { s with adjusted := x }

/-- The first sample of the candidate is rewarded `a`, its others `t`, and those of the base `y`. -/
def refill (a t y : ℚ) : List ArmSample → List ArmSample
  | [] => []
  | s :: us =>
    if s.arm = .candidate then s.rewarded a :: us.map fun s => s.rewarded (if s.arm = .candidate then t else y)
    else s.rewarded y :: refill a t y us

/-- The same samples but for the rewards. -/
def SameSchedule (us vs : List ArmSample) : Prop := us.map (·.rewarded 0) = vs.map (·.rewarded 0)

section Refill

variable {a t y : ℚ}

theorem weights_samplesOf (arm : Arm) (us : List ArmSample) :
    (samplesOf arm us).map (·.weight) = (us.filter (·.arm = arm)).map (·.weight) := by
  unfold samplesOf
  rw [List.map_map]
  rfl

theorem samplesOf_cons (arm : Arm) (s : ArmSample) (us : List ArmSample) :
    samplesOf arm (s :: us) = (if s.arm = arm then [⟨s.adjusted, s.weight⟩] else []) ++ samplesOf arm us := by
  rw [← samplesOf_singleton, ← samplesOf_append]
  rfl

/-- All samples of an arm rewarded alike. -/
theorem samplesOf_map_rewarded (arm : Arm) (f : Arm → ℚ) (us : List ArmSample) :
    samplesOf arm (us.map fun s => s.rewarded (f s.arm)) =
      Weighted.constant (f arm) ((samplesOf arm us).map (·.weight)) := by
  induction us with
  | nil => rfl
  | cons s us ih =>
    rw [List.map_cons, samplesOf_cons, samplesOf_cons, ih]
    by_cases h : s.arm = arm
    · subst h
      rw [if_pos rfl]
      simp [ArmSample.rewarded, Weighted.constant]
    · rw [if_neg h]
      simp [ArmSample.rewarded, h]

theorem samplesOf_candidate_refill (us : List ArmSample) : samplesOf .candidate (refill a t y us) =
    Weighted.headed a t ((samplesOf .candidate us).map (·.weight)) := by
  induction us with
  | nil => rfl
  | cons s us ih =>
    rw [refill, samplesOf_cons]
    by_cases h : s.arm = .candidate
    · rw [if_pos h, if_pos h, samplesOf_cons]
      have hrest := samplesOf_map_rewarded .candidate (fun arm => if arm = .candidate then t else y) us
      rw [hrest]
      simp [ArmSample.rewarded, h, Weighted.headed]
    · rw [if_neg h, if_neg h, samplesOf_cons, ih]
      simp [ArmSample.rewarded, h]

theorem samplesOf_base_refill (us : List ArmSample) : samplesOf .base (refill a t y us) =
    Weighted.constant y ((samplesOf .base us).map (·.weight)) := by
  induction us with
  | nil => rfl
  | cons s us ih =>
    rw [refill, samplesOf_cons]
    by_cases h : s.arm = .candidate
    · rw [if_pos h, samplesOf_cons]
      have hrest := samplesOf_map_rewarded .base (fun arm => if arm = .candidate then t else y) us
      rw [hrest]
      simp [ArmSample.rewarded, h]
    · rw [if_neg h, samplesOf_cons, ih]
      by_cases hb : s.arm = .base
      · simp [ArmSample.rewarded, hb, Weighted.constant]
      · simp [ArmSample.rewarded, hb]

theorem sameSchedule_refill (us : List ArmSample) : SameSchedule (refill a t y us) us := by
  unfold SameSchedule
  induction us with
  | nil => rfl
  | cons s us ih =>
    rw [refill]
    by_cases h : s.arm = .candidate
    · rw [if_pos h, List.map_cons, List.map_map]
      rfl
    · rw [if_neg h, List.map_cons, ih]
      rfl

/-- Rewards that are not bad end a row of strikes. -/
theorem foldl_strikes_le {us : List ArmSample}
    (h : ∀ s ∈ us, s.arm = .candidate → ¬ s.adjusted < rollbackThreshold) (n : Nat) :
    us.foldl (fun n s => if s.arm = .candidate then if s.adjusted < rollbackThreshold then n + 1 else 0 else n) n
      ≤ n := by
  induction us generalizing n with
  | nil => exact Nat.le_refl n
  | cons s us ih =>
    have hrest := ih fun u hu => h u (List.mem_cons_of_mem s hu)
    rw [List.foldl_cons]
    by_cases hs : s.arm = .candidate
    · rw [if_pos hs, if_neg (h s List.mem_cons_self hs)]
      exact (hrest 0).trans (Nat.zero_le n)
    · rw [if_neg hs]
      exact hrest n

/-- Only the first reward of the candidate can be bad. -/
theorem strikes_refill_le {us pre : List ArmSample} (ht : ¬ t < rollbackThreshold) (hpre : pre <+: refill a t y us) :
    strikes pre ≤ 1 := by
  unfold strikes
  induction us generalizing pre with
  | nil =>
    rw [List.prefix_nil.mp hpre]
    exact Nat.zero_le 1
  | cons s us ih =>
    cases pre with
    | nil => exact Nat.zero_le 1
    | cons p pre =>
      rw [refill] at hpre
      rw [List.foldl_cons]
      by_cases h : s.arm = .candidate
      · rw [if_pos h, List.cons_prefix_cons] at hpre
        obtain ⟨rfl, hpre⟩ := hpre
        -- the rest of the prefix has no bad candidate's sample, so it adds no strike
        have hgood : ∀ u ∈ pre, u.arm = .candidate → ¬ u.adjusted < rollbackThreshold := by
          intro u hu harm
          obtain ⟨v, -, rfl⟩ := List.mem_map.mp (hpre.subset hu)
          rwa [show v.arm = .candidate from harm, if_pos rfl]
        have hrest := foldl_strikes_le hgood
        refine (hrest _).trans ?_
        split_ifs
        · exact Nat.le_refl 1
        · exact Nat.zero_le 1
        · exact Nat.zero_le 1
      · -- a base's sample leaves the strikes as they are
        rw [if_neg h, List.cons_prefix_cons] at hpre
        obtain ⟨rfl, hpre⟩ := hpre
        rw [if_neg (show ¬ (s.rewarded y).arm = .candidate from h)]
        exact ih hpre

end Refill

/-! ### Unbalanced windows -/

section Unbalanced

variable {us vs : List ArmSample} {s : ArmSample}

theorem length_samplesOf_le {pre : List ArmSample} (h : pre <+: us) (arm : Arm) :
    (samplesOf arm pre).length ≤ (samplesOf arm us).length := by
  obtain ⟨rest, rfl⟩ := h
  rw [samplesOf_append, List.length_append]
  exact Nat.le_add_right _ _

theorem Full.of_prefix {pre : List ArmSample} (h : pre <+: us) (hfull : Full pre) : Full us :=
  ⟨hfull.1.trans (length_samplesOf_le h _), hfull.2.trans (length_samplesOf_le h _)⟩

/-- A sample that neither strikes out nor fills the window is taken. -/
theorem Window.leaves_of_open {w : Window} {after' : Option Window} (hw : w = after us)
    (hstrikes : strikes (us ++ [s]) < rollbackStrikes) (hopen : ¬ Full (us ++ [s]))
    (h : (w.judge s).Leaves w after') : after' = some (after (us ++ [s])) := by
  subst hw
  -- an open window is kept when it is judged
  have hclose : (after (us ++ [s])).close = .keep (after (us ++ [s])) := by
    unfold close
    rw [if_neg]
    unfold after scaled
    rw [List.length_map, List.length_map]
    exact hopen
  unfold judge at h
  rw [record_after] at h
  cases harm : s.arm with
  | candidate =>
    rw [harm] at h
    dsimp only at h
    rw [if_neg (show ¬ rollbackStrikes ≤ (after (us ++ [s])).consecBad from Nat.not_le.mpr hstrikes), hclose] at h
    exact h
  | base =>
    rw [harm] at h
    dsimp only at h
    rw [hclose] at h
    exact h
  | stale =>
    -- a stale sample is not recorded
    rw [harm] at h
    have hstale : (after us).record s = after us := by
      unfold record
      rw [harm]
    rw [← record_after, hstale]
    exact h

/-- A window that is neither full nor struck out on the way is still there. -/
theorem Window.Runs.alive {slot : Option Window} (hrun : Runs us slot)
    (hstrikes : ∀ pre, pre <+: us → strikes pre < rollbackStrikes) (hopen : ¬ Full us) :
    slot = some (after us) := by
  induction hrun with
  | fresh => rfl
  | gone _ ih =>
    refine absurd (ih (fun pre hpre => hstrikes pre (hpre.trans (List.prefix_append _ _))) fun hfull => ?_) (by simp)
    exact hopen (hfull.of_prefix (List.prefix_append _ _))
  | step _ hleaves ih =>
    have halive := ih (fun pre hpre => hstrikes pre (hpre.trans (List.prefix_append _ _))) fun hfull =>
      hopen (hfull.of_prefix (List.prefix_append _ _))
    exact leaves_of_open (Option.some.inj halive) (hstrikes _ (List.prefix_refl _)) hopen hleaves

/-- The last sample of a full window that was not full is judged by the means. -/
theorem Window.judge_closing (hopen : ¬ Full us) (hfull : Full (us ++ [s]))
    (hstrikes : strikes (us ++ [s]) < rollbackStrikes)
    (hscaled : Weighted.scaledMean (samplesOf .base (us ++ [s])) + promotionLift <
      Weighted.scaledMean (samplesOf .candidate (us ++ [s]))) :
    (after us).judge s = .promote (after (us ++ [s])) := by
  have hclose : (after (us ++ [s])).close = .promote (after (us ++ [s])) := by
    unfold close
    rw [if_pos, if_pos]
    · unfold after
      rwa [mean_scaled, mean_scaled]
    · unfold after scaled
      rw [List.length_map, List.length_map]
      exact hfull
  unfold judge
  rw [record_after]
  cases harm : s.arm with
  | candidate =>
    dsimp only
    rw [if_neg (show ¬ rollbackStrikes ≤ (after (us ++ [s])).consecBad from Nat.not_le.mpr hstrikes), hclose]
  | base => exact hclose
  | stale =>
    -- a stale sample fills nothing
    refine absurd ?_ hopen
    unfold Full at hfull ⊢
    rwa [samplesOf_append, samplesOf_append, samplesOf_singleton, samplesOf_singleton, harm, if_neg (by decide),
      if_neg (by decide), List.append_nil, List.append_nil] at hfull

theorem SameSchedule.weights_eq (h : SameSchedule us vs) (arm : Arm) :
    (samplesOf arm us).map (·.weight) = (samplesOf arm vs).map (·.weight) := by
  have hweights : ∀ us : List ArmSample, (samplesOf arm us).map (·.weight) =
      ((us.map (·.rewarded 0)).filter (·.arm = arm)).map (·.weight) := by
    intro us
    rw [weights_samplesOf, List.filter_map, List.map_map]
    rfl
  rw [hweights us, hweights vs, h]

theorem SameSchedule.full_iff (h : SameSchedule us vs) : Full us ↔ Full vs := by
  have hlength : ∀ arm, (samplesOf arm us).length = (samplesOf arm vs).length := by
    intro arm
    have hmap := congrArg List.length (h.weights_eq arm)
    rwa [List.length_map, List.length_map] at hmap
  unfold Full
  rw [hlength, hlength]

theorem SameSchedule.append_inv {ws : List ArmSample} (h : SameSchedule ws (us ++ [s])) :
    ∃ us' s', ws = us' ++ [s'] ∧ SameSchedule us' us ∧ s'.rewarded 0 = s.rewarded 0 := by
  unfold SameSchedule at h
  rw [List.map_append] at h
  obtain ⟨us', last, rfl, hus, hlast⟩ := List.map_eq_append_iff.mp h
  obtain ⟨s', hs', hone⟩ := List.map_eq_singleton_iff.mp hlast
  subst hs'
  exact ⟨us', s', rfl, hus, hone⟩

/-- **Unbalanced windows.** Some rewards have the window promote without a lift of the normalised means. -/
theorem exists_unlifted (hweighed : Weighed (us ++ [s])) (hopen : ¬ Full us) (hfull : Full (us ++ [s]))
    (hunbalanced : ¬ Balanced (us ++ [s])) :
    ∃ us' s', SameSchedule us' us ∧ s'.rewarded 0 = s.rewarded 0 ∧
      (∀ slot, Window.Runs us' slot → slot = some (Window.after us')) ∧
      (Window.after us').judge s' = .promote (Window.after (us' ++ [s'])) ∧ ¬ Lifted (us' ++ [s']) := by
  have hpos : ∀ arm, ∀ w ∈ (samplesOf arm (us ++ [s])).map (·.weight), 0 < w := by
    intro arm w hw
    obtain ⟨v, hv, rfl⟩ := List.mem_map.mp hw
    exact (weighed_samplesOf hweighed arm v hv).1
  have hne : ∀ arm, samplesOf arm (us ++ [s]) ≠ [] → (samplesOf arm (us ++ [s])).map (·.weight) ≠ [] :=
    fun arm h hnil => h (List.map_eq_nil_iff.mp hnil)
  -- unbalanced weights have different means, so some rewards lift one sum and not the other
  have hdiff : ((samplesOf .candidate (us ++ [s])).map (·.weight)).sum /
        ((samplesOf .candidate (us ++ [s])).map (·.weight)).length ≠
      ((samplesOf .base (us ++ [s])).map (·.weight)).sum / ((samplesOf .base (us ++ [s])).map (·.weight)).length := by
    rw [List.length_map, List.length_map]
    exact hunbalanced
  have ht : ¬ rollbackThreshold < rollbackThreshold := lt_irrefl _
  obtain ⟨a, y, hscaled, hmean⟩ := Weighted.exists_scaled_lift (hpos .candidate) (hpos .base)
    (hne _ hfull.ne_nil.1) (hne _ hfull.ne_nil.2) hdiff promotionLift rollbackThreshold
  have hschedule := sameSchedule_refill (a := a) (t := rollbackThreshold) (y := y) (us ++ [s])
  obtain ⟨us', s', heq, hus, hs⟩ := hschedule.append_inv
  rw [← samplesOf_candidate_refill (y := y), ← samplesOf_base_refill (a := a) (t := rollbackThreshold), heq]
    at hscaled hmean
  -- the refilled run has at most one strike, too few to roll back
  have hstrikes : ∀ pre, pre <+: us' ++ [s'] → strikes pre < rollbackStrikes := by
    intro pre hpre
    rw [← heq] at hpre
    exact Nat.lt_of_le_of_lt (strikes_refill_le ht hpre) (by decide)
  have hopen' : ¬ Full us' := fun h => hopen (hus.full_iff.mp h)
  have hfull' : Full (us' ++ [s']) := by
    rw [← heq]
    exact hschedule.full_iff.mpr hfull
  refine ⟨us', s', hus, hs, fun slot hrun => ?_, ?_, hmean⟩
  · exact hrun.alive (fun pre hpre => hstrikes pre (hpre.trans (List.prefix_append _ _))) hopen'
  · exact Window.judge_closing hopen' hfull' (hstrikes _ (List.prefix_refl _)) hscaled

end Unbalanced

/-! ### The window of the profile bandit -/

namespace Candidate

def window (c : Candidate) : Window := ⟨c.rewards, c.baseSamples, c.consecBad⟩

end Candidate

/-- A call of `Bandit.Update` on a bucket. -/
structure UpdateCall where
  profileID : String
  adjusted : ℚ
  weight : ℚ
  now : Int

/-- The sample of a call, where the two profiles are known. -/
def UpdateCall.sample (cand base : String) (u : UpdateCall) : ArmSample :=
  ⟨if u.profileID = cand then .candidate else if u.profileID = base then .base else .stale, u.adjusted, u.weight⟩

/-- What a decision leaves in the slot of the bucket. -/
def Verdict.Leaves (c : Candidate) : Verdict → Option Candidate → Prop
  | .stale, after => after = some c
  | .keep c', after => after = some c'
  | .promote c', after => after = none ∨ after = some c'
  | .discard _, after => after = none
  | .rollback _, after => after = none

/-- The step of the window behind a verdict. -/
def Verdict.step : Verdict → WindowStep
  | .stale => .stale
  | .keep c => .keep c.window
  | .promote c => .promote c.window
  | .discard c => .discard c.window
  | .rollback c => .rollback c.window

theorem Candidate.close_window (c : Candidate) : c.close.step = c.window.close := by
  unfold close Window.close
  by_cases hfull : c.WindowFull
  · have hfull' : promotionWindow ≤ c.window.rewards.length ∧
        promotionBaseSamples ≤ c.window.baseSamples.length := hfull
    rw [if_pos hfull, if_pos hfull']
    by_cases hlift : Bandit.mean c.rewards > Bandit.mean c.baseSamples + promotionLift
    · rw [if_pos hlift]
      exact (if_pos hlift).symm
    · rw [if_neg hlift]
      exact (if_neg hlift).symm
  · have hfull' : ¬ (promotionWindow ≤ c.window.rewards.length ∧
        promotionBaseSamples ≤ c.window.baseSamples.length) := hfull
    rw [if_neg hfull, if_neg hfull']
    rfl

/-- **The verdict on a sample is that of the window.** -/
theorem Candidate.judge_window (c : Candidate) (u : UpdateCall) :
    (c.judge u.profileID u.adjusted u.weight).step = c.window.judge (u.sample c.profileID c.baseID) := by
  unfold judge UpdateCall.sample
  by_cases hcand : u.profileID = c.profileID
  · rw [if_pos hcand, if_pos hcand]
    have hrecord : (c.record u.adjusted u.weight).window = c.window.record ⟨.candidate, u.adjusted, u.weight⟩ := rfl
    show _ = if rollbackStrikes ≤ (c.record u.adjusted u.weight).consecBad then
      WindowStep.rollback (c.record u.adjusted u.weight).window else (c.record u.adjusted u.weight).window.close
    by_cases hstrikes : rollbackStrikes ≤ (c.record u.adjusted u.weight).consecBad
    · rw [if_pos hstrikes, if_pos hstrikes]
      rfl
    · rw [if_neg hstrikes, if_neg hstrikes]
      exact close_window _
  · rw [if_neg hcand, if_neg hcand]
    by_cases hbase : u.profileID = c.baseID
    · rw [if_pos hbase, if_pos hbase]
      exact close_window _
    · rw [if_neg hbase, if_neg hbase]
      rfl

/-- A verdict keeps the test. -/
theorem Candidate.sameTest_of_leaves {c c' : Candidate} {u : UpdateCall}
    (h : (c.judge u.profileID u.adjusted u.weight).Leaves c (some c')) :
    c'.profileID = c.profileID ∧ c'.baseID = c.baseID := by
  obtain hv | ⟨d, hd, ⟨hv, -, -⟩ | hv | hv | hv⟩ := c.judge_cases u.profileID u.adjusted u.weight
  · rw [hv] at h
    obtain rfl := Option.some.inj h
    exact ⟨rfl, rfl⟩
  · rw [hv] at h
    obtain rfl := Option.some.inj h
    exact ⟨hd.profileID, hd.baseID⟩
  · rw [hv] at h
    obtain h | h := h
    · cases h
    · obtain rfl := Option.some.inj h
      exact ⟨hd.profileID, hd.baseID⟩
  · rw [hv] at h
    cases h
  · rw [hv] at h
    cases h

theorem Verdict.leaves_window {c : Candidate} {v : Verdict} {after : Option Candidate} (h : v.Leaves c after) :
    v.step.Leaves c.window (after.map Candidate.window) := by
  cases v with
  | stale =>
    rw [show after = some c from h]
    rfl
  | keep c' =>
    rw [show after = some c' from h]
    rfl
  | promote c' =>
    -- a promotion that cannot be stored leaves the test in its slot
    obtain h | h := h
    · rw [h]
      exact .inl rfl
    · rw [h]
      exact .inr rfl
  | discard c' =>
    rw [show after = none from h]
    rfl
  | rollback c' =>
    rw [show after = none from h]
    rfl

namespace Bandit

variable (intent repo topic : String)

/-- A sequence of calls of `Update` on a bucket. -/
def updates : Bandit → List UpdateCall → Prog (redis F) Bandit
  | b, [] => return b
  | b, u :: us => do
    let b ← b.update intent repo topic u.profileID u.adjusted u.weight u.now
    updates b us

/-- The call has the candidate of the bucket promoted. -/
def Promotes (b : Bandit) (u : UpdateCall) : Prop :=
  ∃ c c', b.active (banditKey intent repo topic) = some c ∧
    c.judge u.profileID u.adjusted u.weight = .promote c'

variable {intent repo topic}

theorem updates_append (b : Bandit) (us : List UpdateCall) (u : UpdateCall) :
    updates (F := F) intent repo topic b (us ++ [u]) = (updates intent repo topic b us >>= fun b =>
      b.update intent repo topic u.profileID u.adjusted u.weight u.now) := by
  induction us generalizing b with
  | nil =>
    show (b.update intent repo topic u.profileID u.adjusted u.weight u.now >>= fun b => pure b) =
      b.update intent repo topic u.profileID u.adjusted u.weight u.now
    rw [bind_pure]
  | cons v us ih =>
    show (b.update intent repo topic v.profileID v.adjusted v.weight v.now >>= fun b =>
      updates intent repo topic b (us ++ [u])) = _
    simp only [ih]
    exact (bind_assoc _ _ _).symm

/-- Whatever fails, a verdict leaves in the slot what it says. -/
theorem carryOut_leaves (b : Bandit) {key : String} {c : Candidate} (hc : b.active key = some c) (now : Int)
    (v : Verdict) (r : Redis F) : (b.carryOut key now v).wp (fun b' _ => v.Leaves c (b'.active key)) r := by
  -- a slot that is deleted is empty
  have hgone : ∀ c' : Candidate, ((b.put key c').delete key).active key = none := by
    intro c'
    rw [delete_active, Function.update_self]
  cases v with
  | stale => exact hc
  | keep c' => exact Function.update_self key (some c') b.active
  | promote c' =>
    -- the promoted profile is stored first; only then is the slot emptied
    unfold carryOut promote
    refine (wp_bind _ _ _ _).mpr (wp_of_forall _ (fun e r' => ?_) _)
    cases e with
    | some e => exact .inr (by rw [put_active, Function.update_self])
    | none => exact (wp_bind _ _ _ _).mpr (wp_of_forall _ (fun _ _ => .inl (hgone c')) _)
  | discard c' =>
    unfold carryOut discard
    exact (wp_bind _ _ _ _).mpr (wp_of_forall _ (fun _ _ => hgone c') _)
  | rollback c' =>
    unfold carryOut rollback
    refine (wp_bind _ _ _ _).mpr (wp_of_forall _ (fun d _ => ?_) _)
    refine (wp_bind _ _ _ _).mpr (wp_of_forall _ (fun _ _ => ?_) _)
    exact (wp_bind _ _ _ _).mpr (wp_of_forall _ (fun _ _ => hgone c') _)

/-- The slot of a bucket after a sequence of calls, from a fresh candidate. -/
structure Tracks (b : Bandit) (key cand base : String) (us : List UpdateCall) : Prop where
  runs : Window.Runs (us.map (·.sample cand base)) ((b.active key).map Candidate.window)
  same : ∀ c, b.active key = some c → c.profileID = cand ∧ c.baseID = base

/-- One call. -/
theorem Tracks.update {b : Bandit} {cand base : String} {us : List UpdateCall}
    (h : b.Tracks (banditKey intent repo topic) cand base us) (u : UpdateCall) (r : Redis F) :
    (b.update intent repo topic u.profileID u.adjusted u.weight u.now).wp
      (fun b' _ => b'.Tracks (banditKey intent repo topic) cand base (us ++ [u])) r := by
  obtain ⟨hruns, hsame⟩ := h
  cases hactive : b.active (banditKey intent repo topic) with
  | none =>
    -- no test: the call is for nothing, and the slot stays gone
    rw [update_none b u.profileID u.adjusted u.weight u.now hactive]
    rw [hactive] at hruns
    refine ⟨?_, fun c hc => absurd (hactive.symm.trans hc) (by simp)⟩
    rw [hactive, List.map_append]
    exact .gone hruns
  | some c =>
    rw [update_eq b u.profileID u.adjusted u.weight u.now hactive]
    obtain ⟨hcand, hbase⟩ := hsame c hactive
    rw [hactive] at hruns
    refine wp_mono (carryOut_leaves b hactive u.now _ r) fun b' _ hleaves => ⟨?_, fun c' hc' => ?_⟩
    · -- the window takes the step that the verdict says
      rw [List.map_append]
      refine .step hruns ?_
      rw [← hcand, ← hbase, ← c.judge_window u]
      exact Verdict.leaves_window hleaves
    · rw [hc'] at hleaves
      obtain ⟨hp, hb⟩ := Candidate.sameTest_of_leaves hleaves
      exact ⟨hp.trans hcand, hb.trans hbase⟩

/-- A run of calls, whatever fails. -/
theorem updates_tracks {b : Bandit} {base cand : Profile}
    (hfresh : b.active (banditKey intent repo topic) = some (.fresh intent repo topic base cand))
    (us : List UpdateCall) (r : Redis F) :
    (updates intent repo topic b us).wp
      (fun b' _ => b'.Tracks (banditKey intent repo topic) cand.id base.id us) r := by
  induction us using List.reverseRecOn with
  | nil =>
    refine ⟨?_, fun c hc => ?_⟩
    · rw [hfresh]
      exact .fresh
    · obtain rfl := Option.some.inj (hfresh.symm.trans hc)
      exact ⟨rfl, rfl⟩
  | append_singleton us u ih =>
    rw [updates_append, wp_bind]
    exact wp_mono ih fun b' r' h => h.update u r'

end Bandit

/-! ### The window of the source bandit -/

/-- A call of `SourceBandit.Update` on a bucket. -/
structure SourceCall where
  source : String
  servedVal : Int
  adjusted : ℚ
  weight : ℚ
  now : Int

/-- The sample of a call, where the source and the two breadths are known. -/
def SourceCall.sample (source : String) (val base : Int) (u : SourceCall) : ArmSample :=
  ⟨if source ≠ u.source then .stale
    else if u.servedVal = val then .candidate else if u.servedVal = base then .base else .stale, u.adjusted, u.weight⟩

namespace SourceCandidate

def window (c : SourceCandidate) : Window := ⟨c.rewards, c.baseSamples, c.consecBad⟩

/-- The candidate with another window. -/
def withWindow (c : SourceCandidate) (w : Window) : SourceCandidate :=
  { c with rewards := w.rewards, baseSamples := w.baseSamples, consecBad := w.consecBad }

/-- The window's decision on a call. -/
def judge (c : SourceCandidate) (u : SourceCall) : WindowStep := c.window.judge (u.sample c.source c.val c.base)

end SourceCandidate

namespace SourceBandit

/-- Carrying out a decision. -/
def carryOut (b : SourceBandit) (key : String) (c : SourceCandidate) (now : Int) :
    WindowStep → Prog sourceRedis SourceBandit
  | .stale => return b
  | .keep w => return b.put key (c.withWindow w)
  | .promote w => (b.put key (c.withWindow w)).promote key (c.withWindow w) now
  | .discard w => return (b.put key (c.withWindow w)).delete key
  | .rollback w =>
    (b.put key (c.withWindow w)).rollback key (c.withWindow w)
      "3-strike rollback (source candidate underperforming)" now

theorem checkPromotion_eq (b : SourceBandit) (key : String) (c : SourceCandidate) (w : Window) (now : Int) :
    (b.put key (c.withWindow w)).checkPromotion key (c.withWindow w) now = b.carryOut key c now w.close := by
  unfold checkPromotion Window.close
  by_cases hfull : promotionWindow ≤ w.rewards.length ∧ promotionBaseSamples ≤ w.baseSamples.length
  · have hfull' : (c.withWindow w).rewards.length ≥ promotionWindow ∧ (c.withWindow w).baseSamples.length ≥ 5 := hfull
    rw [if_pos hfull, if_pos hfull']
    by_cases hlift : Bandit.mean w.baseSamples + promotionLift < Bandit.mean w.rewards
    · rw [if_pos hlift, if_pos (show wins (c.withWindow w) from hlift)]
      rfl
    · rw [if_neg hlift, if_neg (show ¬ wins (c.withWindow w) from hlift)]
      rfl
  · have hfull' : ¬ ((c.withWindow w).rewards.length ≥ promotionWindow ∧
        (c.withWindow w).baseSamples.length ≥ 5) := hfull
    rw [if_neg hfull, if_neg hfull']
    rfl

variable {intent repo topic : String}

theorem update_none (b : SourceBandit) (u : SourceCall) (h : b.active (banditKey intent repo topic) = none) :
    b.update intent repo topic u.source u.servedVal u.adjusted u.weight u.now = return b := by
  unfold update
  simp only [h]

/-- **`update` carries out the window's decision.** -/
theorem update_eq (b : SourceBandit) (u : SourceCall) {c : SourceCandidate}
    (h : b.active (banditKey intent repo topic) = some c) :
    b.update intent repo topic u.source u.servedVal u.adjusted u.weight u.now =
      b.carryOut (banditKey intent repo topic) c u.now (c.judge u) := by
  unfold update SourceCandidate.judge SourceCall.sample
  -- the same cases as in `judge`, one after the other
  simp only [h]
  by_cases hsource : c.source = u.source
  · rw [if_neg (not_not.mpr hsource), if_neg (not_not.mpr hsource)]
    by_cases hval : u.servedVal = c.val
    · rw [if_pos hval, if_pos hval]
      have hrecord : ∀ n, { c with rewards := c.rewards ++ [u.adjusted * u.weight], consecBad := n } =
          c.withWindow ⟨c.rewards ++ [u.adjusted * u.weight], c.baseSamples, n⟩ := fun _ => rfl
      unfold Window.judge Window.record
      dsimp only
      by_cases hbad : u.adjusted < rollbackThreshold
      · simp only [if_pos hbad]
        by_cases hstrikes : rollbackStrikes ≤ c.consecBad + 1
        · rw [if_pos hstrikes, if_pos (show rollbackStrikes ≤ c.window.consecBad + 1 from hstrikes)]
          rfl
        · rw [if_neg hstrikes, if_neg (show ¬ rollbackStrikes ≤ c.window.consecBad + 1 from hstrikes), hrecord]
          exact checkPromotion_eq b _ c _ u.now
      · simp only [if_neg hbad]
        rw [if_neg (show ¬ rollbackStrikes ≤ 0 by decide), hrecord]
        exact checkPromotion_eq b _ c _ u.now
    · rw [if_neg hval, if_neg hval]
      by_cases hbase : u.servedVal = c.base
      · rw [if_pos hbase, if_pos hbase]
        exact checkPromotion_eq b _ c ⟨c.rewards, c.baseSamples ++ [u.adjusted * u.weight], c.consecBad⟩ u.now
      · rw [if_neg hbase, if_neg hbase]
        rfl
  · rw [if_pos hsource, if_pos hsource]
    rfl

/-- Whatever fails, a decision leaves in the slot what it says, for the same test. -/
theorem carryOut_leaves (b : SourceBandit) {key : String} {c : SourceCandidate} (hc : b.active key = some c)
    (now : Int) (v : WindowStep) (db : SourceDb) : (b.carryOut key c now v).wp (fun b' _ =>
      v.Leaves c.window ((b'.active key).map SourceCandidate.window) ∧
        ∀ c', b'.active key = some c' → c.Resampled c') db := by
  -- a write puts the same cell with another window into the slot
  have hput : ∀ w, ((b.put key (c.withWindow w)).active key).map SourceCandidate.window = some w ∧
      ∀ c', (b.put key (c.withWindow w)).active key = some c' → c.Resampled c' := by
    intro w
    rw [put_active, Function.update_self]
    refine ⟨rfl, fun c' hc' => ?_⟩
    obtain rfl := Option.some.inj hc'
    exact .with c _ _ _
  have hgone : ∀ w, (((b.put key (c.withWindow w)).delete key).active key).map SourceCandidate.window = none ∧
      ∀ c', ((b.put key (c.withWindow w)).delete key).active key = some c' → c.Resampled c' := by
    intro w
    rw [delete_active, Function.update_self]
    exact ⟨rfl, fun c' hc' => absurd hc' (by simp)⟩
  cases v with
  | stale =>
    refine ⟨?_, fun c' hc' => ?_⟩
    · rw [hc]
      rfl
    · obtain rfl := Option.some.inj (hc.symm.trans hc')
      exact ⟨rfl, rfl, rfl⟩
  | keep w => exact hput w
  | promote w =>
    -- the promoted value is stored first; only then is the slot emptied
    unfold carryOut promote
    refine (wp_bind _ _ _ _).mpr (wp_of_forall _ (fun e _ => ?_) _)
    cases e with
    | some e => exact ⟨.inr (hput w).1, (hput w).2⟩
    | none =>
      exact (wp_bind _ _ _ _).mpr (wp_of_forall _ (fun _ _ => ⟨.inl (hgone w).1, (hgone w).2⟩) _)
  | discard w => exact hgone w
  | rollback w =>
    unfold carryOut rollback
    refine (wp_bind _ _ _ _).mpr (wp_of_forall _ (fun d _ => ?_) _)
    refine (wp_bind _ _ _ _).mpr (wp_of_forall _ (fun _ _ => ?_) _)
    exact (wp_bind _ _ _ _).mpr (wp_of_forall _ (fun _ _ => hgone w) _)

variable (intent repo topic)

/-- A sequence of calls of `Update` on a bucket. -/
def updates : SourceBandit → List SourceCall → Prog sourceRedis SourceBandit
  | b, [] => return b
  | b, u :: us => do
    let b ← b.update intent repo topic u.source u.servedVal u.adjusted u.weight u.now
    updates b us

/-- The call has the candidate of the bucket promoted. -/
def Promotes (b : SourceBandit) (u : SourceCall) : Prop :=
  ∃ c w, b.active (banditKey intent repo topic) = some c ∧ c.judge u = .promote w

variable {intent repo topic}

theorem updates_append (b : SourceBandit) (us : List SourceCall) (u : SourceCall) :
    updates intent repo topic b (us ++ [u]) = (updates intent repo topic b us >>= fun b =>
      b.update intent repo topic u.source u.servedVal u.adjusted u.weight u.now) := by
  induction us generalizing b with
  | nil =>
    show (b.update intent repo topic u.source u.servedVal u.adjusted u.weight u.now >>= fun b => pure b) =
      b.update intent repo topic u.source u.servedVal u.adjusted u.weight u.now
    rw [bind_pure]
  | cons v us ih =>
    show (b.update intent repo topic v.source v.servedVal v.adjusted v.weight v.now >>= fun b =>
      updates intent repo topic b (us ++ [u])) = _
    simp only [ih]
    exact (bind_assoc _ _ _).symm

/-- The slot of a bucket after a sequence of calls, from a fresh candidate. -/
structure Tracks (b : SourceBandit) (key source : String) (val base : Int) (us : List SourceCall) : Prop where
  runs : Window.Runs (us.map (·.sample source val base)) ((b.active key).map SourceCandidate.window)
  same : ∀ c, b.active key = some c → c.source = source ∧ c.val = val ∧ c.base = base

/-- One call. -/
theorem Tracks.update {b : SourceBandit} {source : String} {val base : Int} {us : List SourceCall}
    (h : b.Tracks (banditKey intent repo topic) source val base us) (u : SourceCall) (db : SourceDb) :
    (b.update intent repo topic u.source u.servedVal u.adjusted u.weight u.now).wp
      (fun b' _ => b'.Tracks (banditKey intent repo topic) source val base (us ++ [u])) db := by
  obtain ⟨hruns, hsame⟩ := h
  cases hactive : b.active (banditKey intent repo topic) with
  | none =>
    -- no test: the call is for nothing, and the slot stays gone
    rw [update_none b u hactive]
    rw [hactive] at hruns
    refine ⟨?_, fun c hc => absurd (hactive.symm.trans hc) (by simp)⟩
    rw [hactive, List.map_append]
    exact .gone hruns
  | some c =>
    rw [update_eq b u hactive]
    obtain ⟨hsource, hval, hbase⟩ := hsame c hactive
    rw [hactive] at hruns
    refine wp_mono (carryOut_leaves b hactive u.now _ db) fun b' _ ⟨hleaves, hresampled⟩ => ⟨?_, fun c' hc' => ?_⟩
    · -- the window takes the step that the verdict says
      rw [List.map_append]
      refine .step hruns ?_
      rw [← hsource, ← hval, ← hbase]
      exact hleaves
    · have hc := hresampled c' hc'
      exact ⟨(congrArg SourceCell.source hc.cell).trans hsource, hc.val.trans hval, hc.base.trans hbase⟩

/-- A run of calls, whatever fails. -/
theorem updates_tracks {b : SourceBandit} {source : String} {val base : Int}
    (hfresh : b.active (banditKey intent repo topic) = some ⟨intent, repo, topic, source, val, base, [], [], 0⟩)
    (us : List SourceCall) (db : SourceDb) :
    (updates intent repo topic b us).wp
      (fun b' _ => b'.Tracks (banditKey intent repo topic) source val base us) db := by
  induction us using List.reverseRecOn with
  | nil =>
    refine ⟨?_, fun c hc => ?_⟩
    · rw [hfresh]
      exact .fresh
    · obtain rfl := Option.some.inj (hfresh.symm.trans hc)
      exact ⟨rfl, rfl, rfl⟩
  | append_singleton us u ih =>
    rw [updates_append, wp_bind]
    exact wp_mono ih fun b' r' h => h.update u r'

end SourceBandit

/-! ### The law of promotions -/

/-- Samples that differ in the reward alone. -/
theorem rewarded_of_same {s t : ArmSample} (h : t.rewarded 0 = s.rewarded 0) : s.rewarded t.adjusted = t := by
  have harm := congrArg ArmSample.arm h
  have hweight := congrArg ArmSample.weight h
  simp only [ArmSample.rewarded] at harm hweight
  unfold ArmSample.rewarded
  rw [← harm, ← hweight]

/-- Calls with the rewards of given samples. -/
theorem exists_calls {C : Type} (sample : C → ArmSample) (reward : C → ℚ → C)
    (hsample : ∀ u x, sample (reward u x) = (sample u).rewarded x)
    (hreward : ∀ u x y, reward (reward u x) y = reward u y) {us : List C} {ss : List ArmSample}
    (h : SameSchedule ss (us.map sample)) :
    ∃ vs : List C, vs.map (reward · 0) = us.map (reward · 0) ∧ vs.map sample = ss := by
  unfold SameSchedule at h
  induction us generalizing ss with
  | nil => exact ⟨[], rfl, (List.map_eq_nil_iff.mp h).symm⟩
  | cons u us ih =>
    cases ss with
    | nil => exact absurd h (by simp)
    | cons s ss =>
      rw [List.map_cons, List.map_cons, List.map_cons, List.cons.injEq] at h
      obtain ⟨vs, hvs, hss⟩ := ih h.2
      refine ⟨reward u s.adjusted :: vs, ?_, ?_⟩
      · rw [List.map_cons, List.map_cons, hvs, hreward]
      · rw [List.map_cons, hss, hsample, rewarded_of_same h.1]

def UpdateCall.rewarded (u : UpdateCall) (x : ℚ) : UpdateCall := { u with adjusted := x }

def SourceCall.rewarded (u : SourceCall) (x : ℚ) : SourceCall := { u with adjusted := x }

/-- What the calls of a bucket promote, from a bandit with a candidate under test: by the normalised means, where
the arms have the same mean weight when the window closes; otherwise not for all rewards. -/
structure Bandit.PromotionLaw (b : Bandit) (r : Redis F) (intent repo topic cand base : String) : Prop where
  balanced : ∀ (us : List UpdateCall) (u : UpdateCall) (b' : Bandit) (r' : Redis F),
    Outcome (updates intent repo topic b us) r b' r' → b'.Promotes intent repo topic u →
    Weighed ((us ++ [u]).map (·.sample cand base)) → Balanced ((us ++ [u]).map (·.sample cand base)) →
    Lifted ((us ++ [u]).map (·.sample cand base))
  unbalanced : ∀ (us : List UpdateCall) (u : UpdateCall), Weighed ((us ++ [u]).map (·.sample cand base)) →
    ¬ Full (us.map (·.sample cand base)) → Full ((us ++ [u]).map (·.sample cand base)) →
    ¬ Balanced ((us ++ [u]).map (·.sample cand base)) →
    ∃ us' u', us'.map (·.rewarded 0) = us.map (·.rewarded 0) ∧ u'.rewarded 0 = u.rewarded 0 ∧
      ((updates intent repo topic b us').run r).1.Promotes intent repo topic u' ∧
      ¬ Lifted ((us' ++ [u']).map (·.sample cand base))

/-- The same of the source bandit. -/
structure SourceBandit.PromotionLaw (b : SourceBandit) (db : SourceDb) (intent repo topic source : String)
    (val base : Int) : Prop where
  balanced : ∀ (us : List SourceCall) (u : SourceCall) (b' : SourceBandit) (db' : SourceDb),
    Outcome (updates intent repo topic b us) db b' db' → b'.Promotes intent repo topic u →
    Weighed ((us ++ [u]).map (·.sample source val base)) → Balanced ((us ++ [u]).map (·.sample source val base)) →
    Lifted ((us ++ [u]).map (·.sample source val base))
  unbalanced : ∀ (us : List SourceCall) (u : SourceCall), Weighed ((us ++ [u]).map (·.sample source val base)) →
    ¬ Full (us.map (·.sample source val base)) → Full ((us ++ [u]).map (·.sample source val base)) →
    ¬ Balanced ((us ++ [u]).map (·.sample source val base)) →
    ∃ us' u', us'.map (·.rewarded 0) = us.map (·.rewarded 0) ∧ u'.rewarded 0 = u.rewarded 0 ∧
      ((updates intent repo topic b us').run db).1.Promotes intent repo topic u' ∧
      ¬ Lifted ((us' ++ [u']).map (·.sample source val base))

namespace Bandit

variable {intent repo topic : String}

/-- A promotion of the bandit is one of the window. -/
theorem Promotes.judge {b : Bandit} {cand base : String} {us : List UpdateCall} {u : UpdateCall}
    (h : b.Promotes intent repo topic u) (ht : b.Tracks (banditKey intent repo topic) cand base us) :
    ∃ w w', Window.Runs (us.map (·.sample cand base)) (some w) ∧ w.judge (u.sample cand base) = .promote w' := by
  obtain ⟨c, c', hactive, hjudge⟩ := h
  obtain ⟨hcand, hbase⟩ := ht.same c hactive
  have hruns := ht.runs
  rw [hactive] at hruns
  refine ⟨c.window, c'.window, hruns, ?_⟩
  rw [← hcand, ← hbase, ← c.judge_window u, hjudge]
  rfl

theorem promotes_of_judge {b : Bandit} {cand base : String} {us : List UpdateCall} {u : UpdateCall} {w w' : Window}
    (ht : b.Tracks (banditKey intent repo topic) cand base us)
    (hslot : (b.active (banditKey intent repo topic)).map Candidate.window = some w)
    (hjudge : w.judge (u.sample cand base) = .promote w') : b.Promotes intent repo topic u := by
  obtain ⟨c, hactive, rfl⟩ := Option.map_eq_some_iff.mp hslot
  obtain ⟨hcand, hbase⟩ := ht.same c hactive
  rw [← hcand, ← hbase, ← c.judge_window u] at hjudge
  cases hv : c.judge u.profileID u.adjusted u.weight with
  | promote c' => exact ⟨c, c', hactive, hv⟩
  | stale =>
    -- no other verdict is one of promotion
    rw [hv] at hjudge
    cases hjudge
  | keep c' =>
    rw [hv] at hjudge
    cases hjudge
  | discard c' =>
    rw [hv] at hjudge
    cases hjudge
  | rollback c' =>
    rw [hv] at hjudge
    cases hjudge

theorem promotionLaw {b : Bandit} {base cand : Profile} (r : Redis F)
    (hfresh : b.active (banditKey intent repo topic) = some (.fresh intent repo topic base cand)) :
    b.PromotionLaw r intent repo topic cand.id base.id where
  balanced us u b' r' hrun hpromotes hweighed hbalanced := by
    obtain ⟨w, w', hruns, hjudge⟩ := hpromotes.judge (hrun.of_wp (updates_tracks hfresh us r))
    rw [List.map_append] at hweighed hbalanced ⊢
    exact lifted_of_promoted hruns hjudge hweighed hbalanced
  unbalanced us u hweighed hopen hfull hunbalanced := by
    rw [List.map_append] at hweighed hfull hunbalanced
    obtain ⟨ss, s, hss, hs, halive, hjudge, hnot⟩ := exists_unlifted hweighed hopen hfull hunbalanced
    obtain ⟨us', hus', rfl⟩ := exists_calls (·.sample cand.id base.id) UpdateCall.rewarded (fun _ _ => rfl)
      (fun _ _ _ => rfl) hss
    have ht := run_of_wp (updates_tracks hfresh us' r)
    have hu : (u.rewarded s.adjusted).sample cand.id base.id = s := rewarded_of_same hs
    rw [← hu] at hjudge
    refine ⟨us', u.rewarded s.adjusted, hus', rfl, promotes_of_judge ht (halive _ ht.runs) hjudge, ?_⟩
    rw [List.map_append, List.map_singleton, hu]
    exact hnot

end Bandit

namespace SourceBandit

variable {intent repo topic : String}

/-- A promotion of the bandit is one of the window. -/
theorem Promotes.judge {b : SourceBandit} {source : String} {val base : Int} {us : List SourceCall} {u : SourceCall}
    (h : b.Promotes intent repo topic u) (ht : b.Tracks (banditKey intent repo topic) source val base us) :
    ∃ w w', Window.Runs (us.map (·.sample source val base)) (some w) ∧
      w.judge (u.sample source val base) = .promote w' := by
  obtain ⟨c, w', hactive, hjudge⟩ := h
  obtain ⟨hsource, hval, hbase⟩ := ht.same c hactive
  have hruns := ht.runs
  rw [hactive] at hruns
  refine ⟨c.window, w', hruns, ?_⟩
  rw [← hsource, ← hval, ← hbase]
  exact hjudge

theorem promotes_of_judge {b : SourceBandit} {source : String} {val base : Int} {us : List SourceCall}
    {u : SourceCall} {w w' : Window} (ht : b.Tracks (banditKey intent repo topic) source val base us)
    (hslot : (b.active (banditKey intent repo topic)).map SourceCandidate.window = some w)
    (hjudge : w.judge (u.sample source val base) = .promote w') : b.Promotes intent repo topic u := by
  obtain ⟨c, hactive, rfl⟩ := Option.map_eq_some_iff.mp hslot
  obtain ⟨hsource, hval, hbase⟩ := ht.same c hactive
  rw [← hsource, ← hval, ← hbase] at hjudge
  exact ⟨c, w', hactive, hjudge⟩

theorem promotionLaw {b : SourceBandit} {source : String} {val base : Int} (db : SourceDb)
    (hfresh : b.active (banditKey intent repo topic) = some ⟨intent, repo, topic, source, val, base, [], [], 0⟩) :
    b.PromotionLaw db intent repo topic source val base where
  balanced us u b' db' hrun hpromotes hweighed hbalanced := by
    obtain ⟨w, w', hruns, hjudge⟩ := hpromotes.judge (hrun.of_wp (updates_tracks hfresh us db))
    rw [List.map_append] at hweighed hbalanced ⊢
    exact lifted_of_promoted hruns hjudge hweighed hbalanced
  unbalanced us u hweighed hopen hfull hunbalanced := by
    rw [List.map_append] at hweighed hfull hunbalanced
    obtain ⟨ss, s, hss, hs, halive, hjudge, hnot⟩ := exists_unlifted hweighed hopen hfull hunbalanced
    obtain ⟨us', hus', rfl⟩ := exists_calls (·.sample source val base) SourceCall.rewarded (fun _ _ => rfl)
      (fun _ _ _ => rfl) hss
    have ht := run_of_wp (updates_tracks hfresh us' db)
    have hu : (u.rewarded s.adjusted).sample source val base = s := rewarded_of_same hs
    rw [← hu] at hjudge
    refine ⟨us', u.rewarded s.adjusted, hus', rfl, promotes_of_judge ht (halive _ ht.runs) hjudge, ?_⟩
    rw [List.map_append, List.map_singleton, hu]
    exact hnot

end SourceBandit

/-- **Promotion and the means**, of both bandits. -/
theorem promotion_means {b : Bandit} {intent repo topic : String} {base cand : Profile} (r : Redis F)
    (hfresh : b.active (banditKey intent repo topic) = some (.fresh intent repo topic base cand))
    {sb : SourceBandit} {source : String} {val baseVal : Int} (db : SourceDb)
    (hsource : sb.active (banditKey intent repo topic) = some ⟨intent, repo, topic, source, val, baseVal, [], [], 0⟩) :
    b.PromotionLaw r intent repo topic cand.id base.id ∧ sb.PromotionLaw db intent repo topic source val baseVal :=
  ⟨Bandit.promotionLaw r hfresh, SourceBandit.promotionLaw db hsource⟩

/-! ### A window of explicit and implicit samples -/

/-- The debug profile with one more document of one kind. -/
def widerDebug : Profile := (Profile.default "debug").bump .maxTrace 1

/-- A bandit with that profile under test. -/
def debugBandit : Bandit :=
  (Bandit.new []).put (banditKey "debug" "" "*") (.fresh "debug" "" "*" (Profile.default "debug") widerDebug)

/-- A source bandit with one more document under test. -/
def docsBandit : SourceBandit :=
  (SourceBandit.new true).put (banditKey "debug" "" "*") ⟨"debug", "", "*", "docs", 6, 5, [], [], 0⟩

theorem debugBandit_active : debugBandit.active (banditKey "debug" "" "*") =
    some (.fresh "debug" "" "*" (Profile.default "debug") widerDebug) := by
  unfold debugBandit
  rw [Bandit.put_active, Function.update_self]

theorem docsBandit_active : docsBandit.active (banditKey "debug" "" "*") =
    some ⟨"debug", "", "*", "docs", 6, 5, [], [], 0⟩ := by
  unfold docsBandit
  rw [SourceBandit.put_active, Function.update_self]

theorem debugBandit_law : debugBandit.PromotionLaw (Redis.empty ℚ) "debug" "" "*" widerDebug.id
      (Profile.default "debug").id ∧ docsBandit.PromotionLaw SourceDb.empty "debug" "" "*" "docs" 6 5 :=
  promotion_means (Redis.empty ℚ) debugBandit_active SourceDb.empty docsBandit_active

/-- Five implicit samples of the base, then explicit ones of the candidate, all rewarded alike. -/
def mixedCalls (n : Nat) : List UpdateCall :=
  List.replicate 5 ⟨(Profile.default "debug").id, 4 / 5, 1 / 2, 0⟩ ++ List.replicate n ⟨widerDebug.id, 4 / 5, 1, 0⟩

def mixedSourceCalls (n : Nat) : List SourceCall :=
  List.replicate 5 ⟨"docs", 5, 4 / 5, 1 / 2, 0⟩ ++ List.replicate n ⟨"docs", 6, 4 / 5, 1, 0⟩

instance (us : List ArmSample) : Decidable (Lifted us) := inferInstanceAs (Decidable (_ < _))

def Verdict.isPromotion : Verdict → Bool
  | .promote _ => true
  | _ => false

def WindowStep.isPromotion : WindowStep → Bool
  | .promote _ => true
  | _ => false

theorem Bandit.promotes_of_isPromotion {b : Bandit} {intent repo topic : String} {u : UpdateCall}
    (h : ((b.active (banditKey intent repo topic)).any fun c =>
      (c.judge u.profileID u.adjusted u.weight).isPromotion) = true) : b.Promotes intent repo topic u := by
  obtain ⟨c, hactive, hc⟩ := (Option.any_eq_true _ _).mp h
  cases hv : c.judge u.profileID u.adjusted u.weight with
  | promote c' => exact ⟨c, c', hactive, hv⟩
  | stale | keep | discard | rollback =>
    rw [hv] at hc
    cases hc

theorem SourceBandit.promotes_of_isPromotion {b : SourceBandit} {intent repo topic : String} {u : SourceCall}
    (h : ((b.active (banditKey intent repo topic)).any fun c => (c.judge u).isPromotion) = true) :
    b.Promotes intent repo topic u := by
  obtain ⟨c, hactive, hc⟩ := (Option.any_eq_true _ _).mp h
  cases hv : c.judge u with
  | promote w => exact ⟨c, w, hactive, hv⟩
  | stale | keep | discard | rollback =>
    rw [hv] at hc
    cases hc

/-- The candidates are promoted although every sample has the same reward. -/
theorem mixed_promoted :
    (((Bandit.updates "debug" "" "*" debugBandit (mixedCalls 19)).run (Redis.empty ℚ)).1.Promotes "debug" "" "*"
        ⟨widerDebug.id, 4 / 5, 1, 0⟩ ∧
      ¬ Lifted ((mixedCalls 20).map (·.sample widerDebug.id (Profile.default "debug").id))) ∧
    ((SourceBandit.updates "debug" "" "*" docsBandit (mixedSourceCalls 19)).run SourceDb.empty).1.Promotes "debug" ""
        "*" ⟨"docs", 6, 4 / 5, 1, 0⟩ ∧
      ¬ Lifted ((mixedSourceCalls 20).map (·.sample "docs" 6 5)) := by
  refine ⟨⟨Bandit.promotes_of_isPromotion ?_, ?_⟩, SourceBandit.promotes_of_isPromotion ?_, ?_⟩
  · decide +kernel
  · decide +kernel
  · decide +kernel
  · decide +kernel

end Devrouter
