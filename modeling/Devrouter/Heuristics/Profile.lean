import Mathlib.Tactic.Common
import Mathlib.Order.Basic
import Mathlib.Algebra.Group.Nat.Defs

/-!
# Profiles: the tunable knobs of one intent

Model of `internal/heuristics/profile.go`. A `Profile` is the record of the twelve knobs; `Knob`
names its fields, so that what the source repeats once per field (`Clip`, the switch of
`Bandit.perturb`, the format of `ID`) is one definition over `Knob`.
-/

namespace Devrouter

/-- The twelve tunable knobs, in the order of the fields of `Profile`. -/
inductive Knob where
  | maxTrace | callerHops | maxUpstream | maxDownstream | maxImporters | maxMethods | maxSiblings
  | maxSnippets | maxImpact | maxSymbols | maxPrimaryCtx | maxDecisions
  deriving DecidableEq, Repr

/-- The knobs as the source names them (`allKnobs`). -/
def Knob.name : Knob → String
  | .maxTrace => "max_trace"
  | .callerHops => "caller_hops"
  | .maxUpstream => "max_upstream"
  | .maxDownstream => "max_downstream"
  | .maxImporters => "max_importers"
  | .maxMethods => "max_methods"
  | .maxSiblings => "max_siblings"
  | .maxSnippets => "max_snippets"
  | .maxImpact => "max_impact"
  | .maxSymbols => "max_symbols"
  | .maxPrimaryCtx => "max_primary_ctx"
  | .maxDecisions => "max_decisions"

/-- Every knob, in field order. -/
def allKnobs : List Knob :=
  [.maxTrace, .callerHops, .maxUpstream, .maxDownstream, .maxImporters, .maxMethods, .maxSiblings,
    .maxSnippets, .maxImpact, .maxSymbols, .maxPrimaryCtx, .maxDecisions]

theorem mem_allKnobs (k : Knob) : k ∈ allKnobs := by cases k <;> decide

/-- The knob with a given name; `none` for a name the switch of `perturb` has no case for. -/
def Knob.ofName? (s : String) : Option Knob := allKnobs.find? fun k => k.name = s

/-- The budget and trim knobs of one intent. -/
structure Profile where
  maxTrace : Int
  callerHops : Int
  maxUpstream : Int
  maxDownstream : Int
  maxImporters : Int
  maxMethods : Int
  maxSiblings : Int
  maxSnippets : Int
  maxImpact : Int
  maxSymbols : Int
  maxPrimaryCtx : Int
  maxDecisions : Int
  deriving DecidableEq, Repr

namespace Profile

/-- The value of one knob. -/
def get (p : Profile) : Knob → Int
  | .maxTrace => p.maxTrace
  | .callerHops => p.callerHops
  | .maxUpstream => p.maxUpstream
  | .maxDownstream => p.maxDownstream
  | .maxImporters => p.maxImporters
  | .maxMethods => p.maxMethods
  | .maxSiblings => p.maxSiblings
  | .maxSnippets => p.maxSnippets
  | .maxImpact => p.maxImpact
  | .maxSymbols => p.maxSymbols
  | .maxPrimaryCtx => p.maxPrimaryCtx
  | .maxDecisions => p.maxDecisions

/-- The profile with given knob values. -/
def ofKnobs (f : Knob → Int) : Profile where
  maxTrace := f .maxTrace
  callerHops := f .callerHops
  maxUpstream := f .maxUpstream
  maxDownstream := f .maxDownstream
  maxImporters := f .maxImporters
  maxMethods := f .maxMethods
  maxSiblings := f .maxSiblings
  maxSnippets := f .maxSnippets
  maxImpact := f .maxImpact
  maxSymbols := f .maxSymbols
  maxPrimaryCtx := f .maxPrimaryCtx
  maxDecisions := f .maxDecisions

@[simp] theorem get_ofKnobs (f : Knob → Int) (k : Knob) : (ofKnobs f).get k = f k := by
  cases k <;> rfl

/-- A profile is determined by its knobs. -/
theorem ext_get {p q : Profile} (h : ∀ k, p.get k = q.get k) : p = q := by
  cases p; cases q
  simp only [mk.injEq]
  exact ⟨h .maxTrace, h .callerHops, h .maxUpstream, h .maxDownstream, h .maxImporters,
    h .maxMethods, h .maxSiblings, h .maxSnippets, h .maxImpact, h .maxSymbols, h .maxPrimaryCtx,
    h .maxDecisions⟩

/-- Add `delta` to one knob. -/
def bump (p : Profile) (k : Knob) (delta : Int) : Profile :=
  ofKnobs fun k' => if k' = k then p.get k' + delta else p.get k'

@[simp] theorem get_bump (p : Profile) (k k' : Knob) (delta : Int) :
    (p.bump k delta).get k' = if k' = k then p.get k' + delta else p.get k' :=
  get_ofKnobs _ _

end Profile

/-! ### Bounds and clipping -/

/-- The hard (min, max) guardrails of every knob (`Bounds`). -/
def bounds : Knob → Int × Int
  | .maxTrace => (3, 8)
  | .callerHops => (0, 3)
  | .maxUpstream => (3, 25)
  | .maxDownstream => (2, 15)
  | .maxImporters => (3, 20)
  | .maxMethods => (3, 20)
  | .maxSiblings => (3, 30)
  | .maxSnippets => (1, 10)
  | .maxImpact => (5, 30)
  | .maxSymbols => (3, 25)
  | .maxPrimaryCtx => (3, 25)
  | .maxDecisions => (3, 10)

theorem bounds_le (k : Knob) : (bounds k).1 ≤ (bounds k).2 := by cases k <;> decide

def clipInt (v lo hi : Int) : Int := if v < lo then lo else if v > hi then hi else v

theorem le_clipInt {v lo hi : Int} (h : lo ≤ hi) : lo ≤ clipInt v lo hi := by
  unfold clipInt; split_ifs <;> omega

theorem clipInt_le {v lo hi : Int} (h : lo ≤ hi) : clipInt v lo hi ≤ hi := by
  unfold clipInt; split_ifs <;> omega

theorem clipInt_eq_self {v lo hi : Int} (hlo : lo ≤ v) (hhi : v ≤ hi) : clipInt v lo hi = v := by
  unfold clipInt; split_ifs <;> omega

namespace Profile

/-- Enforce the bounds on every knob. -/
def clip (p : Profile) : Profile := ofKnobs fun k => clipInt (p.get k) (bounds k).1 (bounds k).2

@[simp] theorem get_clip (p : Profile) (k : Knob) :
    p.clip.get k = clipInt (p.get k) (bounds k).1 (bounds k).2 := get_ofKnobs _ _

/-- Every knob is within its bounds. -/
def InBounds (p : Profile) : Prop := ∀ k, (bounds k).1 ≤ p.get k ∧ p.get k ≤ (bounds k).2

instance (p : Profile) : Decidable p.InBounds :=
  decidable_of_iff (∀ k ∈ allKnobs, (bounds k).1 ≤ p.get k ∧ p.get k ≤ (bounds k).2)
    ⟨fun h k => h k (mem_allKnobs k), fun h k _ => h k⟩

theorem clip_inBounds (p : Profile) : p.clip.InBounds := fun k => by
  rw [get_clip]
  exact ⟨le_clipInt (bounds_le k), clipInt_le (bounds_le k)⟩

/-- Clipping leaves a profile that is within its bounds as it is. -/
theorem InBounds.clip_eq {p : Profile} (h : p.InBounds) : p.clip = p :=
  ext_get fun k => by rw [get_clip, clipInt_eq_self (h k).1 (h k).2]

@[simp] theorem clip_clip (p : Profile) : p.clip.clip = p.clip := p.clip_inBounds.clip_eq

/-- Two profiles differ in exactly one knob, and there by exactly 1. -/
def OneKnobStep (p q : Profile) : Prop :=
  ∃ k, (q.get k = p.get k + 1 ∨ q.get k = p.get k - 1) ∧ ∀ k', k' ≠ k → q.get k' = p.get k'

instance (p q : Profile) : Decidable (OneKnobStep p q) :=
  decidable_of_iff (∃ k ∈ allKnobs, (q.get k = p.get k + 1 ∨ q.get k = p.get k - 1) ∧
      ∀ k' ∈ allKnobs, k' ≠ k → q.get k' = p.get k')
    ⟨fun ⟨k, _, hk, h⟩ => ⟨k, hk, fun k' => h k' (mem_allKnobs k')⟩,
      fun ⟨k, hk, h⟩ => ⟨k, mem_allKnobs k, hk, fun k' _ => h k'⟩⟩

/-- A knob step is a change. -/
theorem OneKnobStep.ne {p q : Profile} (h : OneKnobStep p q) : q ≠ p := by
  rintro rfl
  obtain ⟨k, hk, -⟩ := h
  omega

/-- **One clipped knob step.** From a profile within its bounds, moving one knob by one and clipping
changes nothing else: the result is the profile itself, when the knob sits on the bound it is moved
against, or one knob step away. -/
theorem InBounds.clip_bump {p : Profile} (hp : p.InBounds) (k : Knob) {delta : Int}
    (hd : delta = 1 ∨ delta = -1) : (p.bump k delta).clip = p ∨ OneKnobStep p (p.bump k delta).clip := by
  have hother : ∀ k', k' ≠ k → (p.bump k delta).clip.get k' = p.get k' := fun k' hk => by
    rw [get_clip, get_bump, if_neg hk, clipInt_eq_self (hp k').1 (hp k').2]
  have hself : (p.bump k delta).clip.get k = clipInt (p.get k + delta) (bounds k).1 (bounds k).2 := by
    rw [get_clip, get_bump, if_pos rfl]
  by_cases hb : (bounds k).1 ≤ p.get k + delta ∧ p.get k + delta ≤ (bounds k).2
  · right
    rw [clipInt_eq_self hb.1 hb.2] at hself
    exact ⟨k, by omega, hother⟩
  · left
    refine ext_get fun k' => ?_
    by_cases hk : k' = k
    · subst hk
      rw [hself]
      have hk := hp k'
      unfold clipInt
      split_ifs <;> omega
    · exact hother k' hk

/-! ### The seed profile of an intent -/

/-- The seed profile of an intent (`Default`), before clipping. -/
def seed (intent : String) : Profile :=
  let p : Profile :=
    { maxTrace := 5, callerHops := 2, maxUpstream := 10, maxDownstream := 5, maxImporters := 10,
      maxMethods := 8, maxSiblings := 15, maxSnippets := 10, maxImpact := 15, maxSymbols := 20,
      maxPrimaryCtx := 10, maxDecisions := 5 }
  match intent with
  | "debug" =>
    let p := { p with maxUpstream := 20, maxDownstream := 10, maxSnippets := 7 }
    let p : Profile := if p.maxTrace < 4 then { p with maxTrace := 4 } else p
    { p with callerHops := 2 }
  | "explore" => { p with maxSiblings := 25, maxUpstream := 5, maxDownstream := 3 }
  | "trace" =>
    let p := { p with maxUpstream := 20, maxDownstream := 10, maxImporters := 15 }
    let p : Profile := if p.maxTrace < 4 then { p with maxTrace := 4 } else p
    { p with callerHops := 2 }
  | "refactor" => { p with maxImpact := 25, maxImporters := 15, maxMethods := 12 }
  | _ => p

/-- `Default(intent)`: the hand-tuned start of every intent. -/
def default (intent : String) : Profile := (seed intent).clip

theorem default_inBounds (intent : String) : (default intent).InBounds := clip_inBounds _

@[simp] theorem clip_default (intent : String) : (default intent).clip = default intent :=
  clip_clip _

/-- No hand-tuned value is outside its bounds, so the final clip of `Default` changes none. -/
theorem default_eq_seed (intent : String) : default intent = seed intent := by
  refine InBounds.clip_eq ?_
  unfold seed
  split <;> decide

/-! ### Profile identifiers -/

/-- FNV-1a over 64 bits, on the bytes of an ASCII string. -/
def fnv64a (s : String) : Nat :=
  s.toList.foldl (fun h c => (h ^^^ c.toNat) * 1099511628211 % 2 ^ 64) 14695981039346656037

/-- Sixteen hexadecimal digits (`%016x`). -/
def hex16 (n : Nat) : String :=
  String.ofList (List.leftpad 16 '0' (Nat.toDigits 16 n))

/-- `ID`: the hash of the knob values, in field order. The join key between a query and the reward
it earns. -/
def id (p : Profile) : String :=
  hex16 (fnv64a (String.intercalate "|" (allKnobs.map fun k => toString (p.get k))))

end Profile

end Devrouter
