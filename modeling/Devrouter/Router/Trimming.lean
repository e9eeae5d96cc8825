import Devrouter.Router.Shown

/-!
# Trimming an answer

`trimResponse` cuts the ten sections of an answer off at the caps of a profile, which `ApplyMemoryShrink` lowers by the
number of memories that point to files. `trimResponse_trims` says what comes of it: how much is dropped, that each
section is cut off at its end and at its cap, and that trimming again, with as many memories or with more, is trimming
once with the last number.

The sections hold different things; `DevPrompt.items` reads each of them as a list of `Item`s, so that one statement
speaks of all ten.
-/

namespace Devrouter

open Codegraph

/-- The sections that are trimmed. -/
inductive TrimmedSection where
  | upstream | downstream | importers | methods | siblings | snippets | impact | symbols | primaryCtx | decisions
  deriving DecidableEq, Repr

/-- What a section holds. -/
inductive Item (S P D : Type) where
  | edge (e : CallEdge)
  | text (t : String)
  | snippet (s : S)
  | entry (p : P)
  | decision (d : D)

def TrimConfig.cap (tc : TrimConfig) : TrimmedSection → Int
  | .upstream => tc.maxUpstream
  | .downstream => tc.maxDownstream
  | .importers => tc.maxImporters
  | .methods => tc.maxMethods
  | .siblings => tc.maxSiblings
  | .snippets => tc.maxSnippets
  | .impact => tc.maxImpact
  | .symbols => tc.maxSymbols
  | .primaryCtx => tc.maxPrimaryCtx
  | .decisions => tc.maxDecisions

section Sections

variable {S P D : Type}

/-- The items of a section; a section of a structure that is missing has none. -/
def DevPrompt.items (dp : DevPrompt S P D) : TrimmedSection → List (Item S P D)
  | .upstream => (dp.callChain.elim [] (·.upstream)).map .edge
  | .downstream => (dp.callChain.elim [] (·.downstream)).map .edge
  | .importers => (dp.graph.elim [] (·.importers)).map .edge
  | .methods => (dp.graph.elim [] (·.methods)).map .edge
  | .siblings => (dp.graph.elim [] (·.siblings)).map .text
  | .snippets => dp.codeSnippets.map .snippet
  | .impact => dp.impactRadius.map .text
  | .symbols => dp.symbols.map .text
  | .primaryCtx => dp.primaryContext.map .entry
  | .decisions => dp.decisions.map .decision

/-- How many items there are in the ten sections. -/
def DevPrompt.size (dp : DevPrompt S P D) : ℕ :=
  (dp.items .upstream).length + (dp.items .downstream).length + (dp.items .importers).length +
    (dp.items .methods).length + (dp.items .siblings).length + (dp.items .snippets).length +
    (dp.items .impact).length + (dp.items .symbols).length + (dp.items .primaryCtx).length +
    (dp.items .decisions).length

/-- The answer that is left. -/
def trimmed (profile : Profile) (count : ℕ) (dp : DevPrompt S P D) : DevPrompt S P D :=
  (trimResponse dp profile count).1

/-- **What trimming does** to an answer. -/
structure TrimsOnce (profile : Profile) (count : ℕ) (dp : DevPrompt S P D) : Prop where
  /-- It returns the number of items it removes. -/
  dropped : (trimResponse dp profile count).2 = dp.size - (trimmed profile count dp).size
  /-- Each section is cut off at its end. -/
  front : ∀ s, (trimmed profile count dp).items s <+: dp.items s
  capped : ∀ s, ((trimmed profile count dp).items s).length ≤ (trimCapsFromProfile profile count).cap s
  /-- A second time it changes nothing. -/
  again : trimResponse (trimmed profile count dp) profile count = (trimmed profile count dp, 0)

/-! ### Caps -/

variable {profile : Profile} {count more : ℕ}

/-- Three caps are lowered, the others are those of the profile. -/
theorem cap_trimCaps (s : TrimmedSection) : (trimCapsFromProfile profile count).cap s =
    match s with
    | .upstream => profile.maxUpstream
    | .downstream => profile.maxDownstream
    | .importers => profile.maxImporters
    | .methods => profile.maxMethods
    | .siblings => if 3 ≤ count then min profile.maxSiblings 3
        else if 1 ≤ count then min profile.maxSiblings 5 else profile.maxSiblings
    | .snippets => if 3 ≤ count then min profile.maxSnippets 1
        else if 1 ≤ count then min profile.maxSnippets 2 else profile.maxSnippets
    | .impact => profile.maxImpact
    | .symbols => if 3 ≤ count then min profile.maxSymbols 3
        else if 1 ≤ count then min profile.maxSymbols 5 else profile.maxSymbols
    | .primaryCtx => profile.maxPrimaryCtx
    | .decisions => profile.maxDecisions := by
  unfold trimCapsFromProfile Profile.applyMemoryShrink TrimConfig.cap
  -- three sections shrink with the memories, the others do not
  cases s with
  | siblings | snippets | symbols =>
    dsimp only
    split_ifs <;> first | rfl | (dsimp only; omega)
  | upstream | downstream | importers | methods | impact | primaryCtx | decisions =>
    dsimp only
    split_ifs <;> rfl

/-- **More memories** never raise a cap. -/
theorem cap_antitone (h : count ≤ more) (s : TrimmedSection) :
    (trimCapsFromProfile profile more).cap s ≤ (trimCapsFromProfile profile count).cap s := by
  rw [cap_trimCaps, cap_trimCaps]
  cases s with
  | siblings | snippets | symbols =>
    dsimp only
    split_ifs <;> omega
  | upstream | downstream | importers | methods | impact | primaryCtx | decisions => exact le_refl _

/-- Knobs that are not negative give caps that are not. -/
theorem cap_nonneg (hknobs : ∀ k, 0 ≤ profile.get k) (s : TrimmedSection) :
    0 ≤ (trimCapsFromProfile profile count).cap s := by
  rw [cap_trimCaps]
  cases s with
  | upstream => exact hknobs .maxUpstream
  | downstream => exact hknobs .maxDownstream
  | importers => exact hknobs .maxImporters
  | methods => exact hknobs .maxMethods
  | siblings =>
    have hknob : 0 ≤ profile.maxSiblings := hknobs .maxSiblings
    dsimp only
    split_ifs <;> omega
  | snippets =>
    have hknob : 0 ≤ profile.maxSnippets := hknobs .maxSnippets
    dsimp only
    split_ifs <;> omega
  | impact => exact hknobs .maxImpact
  | symbols =>
    have hknob : 0 ≤ profile.maxSymbols := hknobs .maxSymbols
    dsimp only
    split_ifs <;> omega
  | primaryCtx => exact hknobs .maxPrimaryCtx
  | decisions => exact hknobs .maxDecisions

/-- A profile within its bounds, such as every one that is clipped, has such knobs. -/
theorem Profile.InBounds.get_nonneg (h : profile.InBounds) (k : Knob) : 0 ≤ profile.get k := by
  have hlow : 0 ≤ (bounds k).1 := by cases k <;> decide
  exact hlow.trans (h k).1

/-! ### Sections -/

theorem trimSection_trimSection {α : Type} {cap low : Int} (h : low ≤ cap) (l : List α) :
    trimSection low (trimSection cap l) = trimSection low l := by
  rw [trimSection_eq_take, trimSection_eq_take, trimSection_eq_take, List.take_take, min_eq_left (by omega)]

/-- What is dropped from a section is what is missing. -/
theorem droppedFrom_eq {α : Type} {cap : Int} (h : 0 ≤ cap) (l : List α) :
    droppedFrom cap l = l.length - (trimSection cap l).length := by
  rw [trimSection_eq_take, List.length_take]
  unfold droppedFrom
  split_ifs <;> omega

/-- **Section by section**, trimming is a cut at the cap. -/
theorem items_trimmed (dp : DevPrompt S P D) (s : TrimmedSection) : (trimmed profile count dp).items s =
    trimSection ((trimCapsFromProfile profile count).cap s) (dp.items s) := by
  have hmap : ∀ {α : Type} (cap : Int) (f : α → Item S P D) (l : List α),
      (trimSection cap l).map f = trimSection cap (l.map f) := by
    intro α cap f l
    rw [trimSection_eq_take, trimSection_eq_take, List.map_take]
  have hnone : ∀ cap : Int, [] = trimSection cap ([] : List (Item S P D)) := by
    intro cap
    rw [trimSection_eq_take, List.take_nil]
  obtain ⟨callChain, graph, snippets, impact, symbols, primary, decisions⟩ := dp
  cases s with
  | upstream | downstream =>
    -- a chain that is missing stays missing
    cases callChain with
    | none => exact hnone _
    | some c => exact hmap _ _ _
  | importers | methods | siblings =>
    cases graph with
    | none => exact hnone _
    | some g => exact hmap _ _ _
  | snippets | impact | symbols | primaryCtx | decisions => exact hmap _ _ _

theorem droppedFrom_map {α β : Type} (cap : Int) (f : α → β) (l : List α) :
    droppedFrom cap (l.map f) = droppedFrom cap l := by
  unfold droppedFrom
  rw [List.length_map]

theorem droppedFrom_nil {α : Type} {cap : Int} (h : 0 ≤ cap) : droppedFrom cap ([] : List α) = 0 := by
  show (if cap < 0 then 0 - cap else 0) = 0
  rw [if_neg (not_lt.mpr h)]

/-- What is dropped from the section `s` of an answer. -/
def droppedIn (profile : Profile) (count : ℕ) (dp : DevPrompt S P D) (s : TrimmedSection) : Int :=
  droppedFrom ((trimCapsFromProfile profile count).cap s) (dp.items s)

theorem dropped_callChain (hknobs : ∀ k, 0 ≤ profile.get k) (dp : DevPrompt S P D) :
    (dp.callChain.elim 0 fun c => droppedFrom (trimCapsFromProfile profile count).maxUpstream c.upstream +
        droppedFrom (trimCapsFromProfile profile count).maxDownstream c.downstream) =
      droppedIn profile count dp .upstream + droppedIn profile count dp .downstream := by
  unfold droppedIn DevPrompt.items
  cases dp.callChain with
  | none =>
    show 0 = droppedFrom _ [] + droppedFrom _ []
    rw [droppedFrom_nil (cap_nonneg hknobs _), droppedFrom_nil (cap_nonneg hknobs _)]
    rfl
  | some c => exact (congrArg₂ (· + ·) (droppedFrom_map _ _ _) (droppedFrom_map _ _ _)).symm

theorem dropped_graph (hknobs : ∀ k, 0 ≤ profile.get k) (dp : DevPrompt S P D) :
    (dp.graph.elim 0 fun g => droppedFrom (trimCapsFromProfile profile count).maxImporters g.importers +
        droppedFrom (trimCapsFromProfile profile count).maxMethods g.methods +
          droppedFrom (trimCapsFromProfile profile count).maxSiblings g.siblings) =
      droppedIn profile count dp .importers + droppedIn profile count dp .methods +
        droppedIn profile count dp .siblings := by
  unfold droppedIn DevPrompt.items
  cases dp.graph with
  | none =>
    show 0 = droppedFrom _ [] + droppedFrom _ [] + droppedFrom _ []
    rw [droppedFrom_nil (cap_nonneg hknobs _), droppedFrom_nil (cap_nonneg hknobs _),
      droppedFrom_nil (cap_nonneg hknobs _)]
    rfl
  | some g =>
    exact (congrArg₂ (· + ·) (congrArg₂ (· + ·) (droppedFrom_map _ _ _) (droppedFrom_map _ _ _))
      (droppedFrom_map _ _ _)).symm

/-- The number that is returned, section by section. -/
theorem dropped_eq (hknobs : ∀ k, 0 ≤ profile.get k) (dp : DevPrompt S P D) :
    (trimResponse dp profile count).2 = dp.size - (trimmed profile count dp).size := by
  calc (trimResponse dp profile count).2
      = droppedIn profile count dp .upstream + droppedIn profile count dp .downstream +
        (droppedIn profile count dp .importers + droppedIn profile count dp .methods +
          droppedIn profile count dp .siblings) +
        droppedIn profile count dp .snippets + droppedIn profile count dp .impact +
        droppedIn profile count dp .symbols + droppedIn profile count dp .primaryCtx +
        droppedIn profile count dp .decisions := by
        rw [← dropped_callChain hknobs, ← dropped_graph hknobs]
        unfold droppedIn DevPrompt.items
        simp only [droppedFrom_map]
        rfl
    _ = dp.size - (trimmed profile count dp).size := by
        unfold droppedIn
        simp only [droppedFrom_eq (cap_nonneg hknobs _), ← items_trimmed]
        unfold DevPrompt.size
        push_cast
        ring

/-- **Twice** is once with the lower caps. -/
theorem trimmed_trimmed (h : count ≤ more) (dp : DevPrompt S P D) :
    trimmed profile more (trimmed profile count dp) = trimmed profile more dp := by
  -- more memories never raise a cap, so the second trim is the one that counts
  have hcaps : ∀ s, (trimCapsFromProfile profile more).cap s ≤ (trimCapsFromProfile profile count).cap s :=
    cap_antitone h
  have hagain : ∀ {α : Type} (s : TrimmedSection) (l : List α),
      trimSection ((trimCapsFromProfile profile more).cap s)
          (trimSection ((trimCapsFromProfile profile count).cap s) l) =
        trimSection ((trimCapsFromProfile profile more).cap s) l :=
    fun s l => trimSection_trimSection (hcaps s) l
  obtain ⟨callChain, graph, snippets, impact, symbols, primary, decisions⟩ := dp
  unfold trimmed trimResponse
  dsimp only
  rw [DevPrompt.mk.injEq]
  refine ⟨?_, ?_, hagain .snippets _, hagain .impact _, hagain .symbols _, hagain .primaryCtx _, hagain .decisions _⟩
  · cases callChain with
    | none => rfl
    | some c => exact congrArg some (congrArg₂ CallChain.mk (hagain .upstream _) (hagain .downstream _))
  · cases graph with
    | none => rfl
    | some g =>
      dsimp only [Option.map_some]
      rw [Option.some_inj, GraphLinks.mk.injEq]
      exact ⟨hagain .importers _, rfl, hagain .methods _, hagain .siblings _⟩

/-- **Trimming**, for any answer, profile and memories. It drops what it says, from the ends of the sections and down to
their caps, and only once; with more memories no section is longer; and trimming with fewer before changes nothing. -/
theorem trimResponse_trims (dp : DevPrompt S P D) (profile : Profile) (hknobs : ∀ k, 0 ≤ profile.get k) (count more : ℕ)
    (h : count ≤ more) :
    TrimsOnce profile count dp ∧
      (∀ s, (trimmed profile more dp).items s <+: (trimmed profile count dp).items s) ∧
      trimmed profile more (trimmed profile count dp) = trimmed profile more dp := by
  have hfront : ∀ (n : ℕ) (dp : DevPrompt S P D) (s : TrimmedSection),
      (trimmed profile n dp).items s <+: dp.items s := by
    intro n dp s
    rw [items_trimmed, trimSection_eq_take]
    exact List.take_prefix _ _
  refine ⟨⟨dropped_eq hknobs dp, hfront count dp, fun s => ?_, ?_⟩, fun s => ?_, trimmed_trimmed h dp⟩
  · have hcap : 0 ≤ (trimCapsFromProfile profile count).cap s := cap_nonneg hknobs s
    rw [items_trimmed, trimSection_eq_take, List.length_take]
    omega
  · -- the second time as many items are left as there were
    have hsame : trimmed profile count (trimmed profile count dp) = trimmed profile count dp :=
      trimmed_trimmed (le_refl count) dp
    have hnumber : (trimResponse (trimmed profile count dp) profile count).2 = 0 := by
      rw [dropped_eq hknobs, hsame]
      exact sub_self _
    exact Prod.ext hsame hnumber
  · rw [← trimmed_trimmed h]
    exact hfront more (trimmed profile count dp) s

end Sections

/-! ### An answer -/

/-- Seven symbols and three snippets, without a graph. -/
def sevenSymbols : DevPrompt ℕ ℕ ℕ where
  callChain := some ⟨[], []⟩
  graph := none
  codeSnippets := [1, 2, 3]
  impactRadius := []
  symbols := ["a", "b", "c", "d", "e", "f", "g"]
  primaryContext := []
  decisions := []

/-- One memory leaves five symbols and two snippets, three memories leave three and one. -/
theorem sevenSymbols_trims :
    TrimsOnce (Profile.default "debug") 1 sevenSymbols ∧
      (trimResponse sevenSymbols (Profile.default "debug") 1).2 = 3 ∧
      (trimmed (Profile.default "debug") 3 (trimmed (Profile.default "debug") 1 sevenSymbols)).symbols = ["a", "b", "c"] :=
  ⟨(trimResponse_trims sevenSymbols (Profile.default "debug") (Profile.default_inBounds "debug").get_nonneg 1 3
      (by decide)).1,
    by decide, by decide⟩

end Devrouter
