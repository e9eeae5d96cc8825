import Mathlib.Data.List.Infix
import Mathlib.Data.List.Count
import Devrouter.Lib.Machine
import Devrouter.Memory.Resave

/-!
# Flow overlays

Model of `UpdateFlowOverlay` in `internal/memory/store.go`: one feedback event increments counters of the
flow's overlay, one for each entry of the flow's file list that was read or counts as dead, one for each
missing file, and the total. `strings.ToLower` maps runes one by one; `lower` is the map.

The counters an event increments are a list of hash fields (`eventFields`), each incremented once for
every occurrence (`incrFields_hashAt`). An event counts each file at most once when no entry that counts
is repeated (`CountsOnce`), and under that condition the counters of every overlay stay within its total
in every run of events and saves (`overlay_bounded`).
-/

open Prog

namespace Devrouter.Memory

variable {F : Type} (lower : Char → Char)

/-! ### File lists -/

/-- `splitOverlayCSV`: the non-empty trimmed parts of a comma-separated list. -/
def splitOverlayCSV (s : String) : List String :=
  if s = "" then []
  else ((s.toList.splitOn ',').map fun p => trimSpace (String.ofList p)).filter (· ≠ "")

/-- `normalisePathLower`: without spaces around, a slash in front and a line range behind. -/
def normalisePathLower (p : String) : String :=
  let cs := (trimSpace p).toList
  let cs := if cs.head? = some '/' then cs.tail else cs
  -- a colon in front is no line range
  let path := cs.takeWhile (· ≠ ':')
  String.ofList ((if path.isEmpty then cs else path).map lower)

/-- `normaliseFileSet`; a set is a list of its members. -/
def normaliseFileSet (files : List String) : List String :=
  ((files.map (normalisePathLower lower)).filter (· ≠ "")).dedup

/-- `strings.Contains`. -/
def contains (s sub : String) : Bool := decide (sub.toList <:+: s.toList)

/-! ### The event -/

/-- One feedback event on a flow. -/
structure FlowOverlayUpdate where
  queryID : String
  readFiles : List String
  missingFiles : List String
  success : Bool
  additionalFiles : Int
  deriving DecidableEq, Repr

namespace FlowOverlayUpdate

variable (upd : FlowOverlayUpdate)

/-- A file that was not read can be scored as dead. -/
def canMarkDead : Bool := upd.success && decide (upd.additionalFiles = 0)

/-- A file of the flow was read. -/
def matched (f : String) : Bool :=
  (normaliseFileSet lower upd.readFiles).any fun r =>
    decide (r = normalisePathLower lower f) || contains r (normalisePathLower lower f) ||
      contains (normalisePathLower lower f) r

/-- The counter of a file of the flow that the event increments. -/
def mark (f : String) : List String :=
  if normalisePathLower lower f = "" then []
  else if upd.matched lower f then ["file_useful:" ++ f]
  else if upd.canMarkDead then ["file_dead:" ++ f]
  else []

/-- The missing files the event counts. -/
def missing : List String := (upd.missingFiles.map trimSpace).filter (· ≠ "")

/-- The counters the event increments, for a flow with these files. -/
def eventFields (knownFiles : List String) : List String :=
  knownFiles.flatMap (upd.mark lower) ++ upd.missing.map ("missing:" ++ ·) ++ ["total_feedback"]

end FlowOverlayUpdate

/-- Increment the counters of an overlay, in one pipeline. The first error is returned. -/
def incrFields (key : String) : List String → Prog (memdb F) (Option SaveErr)
  | [] => return none
  | f :: fs => do
    let r ← Mdb.hincrby key f 1
    let err ← incrFields key fs
    return (errOf r).or err

/-- The scalar fields of an overlay. -/
def scalars (now : Int) (upd : FlowOverlayUpdate) : List (String × Value F) :=
  [("last_feedback_at", .int now), ("last_query_id", .text upd.queryID)]

/-- The pipeline of an event: its counters, and the scalars. -/
def overlayPipeline (key : String) (fs : List String) (fields : List (String × Value F)) :
    Prog (memdb F) (Option SaveErr) := do
  let err ← incrFields key fs
  let r ← Mdb.hset key fields
  return err.or (errOf r)

/-- The errors of `UpdateFlowOverlay`. -/
inductive OverlayErr where
  | required | exists_ | notFound | redis
  deriving DecidableEq, Repr

/-- `UpdateFlowOverlay`, at the time `now`. -/
def updateFlowOverlay (K : Keyspace) (now : Int) (repo name : String) (upd : FlowOverlayUpdate) :
    Prog (memdb F) (Option OverlayErr) :=
  if repo = "" || name = "" then return some .required
  else do
    match ← Mdb.existsKey (flowKey K repo name) with
    | none => return some .exists_
    | some n =>
      -- an overlay is kept for a stored flow only
      if n = 0 then return some .notFound
      else
        -- the files of the flow are the ones that can be marked
        let flowFiles ← getField (flowKey K repo name) "files"
        let err ← overlayPipeline (flowOverlayKey K repo name)
          (upd.eventFields lower (splitOverlayCSV flowFiles)) (scalars now upd)
        return err.map fun _ => .redis

/-! ### What the increments do -/

/-- A counter; a field that is no number counts for 0. -/
def counter (h : Hash F) (field : String) : Int :=
  match h field with
  | some (.int n) => n
  | _ => 0

/-- The field can be incremented. -/
def Numeric (h : Hash F) (field : String) : Prop := h field = none ∨ ∃ n, h field = some (.int n)

/-- `HINCRBY` on the fields of a hash; an error leaves them. -/
def incrHash (h : Hash F) (field : String) : Hash F :=
  match incrValue 1 (h field) with
  | none => h
  | some v => Function.update h field (some v)

theorem incrHash_of_ne {h : Hash F} {field f : String} (hne : f ≠ field) :
    incrHash h field f = h f := by
  unfold incrHash
  cases incrValue 1 (h field) with
  | none => rfl
  | some v => exact Function.update_of_ne hne _ _

/-- A numeric field stays numeric. -/
theorem Numeric.incrHash {h : Hash F} {f : String} (hf : Numeric h f) (field : String) :
    Numeric (incrHash h field) f := by
  by_cases heq : f = field
  · subst heq
    right
    unfold Memory.incrHash
    rcases hf with hnone | ⟨n, hn⟩
    · exact ⟨1, by simp [hnone, incrValue]⟩
    · exact ⟨n + 1, by simp [hn, incrValue]⟩
  · unfold Numeric
    rw [incrHash_of_ne heq]
    exact hf

/-- An increment adds at most 1, to its own field only, and 1 to a numeric one. -/
theorem counter_incrHash (h : Hash F) (field f : String) :
    counter (incrHash h field) f ≤ counter h f + (if f = field then 1 else 0) ∧
      (Numeric h f → counter (incrHash h field) f = counter h f + (if f = field then 1 else 0)) := by
  by_cases heq : f = field
  · subst heq
    rw [if_pos rfl]
    cases hv : h f with
    | none => simp [counter, incrHash, hv, incrValue]
    | some v =>
      cases v with
      | int n => simp [counter, incrHash, hv, incrValue]
      | text s => simp [counter, incrHash, hv, incrValue, Numeric]
      | vec v => simp [counter, incrHash, hv, incrValue, Numeric]
  · rw [if_neg heq]
    unfold counter
    rw [incrHash_of_ne heq]
    simp

/-- **Counting.** After the increments of a list of fields a counter has grown by at most the number of
its occurrences, and by exactly that number when it is numeric. -/
theorem counter_foldl (fs : List String) (h : Hash F) (f : String) :
    counter (fs.foldl incrHash h) f ≤ counter h f + fs.count f ∧
      (Numeric h f → counter (fs.foldl incrHash h) f = counter h f + fs.count f ∧
        Numeric (fs.foldl incrHash h) f) := by
  induction fs generalizing h with
  | nil => simp
  | cons g fs ih =>
    obtain ⟨hle, heq⟩ := counter_incrHash h g f
    have hcount : ((g :: fs).count f : Int) = fs.count f + (if f = g then 1 else 0) := by
      rw [List.count_cons]
      by_cases hfg : f = g
      · simp [hfg]
      · simp [hfg, Ne.symm hfg]
    -- one more event for `g` adds one to the counter of `g` alone
    rw [List.foldl_cons, hcount]
    obtain ⟨ihle, iheq⟩ := ih (incrHash h g)
    constructor
    · omega
    · intro hf
      obtain ⟨heq', hnum⟩ := iheq (hf.incrHash g)
      have := heq hf
      exact ⟨by omega, hnum⟩

/-! ### What an event does to the overlay -/

theorem incrFields_run (key : String) (fs : List String) (s : Server F) :
    ((incrFields key fs).run s).2.hashAt key
        = (s.hashAt key).map (fun h => fs.foldl incrHash h) ∧
      ∀ key', key' ≠ key →
        ((incrFields key fs).run s).2.keys.lookup key' = s.keys.lookup key' := by
  induction fs generalizing s with
  | nil =>
    refine ⟨?_, fun _ _ => rfl⟩
    change s.hashAt key = _
    cases s.hashAt key <;> rfl
  | cons f fs ih =>
    obtain ⟨ihself, ihne⟩ := ih ((Mdb.hincrby key f 1).run s).2
    -- one increment
    have hone : ((Mdb.hincrby key f 1).run s).2.hashAt key
        = (s.hashAt key).map fun h => incrHash h f := by
      rw [Mdb.hincrby_run]
      cases hs : s.hashAt key with
      | none => simp [hs]
      | some h =>
        unfold incrHash
        cases hv : incrValue 1 (h f) with
        | none => simp [hs, hv]
        | some v => simp [hv]
    have hframe : ∀ key', key' ≠ key →
        ((Mdb.hincrby key f 1).run s).2.keys.lookup key' = s.keys.lookup key' := by
      intro key' hne
      rw [Mdb.hincrby_run]
      cases s.hashAt key with
      | none => rfl
      | some h =>
        dsimp only
        cases incrValue 1 (h f) with
        | none => rfl
        | some v => exact s.lookup_putHash_ne _ hne
    unfold incrFields
    simp only [run_bind, run_pure]
    refine ⟨?_, fun key' hne => (ihne key' hne).trans (hframe key' hne)⟩
    rw [ihself, hone, Option.map_map]
    rfl

/-- The files of a flow, as an event reads them. -/
def Server.flowFiles (s : Server F) (K : Keyspace) (repo name : String) : List String :=
  splitOverlayCSV (((s.hashAt (flowKey K repo name)).map (·.text "files")).getD "")

/-- An event on the flow is carried out: it is named, and stored. -/
def Server.Accepts (s : Server F) (K : Keyspace) (repo name : String) : Prop :=
  repo ≠ "" ∧ name ≠ "" ∧ (s.keys.lookup (flowKey K repo name)).isSome = true

instance (s : Server F) (K : Keyspace) (repo name : String) : Decidable (s.Accepts K repo name) :=
  inferInstanceAs (Decidable (_ ∧ _))

theorem overlayPipeline_run (key : String) (fs : List String) (fields : List (String × Value F))
    (s : Server F) :
    ((overlayPipeline key fs fields).run s).2.hashAt key
        = (s.hashAt key).map (fun h => hsetFields (fs.foldl incrHash h) fields) ∧
      ∀ key', key' ≠ key →
        ((overlayPipeline key fs fields).run s).2.keys.lookup key' = s.keys.lookup key' := by
  obtain ⟨hself, hne⟩ := incrFields_run key fs s
  unfold overlayPipeline
  simp only [run_bind, run_pure, Mdb.hset_run]
  generalize ((incrFields key fs).run s).2 = s' at hself hne
  cases hs : s.hashAt key with
  | none =>
    rw [hs, Option.map_none] at hself
    simpa [hself] using hne
  | some h =>
    rw [hs, Option.map_some] at hself
    simp only [hself]
    exact ⟨s'.hashAt_putHash_self _, fun key' hkey =>
      (s'.lookup_putHash_ne _ hkey).trans (hne key' hkey)⟩

/-- An event that is not carried out does nothing. -/
theorem updateFlowOverlay_refused {K : Keyspace} {s : Server F} {repo name : String} (hacc : ¬ s.Accepts K repo name) (now : Int)
    (upd : FlowOverlayUpdate) : ((updateFlowOverlay lower K now repo name upd).run s).2 = s := by
  unfold updateFlowOverlay
  by_cases hnamed : repo = "" || name = ""
  · rw [if_pos hnamed]
    rfl
  · rw [if_neg hnamed, run_bind, Mdb.existsKey_run]
    have hmissing : (s.keys.lookup (flowKey K repo name)).isSome = false := by
      simp only [Bool.or_eq_true, decide_eq_true_eq, not_or] at hnamed
      exact Bool.eq_false_iff.mpr fun hl => hacc ⟨hnamed.1, hnamed.2, hl⟩
    rw [hmissing]
    rfl

/-- **An event** increments its counters in the overlay of its flow and sets the scalars there; one on a
flow that is not stored does nothing. -/
theorem updateFlowOverlay_run (K : Keyspace) (now : Int) (repo name : String)
    (upd : FlowOverlayUpdate) (s : Server F) :
    ((updateFlowOverlay lower K now repo name upd).run s).2.hashAt (flowOverlayKey K repo name)
        = (if s.Accepts K repo name then
            (s.hashAt (flowOverlayKey K repo name)).map fun h =>
              hsetFields ((upd.eventFields lower (s.flowFiles K repo name)).foldl incrHash h)
                (scalars now upd)
          else s.hashAt (flowOverlayKey K repo name)) ∧
      ∀ key, key ≠ flowOverlayKey K repo name →
        ((updateFlowOverlay lower K now repo name upd).run s).2.keys.lookup key
          = s.keys.lookup key := by
  unfold updateFlowOverlay
  -- an accepted call goes on to the pipeline of increments and scalars
  by_cases hacc : s.Accepts K repo name
  · rw [if_pos hacc]
    obtain ⟨hr, hn, hflow⟩ := hacc
    obtain ⟨e, he⟩ := Option.isSome_iff_exists.mp hflow
    rw [if_neg (by simp [hr, hn]), run_bind, Mdb.existsKey_run, he]
    simp only [Option.isSome_some, if_true, Nat.one_ne_zero, if_false]
    simp only [run_bind, getField_run, run_pure]
    exact overlayPipeline_run (flowOverlayKey K repo name)
      (upd.eventFields lower (s.flowFiles K repo name)) (scalars now upd) s
  · rw [if_neg hacc]
    have hsame := updateFlowOverlay_refused lower hacc now upd
    unfold updateFlowOverlay at hsame
    rw [hsame]
    exact ⟨rfl, fun _ _ => rfl⟩

/-! ### How often an event counts a file -/

namespace FlowOverlayUpdate

variable (upd : FlowOverlayUpdate)

/-- The event counts this file of the flow, as useful or as dead. -/
def counts (f : String) : Bool :=
  decide (normalisePathLower lower f ≠ "") && (upd.matched lower f || upd.canMarkDead)

/-- A file of the flow that counts is counted in one of the two counters. -/
theorem count_mark (f g : String) :
    (upd.mark lower f).count ("file_useful:" ++ g) + (upd.mark lower f).count ("file_dead:" ++ g)
      = if upd.counts lower f ∧ f = g then 1 else 0 := by
  have huseful : "file_useful:" ++ f ≠ "file_dead:" ++ g := by simp [← String.toList_inj]
  have hdead : "file_dead:" ++ f ≠ "file_useful:" ++ g := by simp [← String.toList_inj]
  unfold mark counts
  by_cases hempty : normalisePathLower lower f = ""
  · simp [hempty]
  · by_cases hmatch : upd.matched lower f = true
    · simp [hempty, hmatch, List.count_singleton, huseful]
    · by_cases hdeadmark : upd.canMarkDead = true
      · simp [hempty, hmatch, hdeadmark, List.count_singleton, hdead]
      · simp [hempty, hmatch, hdeadmark]

theorem count_marks (known : List String) (g : String) :
    (known.flatMap (upd.mark lower)).count ("file_useful:" ++ g)
        + (known.flatMap (upd.mark lower)).count ("file_dead:" ++ g)
      = (known.filter (upd.counts lower)).count g := by
  induction known with
  | nil => rfl
  | cons f known ih =>
    have hf := upd.count_mark lower f g
    rw [List.flatMap_cons, List.count_append, List.count_append, List.filter_cons]
    by_cases hc : upd.counts lower f = true
    · -- the file has a verdict, which goes to one of the two counters
      rw [if_pos hc, List.count_cons, ← ih]
      by_cases hfg : f = g
      · subst hfg
        rw [if_pos ⟨hc, rfl⟩] at hf
        rw [if_pos (beq_self_eq_true f)]
        omega
      · rw [if_neg fun h => hfg h.2] at hf
        rw [if_neg (by simpa using hfg)]
        omega
    · -- a file without a verdict is marked by neither
      rw [if_neg fun h => hc h.1] at hf
      rw [if_neg hc, ← ih]
      omega

/-- A field that no file of the flow is counted in. -/
theorem notMem_marks {known : List String} {field : String}
    (huseful : ∀ f, field ≠ "file_useful:" ++ f) (hdead : ∀ f, field ≠ "file_dead:" ++ f) :
    field ∉ known.flatMap (upd.mark lower) := by
  intro hmem
  obtain ⟨f, -, hf⟩ := List.mem_flatMap.mp hmem
  unfold mark at hf
  split_ifs at hf
  · exact absurd hf List.not_mem_nil
  · exact huseful f (List.mem_singleton.mp hf)
  · exact hdead f (List.mem_singleton.mp hf)
  · exact absurd hf List.not_mem_nil

/-- **The counters of a file**: the useful and the dead counter together are incremented once for each
entry that counts. -/
theorem count_eventFields (known : List String) (g : String) :
    (upd.eventFields lower known).count ("file_useful:" ++ g)
        + (upd.eventFields lower known).count ("file_dead:" ++ g)
      = (known.filter (upd.counts lower)).count g := by
  have hmissing : ∀ tag, (∀ f, tag ++ g ≠ "missing:" ++ f) →
      (upd.missing.map ("missing:" ++ ·)).count (tag ++ g) = 0 := by
    intro tag htag
    rw [List.count_eq_zero]
    intro hmem
    obtain ⟨f, -, hf⟩ := List.mem_map.mp hmem
    exact htag f hf.symm
  have huseful : "total_feedback" ≠ "file_useful:" ++ g := by simp [← String.toList_inj]
  have hdead : "total_feedback" ≠ "file_dead:" ++ g := by simp [← String.toList_inj]
  unfold eventFields
  simp only [List.count_append, List.count_singleton]
  rw [hmissing "file_useful:" fun f => by simp [← String.toList_inj],
    hmissing "file_dead:" fun f => by simp [← String.toList_inj], ← upd.count_marks lower known g]
  simp [huseful, hdead]

/-- The counter of a missing file is incremented once for each time it is named. -/
theorem count_eventFields_missing (known : List String) (g : String) :
    (upd.eventFields lower known).count ("missing:" ++ g) = upd.missing.count g := by
  have hmarks : (known.flatMap (upd.mark lower)).count ("missing:" ++ g) = 0 :=
    List.count_eq_zero.mpr (upd.notMem_marks lower (fun f => by simp [← String.toList_inj])
      fun f => by simp [← String.toList_inj])
  have htotal : "total_feedback" ≠ "missing:" ++ g := by simp [← String.toList_inj]
  have hinj : Function.Injective fun f => "missing:" ++ f := fun a b h => by simpa using h
  unfold eventFields
  simp only [List.count_append, List.count_singleton, hmarks]
  rw [List.count_map_of_injective _ _ hinj]
  simp [htotal]

/-- The total is incremented once. -/
theorem count_eventFields_total (known : List String) :
    (upd.eventFields lower known).count "total_feedback" = 1 := by
  have hmarks : (known.flatMap (upd.mark lower)).count "total_feedback" = 0 :=
    List.count_eq_zero.mpr (upd.notMem_marks lower (fun f => by simp [← String.toList_inj])
      fun f => by simp [← String.toList_inj])
  have hmissing : (upd.missing.map ("missing:" ++ ·)).count "total_feedback" = 0 := by
    rw [List.count_eq_zero]
    intro hmem
    obtain ⟨f, -, hf⟩ := List.mem_map.mp hmem
    simp [← String.toList_inj] at hf
  unfold eventFields
  simp [hmarks, hmissing]

end FlowOverlayUpdate

/-! ### The bound -/

/-- The prefixes of the counters. -/
def counterTags : List String := ["file_useful:", "file_dead:", "missing:", "total_feedback"]

/-- The field is named like a counter. -/
def IsCounter (field : String) : Prop := ∃ tag ∈ counterTags, ∃ f, field = tag ++ f

theorem isCounter_useful (f : String) : IsCounter ("file_useful:" ++ f) :=
  ⟨_, by simp [counterTags], f, rfl⟩

theorem isCounter_dead (f : String) : IsCounter ("file_dead:" ++ f) :=
  ⟨_, by simp [counterTags], f, rfl⟩

theorem isCounter_missing (f : String) : IsCounter ("missing:" ++ f) :=
  ⟨_, by simp [counterTags], f, rfl⟩

theorem isCounter_total : IsCounter "total_feedback" :=
  ⟨"total_feedback", by simp [counterTags], "", rfl⟩

/-- Names without the prefixes are no counters. -/
def NoCounters (names : List String) : Bool :=
  names.all fun n => counterTags.all fun tag => !tag.toList.isPrefixOf n.toList

theorem IsCounter.notMem {field : String} (hf : IsCounter field) {names : List String}
    (h : NoCounters names = true) : field ∉ names := by
  intro hmem
  obtain ⟨tag, htag, f, rfl⟩ := hf
  have hn := List.all_eq_true.mp (List.all_eq_true.mp h _ hmem) tag htag
  have hpre : tag.toList.isPrefixOf (tag ++ f).toList = true := by
    rw [List.isPrefixOf_iff_prefix, String.toList_append]
    exact List.prefix_append _ _
  rw [hpre] at hn
  exact absurd hn (by decide)

/-- **The counters of an overlay stay within its total.** -/
structure Bounded (h : Hash F) : Prop where
  numeric : ∀ field, IsCounter field → Numeric h field
  marks : ∀ f, counter h ("file_useful:" ++ f) + counter h ("file_dead:" ++ f)
    ≤ counter h "total_feedback"
  missing : ∀ f, counter h ("missing:" ++ f) ≤ counter h "total_feedback"

/-- An event counts each file at most once: in one of the two counters of the flow's files, and as a
missing file. -/
structure CountsOnce (before after : Hash F) : Prop where
  marks : ∀ f, counter after ("file_useful:" ++ f) + counter after ("file_dead:" ++ f)
    ≤ counter before ("file_useful:" ++ f) + counter before ("file_dead:" ++ f) + 1
  not_both : ∀ f, counter after ("file_useful:" ++ f) = counter before ("file_useful:" ++ f) ∨
    counter after ("file_dead:" ++ f) = counter before ("file_dead:" ++ f)
  missing : ∀ f, counter after ("missing:" ++ f) ≤ counter before ("missing:" ++ f) + 1

/-- No file that counts is repeated: neither among the flow's files nor among the missing ones. -/
def NoRepeat (upd : FlowOverlayUpdate) (known : List String) : Prop :=
  (known.filter (upd.counts lower)).Nodup ∧ upd.missing.Nodup

instance (upd : FlowOverlayUpdate) (known : List String) : Decidable (NoRepeat lower upd known) :=
  inferInstanceAs (Decidable (_ ∧ _))

/-- An empty overlay. -/
theorem Bounded.empty : Bounded (fun _ => none : Hash F) where
  numeric _ _ := .inl rfl
  marks _ := Int.le_refl _
  missing _ := Int.le_refl _

/-- Writing other fields does not matter to the counters. -/
theorem Bounded.hsetFields {h : Hash F} (hb : Bounded h) {fields : List (String × Value F)}
    (hno : NoCounters (fields.map Prod.fst) = true) : Bounded (hsetFields h fields) := by
  have hsame : ∀ field, IsCounter field → Memory.hsetFields h fields field = h field :=
    fun field hf => hsetFields_of_notMem (hf.notMem hno) h
  have hcounter : ∀ field, IsCounter field →
      counter (Memory.hsetFields h fields) field = counter h field := by
    intro field hf
    unfold counter
    rw [hsame field hf]
  refine ⟨fun field hf => ?_, fun f => ?_, fun f => ?_⟩
  · unfold Numeric
    rw [hsame field hf]
    exact hb.numeric field hf
  · rw [hcounter _ (isCounter_useful f), hcounter _ (isCounter_dead f), hcounter _ isCounter_total]
    exact hb.marks f
  · rw [hcounter _ (isCounter_missing f), hcounter _ isCounter_total]
    exact hb.missing f

/-- The overlay after an event on a flow with these files. -/
def eventHash (upd : FlowOverlayUpdate) (known : List String) (now : Int) (h : Hash F) : Hash F :=
  hsetFields ((upd.eventFields lower known).foldl incrHash h) (scalars now upd)

/-- A counter grows by the number of its increments. -/
theorem counter_eventHash (upd : FlowOverlayUpdate) (known : List String) (now : Int) {h : Hash F}
    {field : String} (hf : IsCounter field) (hnum : Numeric h field) :
    counter (eventHash lower upd known now h) field
        = counter h field + (upd.eventFields lower known).count field ∧
      Numeric (eventHash lower upd known now h) field := by
  have hno : NoCounters ((scalars now upd : List (String × Value F)).map Prod.fst) = true := by
    rw [show (scalars now upd : List (String × Value F)).map Prod.fst
      = ["last_feedback_at", "last_query_id"] from rfl]
    decide
  have hsame : eventHash lower upd known now h field
      = (upd.eventFields lower known).foldl incrHash h field :=
    hsetFields_of_notMem (hf.notMem hno) _
  unfold counter Numeric
  rw [hsame]
  exact (counter_foldl (upd.eventFields lower known) h field).2 hnum

/-- **When an event counts each file at most once**: exactly when no file that counts is repeated. -/
theorem countsOnce_iff {h : Hash F} (hb : Bounded h) (upd : FlowOverlayUpdate)
    (known : List String) (now : Int) :
    CountsOnce h (eventHash lower upd known now h) ↔ NoRepeat lower upd known := by
  have huseful := fun f => (counter_eventHash lower upd known now
    (isCounter_useful f) (hb.numeric _ (isCounter_useful f))).1
  have hdead := fun f => (counter_eventHash lower upd known now
    (isCounter_dead f) (hb.numeric _ (isCounter_dead f))).1
  have hmissing := fun f => (counter_eventHash lower upd known now
    (isCounter_missing f) (hb.numeric _ (isCounter_missing f))).1
  have hmarks := upd.count_eventFields lower known
  constructor
  · -- a counter is raised by the number of its events, so one event each is at most one
    intro honce
    refine ⟨List.nodup_iff_count_le_one.mpr fun f => ?_, List.nodup_iff_count_le_one.mpr fun f => ?_⟩
    · have hle := honce.marks f
      rw [huseful, hdead] at hle
      rw [← hmarks f]
      omega
    · have hle := honce.missing f
      rw [hmissing, upd.count_eventFields_missing] at hle
      omega
  · intro hrep
    -- without repetition the file is marked once, as useful or as dead
    have hfile := fun f => List.nodup_iff_count_le_one.mp hrep.1 f
    refine ⟨fun f => ?_, fun f => ?_, fun f => ?_⟩
    · have := hfile f
      rw [← hmarks f] at this
      rw [huseful, hdead]
      omega
    · have := hfile f
      rw [← hmarks f] at this
      rw [huseful, hdead]
      omega
    · have := List.nodup_iff_count_le_one.mp hrep.2 f
      rw [hmissing, upd.count_eventFields_missing]
      omega

/-- Such an event keeps the bound: the total grows by 1. -/
theorem Bounded.event {h : Hash F} (hb : Bounded h) {upd : FlowOverlayUpdate} {known : List String}
    (hrep : NoRepeat lower upd known) (now : Int) : Bounded (eventHash lower upd known now h) := by
  have honce := (countsOnce_iff lower hb upd known now).mpr hrep
  have htotal := (counter_eventHash lower upd known now
    isCounter_total (hb.numeric _ isCounter_total)).1
  rw [upd.count_eventFields_total] at htotal
  refine ⟨fun field hf => (counter_eventHash lower upd known now hf (hb.numeric field hf)).2, fun f => ?_,
    fun f => ?_⟩
  · have hstep := honce.marks f
    have hold := hb.marks f
    omega
  · have hstep := honce.missing f
    have hold := hb.missing f
    omega

/-! ### Runs -/

/-- The steps of a run: feedback events, and saves, which may change the files of a flow. -/
inductive OverlayOp (F : Type) where
  | update (repo name : String) (upd : FlowOverlayUpdate) (now : Int)
  | save (env : Env F) (m : Record)

variable (K : Keyspace)

def OverlayOp.apply (s : Server F) : OverlayOp F → Server F
  | .update repo name upd now => ((updateFlowOverlay lower K now repo name upd).run s).2
  | .save env m => ((m.save env K).run s).2

/-- The runs of one store. -/
def overlayRuns : Machine (Server F) (OverlayOp F) := ⟨fun s op => some (op.apply lower K s)⟩

/-- **The condition on an event** that is carried out: no file that counts is repeated. -/
def Unrepeated (s : Server F) : OverlayOp F → Prop
  | .update repo name upd _ =>
    s.Accepts K repo name → NoRepeat lower upd (s.flowFiles K repo name)
  | .save _ _ => True

theorem hashAt_congr {s t : Server F} {key : String} (h : t.keys.lookup key = s.keys.lookup key) :
    t.hashAt key = s.hashAt key := by
  unfold Server.hashAt
  rw [h]

/-- The fields of a save are no counters. -/
theorem Record.noCounters (env : Env F) (m : Record) (vec : List F) :
    NoCounters ((m.fields env vec).map Prod.fst) = true := by
  rw [names_eq]
  cases m with
  | file m =>
    simp only [base, optionals, optional_names]
    split_ifs <;> decide +kernel
  | func m =>
    simp only [base, optionals, optional_names]
    split_ifs <;> decide +kernel
  | flow m =>
    simp only [base, optionals, List.map_append, optional_names]
    split_ifs <;> decide +kernel

/-- **One step** keeps every overlay within its total. -/
theorem overlay_step {key : String} {s : Server F} {op : OverlayOp F}
    (hI : ∃ h, s.hashAt key = some h ∧ Bounded h) (hok : Unrepeated lower K s op) :
    ∃ h, (op.apply lower K s).hashAt key = some h ∧ Bounded h := by
  obtain ⟨h, hh, hb⟩ := hI
  cases op with
  | update repo name upd now =>
    obtain ⟨hself, hne⟩ := updateFlowOverlay_run lower K now repo name upd s
    -- the update is this flow's; another flow's key is left alone
    by_cases heq : key = flowOverlayKey K repo name
    · subst heq
      change ∃ h, ((updateFlowOverlay lower K now repo name upd).run s).2.hashAt _ = some h ∧ _
      rw [hself, hh]
      by_cases hacc : s.Accepts K repo name
      · rw [if_pos hacc]
        exact ⟨eventHash lower upd (s.flowFiles K repo name) now h, rfl,
          hb.event lower (hok hacc) now⟩
      · rw [if_neg hacc]
        exact ⟨h, rfl, hb⟩
    · exact ⟨h, (hashAt_congr (hne key heq)).trans hh, hb⟩
  | save env m =>
    -- a save writes an overlay's key only where a memory has that key, and then no counter
    by_cases heq : key = m.key K
    · subst heq
      refine ⟨_, (m.save_hashAt env K s).trans (by rw [hh]; rfl), ?_⟩
      dsimp only
      by_cases hstop : m.StoppedBy env (h.text "source")
      · rw [m.writes_of_stopped env hstop]
        exact hb
      · obtain ⟨vec, -, hw⟩ := m.writes_of_not_stopped env hstop
        rw [hw]
        exact hb.hsetFields (m.noCounters env vec)
    · exact ⟨h, (hashAt_congr (m.save_frame env K s heq)).trans hh, hb⟩

/-- **The counters of an overlay stay within its total** in every run of events and saves in which no
event repeats a file that counts, from the first event of the flow on; and the next event counts each
file at most once exactly when it repeats none. -/
theorem overlay_bounded (repo name : String) (s : Server F)
    (hnew : s.keys.lookup (flowOverlayKey K repo name) = none) {ops : List (OverlayOp F)}
    {t : Server F} (hok : (overlayRuns lower K).Along (Unrepeated lower K) s ops)
    (hrun : (overlayRuns lower K).exec s ops = some t) :
    ∃ h, t.hashAt (flowOverlayKey K repo name) = some h ∧ Bounded h ∧
      ∀ upd now, t.Accepts K repo name → ∃ h',
        (OverlayOp.apply lower K t (.update repo name upd now)).hashAt (flowOverlayKey K repo name)
            = some h' ∧
          (CountsOnce h h' ↔ NoRepeat lower upd (t.flowFiles K repo name)) := by
  -- a new flow has no counters, and each step that is not repeated keeps them bounded
  have hstart : ∃ h, s.hashAt (flowOverlayKey K repo name) = some h ∧ Bounded h := by
    refine ⟨fun _ => none, ?_, .empty⟩
    unfold Server.hashAt
    rw [hnew]
  obtain ⟨h, hh, hb⟩ := Machine.invariant (M := overlayRuns lower K)
    (I := fun s => ∃ h, s.hashAt (flowOverlayKey K repo name) = some h ∧ Bounded h)
    (fun s op s' hI hop hs => Option.some.inj hs ▸ overlay_step lower K hI hop)
    hstart hok hrun
  refine ⟨h, hh, hb, fun upd now hacc => ⟨_, ?_, countsOnce_iff lower hb upd _ now⟩⟩
  change ((updateFlowOverlay lower K now repo name upd).run t).2.hashAt _ = _
  rw [(updateFlowOverlay_run lower K now repo name upd t).1, if_pos hacc, hh]
  rfl

/-- The event of a task that read `a.go` and missed the given files. -/
def readA (missingFiles : List String) : FlowOverlayUpdate where
  queryID := "q1"
  readFiles := ["a.go"]
  missingFiles := missingFiles
  success := true
  additionalFiles := 0

/-- The overlay of the flow `login` after a save with these files and one event. -/
def afterEvent (files : String) (missingFiles : List String) : Server ℕ :=
  OverlayOp.apply Char.toLower .mem (OverlayOp.apply Char.toLower .mem (Server.empty ℕ)
    (.save .still (.flow (flowAt files "")))) (.update "r" "login" (readA missingFiles) 0)

/-- A run of one save and one event. -/
theorem overlay_bounded_login :
    ∃ h, (afterEvent "a.go, b.go" ["c.go"]).hashAt (flowOverlayKey .mem "r" "login") = some h ∧
      Bounded h := by
  have hok : (overlayRuns (F := ℕ) Char.toLower .mem).Along (Unrepeated Char.toLower .mem)
      (Server.empty ℕ) [.save .still (.flow (flowAt "a.go, b.go" "")),
        .update "r" "login" (readA ["c.go"]) 0] := by
    refine ⟨trivial, fun s hs => ⟨fun _ => ?_, fun _ _ => trivial⟩⟩
    obtain rfl := Option.some.inj hs
    decide +kernel
  obtain ⟨h, hh, hb, -⟩ := overlay_bounded Char.toLower .mem "r" "login" (Server.empty ℕ) rfl hok rfl
  exact ⟨h, hh, hb⟩

/-- **A repeated file is counted twice**: after one event on a flow whose list names `a.go` twice, and
which misses `c.go` twice, both counters are 2 and the total is 1. -/
theorem repeated_file_exceeds_total :
    let h := (afterEvent "a.go,a.go" ["c.go", "c.go"]).hashAt (flowOverlayKey .mem "r" "login")
    h.map (counter · "file_useful:a.go") = some 2 ∧ h.map (counter · "missing:c.go") = some 2 ∧
      h.map (counter · "total_feedback") = some 1 := by
  decide +kernel

end Devrouter.Memory
