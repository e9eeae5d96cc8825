import Devrouter.Router.Attribution

/-!
# Whom a feedback blames

A feedback that had to look further records a false positive against each memory its query returned, unless the
files of the memory overlap those the agent read (`attributeFalsePositives`). `LoadMemoryFiles` answers no files both
for a memory that names none or is gone, and for all of them when one read fails; and no files overlap nothing.

`submitBlaming` is the feedback with a report on its blames, and `submit_eq` erases the report. The blame of a memory
is sound when its record is there, its files were read, and none of them was read by the agent. Since `wp` is exact
for each part of the feedback, `blame_sound_iff` is an equivalence: it says from which inputs every run is sound, and
from which every run whose reads of the files go through.
-/

open Prog

namespace Devrouter

variable {F : Type}

/-! ### The report -/

/-- A report on the blames of a feedback: the trace it went by, whether the files of the memories were read, and the
memories whose false positive was recorded. -/
structure Blame where
  fields : TraceFields
  loaded : Bool
  keys : List String

/-- The report of a feedback that blames nobody. -/
def Blame.nobody (fields : TraceFields) : Blame := ⟨fields, false, []⟩

section Memories

open Memory

/-- The loop of `attributeFalsePositives`, with the memories it records. -/
def recordBlames (env : FeedbackEnv F) (files : String → List String) (agentFiles : List String)
    (emb : List F) : List String → Prog (memdb F) (List String)
  | [] => return []
  | mk :: mks => do
    if filesOverlap env.lower (files mk) agentFiles then recordBlames env files agentFiles emb mks
    else
      let err ← recordFalsePositive env.mean mk emb
      let keys ← recordBlames env files agentFiles emb mks
      return if err.isNone then mk :: keys else keys

/-- `attributeFalsePositives`, with a report. -/
def blame (env : FeedbackEnv F) (fields : TraceFields) (input : FeedbackInput) : Prog (memdb F) Blame :=
  let agentFiles := splitCSV input.filePaths
  let memKeys := splitCSV (traceField env.formatG fields "memory_keys")
  let queryText := traceField env.formatG fields "query"
  -- nobody is blamed when the agent read nothing beyond what it was given
  if input.additionalFiles ≤ 0 then return .nobody fields
  else if agentFiles.isEmpty || memKeys.isEmpty || decide (queryText = "") then return .nobody fields
  else
    match env.embed queryText with
    | none => return .nobody fields
    | some emb => do
      -- the files of the memories are read once; when this fails, no memory has any
      let files ← readMemoryFiles memKeys
      let keys ← recordBlames env (files.getD fun _ => []) agentFiles emb memKeys
      return ⟨fields, files.isSome, keys⟩

end Memories

/-- `creditJoin`, with a report. -/
def creditJoinBlaming (env : FeedbackEnv F) (s : Session) (call : FeedbackCall) (now : Int) (j : Join)
    (fields : TraceFields) :
    Prog (stores F) (((FeedbackResult × Option FlowOverlayResult) × Session) × Blame) := do
  let ((raw, adjusted), picker) ← (creditBucket s.picker j call.toFeedbackInput now).left
  let sources ← (creditSource picker.frozen s.sources j (sourceExploreFromTrace env.formatG fields)
    adjusted now).left.right
  (Anchorlearn.rewardFeedback j.queryID (splitCSV call.filePaths) call.success
    (now / 1000)).left.right.right
  let b ← (blame env fields call.toFeedbackInput).right.right.right
  let overlay ← (applyFlowOverlay env call j.queryID now).right.right.right
  return (((⟨j.queryID, j.intent, j.profileID, raw, adjusted, j.joinedVia, ""⟩, overlay),
    { s with picker, sources }), b)

/-- `submitFrom`, with a report. -/
def submitFromBlaming (env : FeedbackEnv F) (s : Session) (call : FeedbackCall) (now : Int)
    (fields : TraceFields) :
    Prog (stores F) (((FeedbackResult × Option FlowOverlayResult) × Session) × Blame) := do
  match ← (joinFrom env.formatG call.queryID (s.lastCalls.mostRecent now) fields).left with
  | none => return (((droppedResult, none), s), .nobody [])
  | some (j, fields) => creditJoinBlaming env s call now j fields

/-- `SubmitFeedback`, with a report. -/
def submitBlaming (env : FeedbackEnv F) (s : Session) (call : FeedbackCall) (now : Int) :
    Prog (stores F) (((FeedbackResult × Option FlowOverlayResult) × Session) × Blame) := do
  let fields ← (getTrace call.queryID).left
  submitFromBlaming env s call now fields

/-! ### Without the report -/

theorem recordFalsePositives_eq (env : FeedbackEnv F) (files : String → List String) (agentFiles : List String)
    (emb : List F) (memKeys : List String) :
    recordFalsePositives env files agentFiles emb memKeys
      = List.length <$> recordBlames env files agentFiles emb memKeys := by
  induction memKeys with
  | nil => rfl
  | cons mk mks ih =>
    unfold recordFalsePositives recordBlames
    split_ifs with hoverlap
    · exact ih
    · rw [map_bind, ih]
      refine congrArg _ (funext fun err => ?_)
      rw [map_bind, bind_map_left]
      refine congrArg _ (funext fun keys => ?_)
      split_ifs <;> rfl

theorem attributeFalsePositives_eq (env : FeedbackEnv F) (fields : TraceFields) (input : FeedbackInput) :
    attributeFalsePositives env fields input = (fun b => b.keys.length) <$> blame env fields input := by
  unfold attributeFalsePositives blame
  dsimp only
  split_ifs
  · rfl
  · rfl
  · cases env.embed (traceField env.formatG fields "query") with
    | none => rfl
    | some emb =>
      dsimp only
      unfold loadMemoryFiles
      rw [bind_assoc, map_bind]
      refine congrArg _ (funext fun files => ?_)
      rw [pure_bind, recordFalsePositives_eq, map_bind, map_eq_pure_bind]
      rfl

/-- **The report changes nothing.** -/
theorem submit_eq (env : FeedbackEnv F) (s : Session) (call : FeedbackCall) (now : Int) :
    submit env s call now = Prod.fst <$> submitBlaming env s call now := by
  unfold submit submitFrom submitBlaming submitFromBlaming
  rw [map_bind]
  refine congrArg _ (funext fun fields => ?_)
  rw [map_bind]
  refine congrArg _ (funext fun o => ?_)
  cases o with
  | none => rfl
  | some p =>
    dsimp only
    unfold creditJoin creditJoinBlaming
    simp only [attributeFalsePositives_eq, right_map, bind_map_left, map_bind, map_pure]

/-! ### The record of a false positive -/

section Memories

open Memory

/-- A false positive of the memory can be recorded: its key holds nothing but a hash. -/
def Recordable (emb : List F) (db : Server F) (mk : String) : Prop :=
  mk ≠ "" ∧ emb.length = embedDim ∧ (db.hashAt (fpKey mk)).isSome = true

/-- The keys that hold something other than a hash are the same. -/
def SameKinds (db db' : Server F) : Prop := ∀ key, (db'.hashAt key).isSome = (db.hashAt key).isSome

theorem sameKinds_putHash {db : Server F} {key : String} (hkey : (db.hashAt key).isSome = true) (h : Hash F) :
    SameKinds db (db.putHash key h) := by
  intro key'
  by_cases heq : key' = key
  · rw [heq, Server.hashAt_putHash_self, hkey]
    rfl
  · rw [Server.hashAt_putHash_ne db h heq]

theorem Recordable.congr {emb : List F} {db db' : Server F} (h : SameKinds db db') {mk : String} :
    Recordable emb db' mk ↔ Recordable emb db mk := by
  unfold Recordable
  rw [h]

variable (mean : ℤ → F → F → F) (mk : String) (emb : List F) (db : Server F)

/-- A record that is written could be, and no key changes its kind. -/
theorem recordFalsePositive_wp : (recordFalsePositive mean mk emb).wp
    (fun err db' => SameKinds db db' ∧ (err.isNone = true → Recordable emb db mk)) db := by
  have hrefl : SameKinds db db := fun _ => rfl
  unfold recordFalsePositive getFP
  split_ifs with hmk hdim
  · exact ⟨hrefl, nofun⟩
  · exact ⟨hrefl, nofun⟩
  · rw [wp_bind, wp_map, Mdb.hgetall_wp]
    refine ⟨⟨hrefl, nofun⟩, ?_⟩
    cases hhash : db.hashAt (fpKey mk) with
    | none => exact ⟨hrefl, nofun⟩
    | some h =>
      have hsome : (db.hashAt (fpKey mk)).isSome = true := by rw [hhash]; rfl
      rw [Option.map_some]
      dsimp only
      rw [wp_bind, Mdb.hset_wp]
      exact ⟨⟨hrefl, nofun⟩, fun h' _ => ⟨sameKinds_putHash hsome _, fun _ => ⟨hmk, not_not.mp hdim, hsome⟩⟩⟩

variable {mean mk emb db}

/-- A record that can be written may be, -/
theorem recordFalsePositive_written {Q : Option FPErr → Server F → Prop} (hmk : Recordable emb db mk)
    (h : (recordFalsePositive mean mk emb).wp Q db) : ∃ db', Q none db' := by
  obtain ⟨hne, hdim, hsome⟩ := hmk
  obtain ⟨fields, hfields⟩ := Option.isSome_iff_exists.mp hsome
  unfold recordFalsePositive getFP at h
  rw [if_neg hne, if_neg (not_not.mpr hdim), wp_bind, wp_map, Mdb.hgetall_wp, hfields, Option.map_some] at h
  have hwrite := h.2
  dsimp only at hwrite
  rw [wp_bind, Mdb.hset_wp] at hwrite
  exact ⟨_, hwrite.2 fields hfields⟩

/-- and any record may not be. -/
theorem recordFalsePositive_unwritten {Q : Option FPErr → Server F → Prop}
    (h : (recordFalsePositive mean mk emb).wp Q db) : ∃ err, Q (some err) db := by
  unfold recordFalsePositive getFP at h
  split_ifs at h with hmk hdim
  · exact ⟨_, h⟩
  · exact ⟨_, h⟩
  · rw [wp_bind, wp_map, Mdb.hgetall_wp] at h
    exact ⟨_, h.1⟩

/-! ### The loop -/

/-- **The loop** records, as far as nothing fails, each memory whose files overlap none that were read. -/
theorem recordBlames_wp (env : FeedbackEnv F) (files : String → List String) (agentFiles : List String)
    (emb : List F) (memKeys : List String) {P : String → Prop} (db : Server F) :
    (recordBlames env files agentFiles emb memKeys).wp (fun keys _ => ∀ mk ∈ keys, P mk) db ↔
      ∀ mk ∈ memKeys, filesOverlap env.lower (files mk) agentFiles = false → Recordable emb db mk → P mk := by
  induction memKeys generalizing db with
  | nil => simp [recordBlames]
  | cons mk mks ih =>
    unfold recordBlames
    rw [List.forall_mem_cons]
    by_cases hoverlap : filesOverlap env.lower (files mk) agentFiles = true
    · rw [if_pos hoverlap, ih, hoverlap]
      simp
    · rw [if_neg hoverlap, wp_bind]
      constructor
      · intro h
        refine ⟨fun _ hmk => ?_, ?_⟩
        -- when it is recorded, whatever the rest of the loop does
        · obtain ⟨db', h'⟩ := recordFalsePositive_written hmk h
          rw [wp_bind] at h'
          refine ((recordBlames env files agentFiles emb mks).wp_const (P mk) db').mp ?_
          exact wp_mono h' fun keys _ hkeys => hkeys mk List.mem_cons_self
        -- when it is not, the rest of the loop starts from the same server
        · obtain ⟨err, h'⟩ := recordFalsePositive_unwritten h
          rw [wp_bind] at h'
          exact (ih db).mp h'
      · rintro ⟨hhead, htail⟩
        refine wp_mono (recordFalsePositive_wp env.mean mk emb db) ?_
        rintro err db' ⟨hkinds, hwritten⟩
        rw [wp_bind]
        have hrest := (ih db').mpr fun mk' hmk' hfree hrec => htail mk' hmk' hfree ((Recordable.congr hkinds).mp hrec)
        refine wp_mono hrest fun keys _ hkeys => ?_
        show ∀ mk' ∈ (if err.isNone then mk :: keys else keys), P mk'
        split_ifs with herr
        · exact List.forall_mem_cons.mpr ⟨hhead (by simpa using hoverlap) (hwritten herr), hkeys⟩
        · exact hkeys

/-! ### The files -/

/-- The answer of `LoadMemoryFiles` when no read fails; nothing when a key holds no hash. -/
def filesAt (db : Server F) : List String → Option (String → List String)
  | [] => some fun _ => []
  | k :: ks => (db.hashAt k).bind fun h => (filesAt db ks).map fun m => Function.update m k (memoryFiles h)

theorem readMemoryFiles_wp (memKeys : List String) {Q : Option (String → List String) → Server F → Prop}
    (db : Server F) :
    (readMemoryFiles memKeys).wp Q db ↔ (memKeys ≠ [] → Q none db) ∧ Q (filesAt db memKeys) db := by
  induction memKeys generalizing Q with
  | nil => simp [readMemoryFiles, filesAt]
  | cons k ks ih =>
    unfold readMemoryFiles filesAt
    rw [wp_bind, Mdb.hgetall_wp]
    -- one read that fails is enough
    have hnone : (readMemoryFiles ks >>= fun rest => (pure ((none : Option (Hash F)).bind fun h => rest.map fun m =>
        Function.update m k (memoryFiles h)) : Prog (memdb F) _)).wp Q db ↔ Q none db := by
      rw [wp_bind, ih]
      exact ⟨And.right, fun h => ⟨fun _ => h, h⟩⟩
    rw [hnone, wp_bind, ih]
    simp only [wp_pure, Option.map_none, Option.bind_fun_none]
    simp only [ne_eq, reduceCtorEq, not_false_eq_true, forall_const]
    exact ⟨fun h => ⟨h.1, h.2.2⟩, fun h => ⟨h.1, fun _ => h.1, h.2⟩⟩

/-- All the reads go through, and what they read. -/
theorem filesAt_eq_some {db : Server F} {memKeys : List String} {m : String → List String}
    (h : filesAt db memKeys = some m) {mk : String} (hmk : mk ∈ memKeys) :
    ∃ fields, db.hashAt mk = some fields ∧ m mk = memoryFiles fields := by
  induction memKeys generalizing m with
  | nil => exact absurd hmk List.not_mem_nil
  | cons k ks ih =>
    obtain ⟨fields, hfields, hrest⟩ := Option.bind_eq_some_iff.mp h
    obtain ⟨m', hm', rfl⟩ := Option.map_eq_some_iff.mp hrest
    by_cases hk : mk = k
    · exact ⟨fields, hk ▸ hfields, by rw [hk, Function.update_self]⟩
    · rw [Function.update_of_ne hk]
      exact ih hm' ((List.mem_cons.mp hmk).resolve_left hk)

theorem filesAt_isSome {db : Server F} {memKeys : List String} :
    (filesAt db memKeys).isSome = true ↔ ∀ mk ∈ memKeys, (db.hashAt mk).isSome = true := by
  induction memKeys with
  | nil => simp [filesAt]
  | cons k ks ih =>
    rw [List.forall_mem_cons, ← ih, filesAt]
    cases db.hashAt k with
    | none => simp
    | some fields => simp

/-! ### Sound blame -/

/-- A file of the memory and one that was read are the same file, as far as their paths tell. -/
def Overlaps (lower : Char → Char) (memoryOwned agentRead : List String) : Prop :=
  ∃ m ∈ memoryOwned, ∃ a ∈ agentRead, normalisePath lower m ≠ "" ∧ normalisePath lower a ≠ "" ∧
    ((normalisePath lower m).toList <:+: (normalisePath lower a).toList ∨
      (normalisePath lower a).toList <:+: (normalisePath lower m).toList)

theorem filesOverlap_iff {lower : Char → Char} {memoryOwned agentRead : List String} :
    filesOverlap lower memoryOwned agentRead = true ↔ Overlaps lower memoryOwned agentRead := by
  unfold filesOverlap Overlaps contains
  simp only [List.any_eq_true, Bool.and_eq_true, Bool.or_eq_true, decide_eq_true_eq, and_assoc]
  refine exists_congr fun m => and_congr_right fun _ => exists_congr fun a => and_congr_right fun _ => ?_
  refine and_congr_right fun _ => and_congr_right fun _ => ⟨?_, fun h => h.imp_left .inr⟩
  -- equal paths contain each other
  rintro ((heq | hsub) | hsub)
  · rw [heq]
    exact .inl List.infix_rfl
  · exact .inl hsub
  · exact .inr hsub

/-- **A sound blame** of a memory, by the trace with these fields: the agent had to look further, the query returned
the memory, the record of the memory is there and names a file, the files of the memories were read, and those of this
one overlap none that the agent read. -/
structure SoundBlame (env : FeedbackEnv F) (input : FeedbackInput) (db : Server F) (fields : TraceFields)
    (loaded : Bool) (mk : String) : Prop where
  additional : 0 < input.additionalFiles
  listed : mk ∈ splitCSV (traceField env.formatG fields "memory_keys")
  loaded : loaded = true
  named : ∃ h, db.keys.lookup mk = some (.hash h) ∧ memoryFiles h ≠ [] ∧
    ¬Overlaps env.lower (memoryFiles h) (splitCSV input.filePaths)

/-- A feedback with this trace may blame the memory: nothing but its files can keep it from being recorded. -/
structure Blamable (env : FeedbackEnv F) (input : FeedbackInput) (fields : TraceFields) (db : Server F)
    (mk : String) : Prop where
  additional : 0 < input.additionalFiles
  read : splitCSV input.filePaths ≠ []
  listed : mk ∈ splitCSV (traceField env.formatG fields "memory_keys")
  query : traceField env.formatG fields "query" ≠ ""
  recordable : ∃ emb, env.embed (traceField env.formatG fields "query") = some emb ∧ Recordable emb db mk

/-- The record of the memory is there and names a file. -/
def NamesFile (db : Server F) (mk : String) : Prop :=
  ∃ fields, db.keys.lookup mk = some (.hash fields) ∧ memoryFiles fields ≠ []

theorem lookup_of_hashAt {db : Server F} {mk : String} {fields : Hash F} (h : db.hashAt mk = some fields)
    (hfiles : memoryFiles fields ≠ []) : db.keys.lookup mk = some (.hash fields) := by
  unfold Server.hashAt at h
  cases hl : db.keys.lookup mk with
  | none =>
    -- a missing record names no file
    rw [hl] at h
    obtain rfl := Option.some.inj h
    exact absurd rfl hfiles
  | some e =>
    rw [hl] at h
    cases e with
    | hash fields' =>
      obtain rfl := Option.some.inj h
      rfl
    | str v => cases h
    | list xs => cases h

theorem hashAt_of_lookup {db : Server F} {mk : String} {fields : Hash F}
    (h : db.keys.lookup mk = some (.hash fields)) : db.hashAt mk = some fields := by
  unfold Server.hashAt
  rw [h]

/-- With an embedding of the query, the memories that can be blamed are the listed ones that can be recorded. -/
theorem blamable_iff {env : FeedbackEnv F} {input : FeedbackInput} {fields : TraceFields} {db : Server F}
    {emb : List F} (hadd : 0 < input.additionalFiles) (hread : splitCSV input.filePaths ≠ [])
    (hquery : traceField env.formatG fields "query" ≠ "")
    (hemb : env.embed (traceField env.formatG fields "query") = some emb) (mk : String) :
    Blamable env input fields db mk ↔
      mk ∈ splitCSV (traceField env.formatG fields "memory_keys") ∧ Recordable emb db mk := by
  refine ⟨fun h => ⟨h.listed, ?_⟩, fun h => ⟨hadd, hread, h.1, hquery, emb, hemb, h.2⟩⟩
  obtain ⟨emb', hemb', hrec⟩ := h.recordable
  obtain rfl := Option.some.inj (hemb.symm.trans hemb')
  exact hrec

/-- Without an embedding none can be. -/
theorem not_blamable {env : FeedbackEnv F} {input : FeedbackInput} {fields : TraceFields} {db : Server F}
    (hemb : env.embed (traceField env.formatG fields "query") = none) (mk : String) :
    ¬ Blamable env input fields db mk := by
  intro h
  obtain ⟨emb, hemb', -⟩ := h.recordable
  rw [hemb] at hemb'
  cases hemb'

/-- The blames once the files were read or could not be. -/
theorem recordBlames_reported_wp (env : FeedbackEnv F) (input : FeedbackInput) (fields : TraceFields)
    (emb : List F) (memKeys : List String) (db : Server F) (files : Option (String → List String))
    {P : TraceFields → Bool → String → Prop} :
    (do
        let keys ← recordBlames env (files.getD fun _ => []) (splitCSV input.filePaths) emb memKeys
        return (⟨fields, files.isSome, keys⟩ : Blame) : Prog (memdb F) Blame).wp
        (fun b _ => ∀ mk ∈ b.keys, P b.fields b.loaded mk) db ↔
      ∀ mk ∈ memKeys,
        filesOverlap env.lower ((files.getD fun _ => []) mk) (splitCSV input.filePaths) = false →
          Recordable emb db mk → P fields files.isSome mk := by
  rw [wp_bind]
  exact recordBlames_wp env (files.getD fun _ => []) (splitCSV input.filePaths) emb memKeys
    (P := P fields files.isSome) db

/-- What the files that were read keep from being blamed. -/
theorem forall_filesAt_iff {lower : Char → Char} {agentRead memKeys : List String} {db : Server F} {mk : String}
    (hlisted : mk ∈ memKeys) {C : Bool → Prop} (hunread : C false) :
    (filesOverlap lower (((filesAt db memKeys).getD fun _ => []) mk) agentRead = false →
        C (filesAt db memKeys).isSome) ↔
      ((∀ k ∈ memKeys, (db.hashAt k).isSome = true) →
        ∀ h, db.hashAt mk = some h → ¬Overlaps lower (memoryFiles h) agentRead → C true) := by
  cases hm : filesAt db memKeys with
  | none =>
    -- the files were not read, and some memory cannot be
    refine iff_of_true (fun _ => hunread) fun hall => ?_
    have hsome := filesAt_isSome.mpr hall
    rw [hm] at hsome
    cases hsome
  | some m =>
    have hall : ∀ k ∈ memKeys, (db.hashAt k).isSome = true := filesAt_isSome.mp (by rw [hm]; rfl)
    obtain ⟨fields, hfields, hfiles⟩ := filesAt_eq_some hm hlisted
    rw [Option.getD_some, hfiles, Bool.eq_false_iff, Ne, filesOverlap_iff]
    constructor
    · intro h _ fields' hfields' hfree
      obtain rfl := Option.some.inj (hfields.symm.trans hfields')
      exact h hfree
    · exact fun h hfree => h hall fields hfields hfree

/-- **The blames of a feedback** have a property in every run, exactly when each memory that can be blamed has it: in
any case as one whose files were not read, and by its files when all of them can be. -/
theorem blame_wp (env : FeedbackEnv F) (input : FeedbackInput) (fields : TraceFields) (db : Server F)
    {P : TraceFields → Bool → String → Prop} :
    (blame env fields input).wp (fun b _ => ∀ mk ∈ b.keys, P b.fields b.loaded mk) db ↔
      ∀ mk, Blamable env input fields db mk → P fields false mk ∧
        ((∀ k ∈ splitCSV (traceField env.formatG fields "memory_keys"), (db.hashAt k).isSome = true) →
          ∀ h, db.hashAt mk = some h → ¬Overlaps env.lower (memoryFiles h) (splitCSV input.filePaths) →
            P fields true mk) := by
  unfold blame
  dsimp only
  split_ifs with hadd hsome
  · -- the agent read more files than it was given, so no memory is blamed
    exact iff_of_true nofun fun mk h => absurd h.additional hadd.not_gt
  · -- the trace has no memories or no query
    refine iff_of_true nofun fun mk h => ?_
    have hlisted := List.ne_nil_of_mem h.listed
    simp [h.read, h.query, hlisted] at hsome
  · simp only [Bool.or_eq_true, List.isEmpty_iff, decide_eq_true_eq, not_or] at hsome
    obtain ⟨⟨hread, hkeys⟩, hquery⟩ := hsome
    -- the query's embedding fails, and the recording with it
    cases hemb : env.embed (traceField env.formatG fields "query") with
    | none => exact iff_of_true nofun fun mk h => absurd h (not_blamable hemb mk)
    | some emb =>
      dsimp only
      rw [wp_bind, readMemoryFiles_wp, recordBlames_reported_wp, recordBlames_reported_wp]
      simp only [blamable_iff (not_le.mp hadd) hread hquery hemb]
      -- the files of the memories are read first; whether this succeeds is what `loaded` reports
      constructor
      · rintro ⟨hunread, hload⟩ mk ⟨hlisted, hrec⟩
        have hnone : P fields false mk := hunread hkeys mk hlisted rfl hrec
        refine ⟨hnone, (forall_filesAt_iff hlisted (C := fun loaded => P fields loaded mk) hnone).mp ?_⟩
        exact fun hover => hload mk hlisted hover hrec
      · intro h
        refine ⟨fun _ mk hlisted _ hrec => (h mk ⟨hlisted, hrec⟩).1, fun mk hlisted hover hrec => ?_⟩
        obtain ⟨hunread, hload⟩ := h mk ⟨hlisted, hrec⟩
        exact (forall_filesAt_iff hlisted (C := fun loaded => P fields loaded mk) hunread).mpr hload hover

end Memories

/-! ### The whole of a feedback -/

section Submit

open Memory

variable (env : FeedbackEnv F) (s : Session) (call : FeedbackCall) (now : Int)

/-- The feedback can be joined so: some read of the traces leads there. -/
def CanJoin (w : (stores F).State) (j : Join) (fields : TraceFields) : Prop :=
  (∃ unread, Joined env s call now w.1 (namedFields call w unread) j fields) ∧ j.complete = true

/-- What comes before the blame keeps to other stores. -/
theorem creditJoinBlaming_wp (w : (stores F).State) (j : Join) (fields : TraceFields) {C : Blame → Prop} :
    (creditJoinBlaming env s call now j fields).wp (fun out _ => C out.2) w ↔
      (blame env fields call.toFeedbackInput).wp (fun b _ => C b) w.2.2.2 := by
  unfold creditJoinBlaming
  simp only [wp_bind, wp_left, wp_right, wp_pure, wp_const]

/-- A trace is read, or is not. -/
theorem getTrace_wp_iff (queryID : String) (r : Redis F) {Q : TraceFields → Redis F → Prop} :
    (getTrace queryID).wp Q r ↔ Q [] r ∧ Q (r.traceOf queryID) r := by
  unfold getTrace Redis.traceOf
  split_ifs
  · exact (and_self_iff).symm
  · exact Iff.rfl

theorem completeJoin_wp {j : Join} {fields : TraceFields} {C : Option (Join × TraceFields) → Prop} (hnone : C none) :
    C (completeJoin j fields) ↔ (j.complete = true → C (some (j, fields))) := by
  unfold completeJoin
  split_ifs with hcomplete
  · exact ⟨fun h _ => h, fun h => h hcomplete⟩
  · exact iff_of_true hnone fun h => absurd h hcomplete

/-- The joins: by the trace that is named, or else by the most recent call. -/
theorem joinFrom_wp_iff (r : Redis F) (fields : TraceFields) {C : Option (Join × TraceFields) → Prop}
    (hnone : C none) :
    (joinFrom env.formatG call.queryID (s.lastCalls.mostRecent now) fields).wp (fun o _ => C o) r ↔
      ∀ j fields', Joined env s call now r fields j fields' → j.complete = true → C (some (j, fields')) := by
  unfold joinFrom
  by_cases hfields : fields = []
  · rw [hfields, if_pos List.isEmpty_nil]
    cases hrecent : s.lastCalls.mostRecent now with
    | none =>
      -- without a recent call nothing is joined
      refine iff_of_true hnone fun j fields' hj => ?_
      cases hj with
      | named hne => exact absurd rfl hne
      | recent _ he _ =>
        rw [he.1] at hrecent
        cases hrecent
    | some e =>
      dsimp only
      rw [wp_bind, getTrace_wp_iff, wp_pure, wp_pure, completeJoin_wp hnone, completeJoin_wp hnone]
      -- the trace of the recent call is missing, or it is there
      constructor
      · rintro ⟨hempty, htraced⟩ j fields' hj hcomplete
        cases hj with
        | named hne => exact absurd rfl hne
        | recent _ he htrace =>
          obtain rfl := Option.some.inj (hrecent.symm.trans he.1)
          obtain rfl | rfl := htrace
          · exact hempty hcomplete
          · exact htraced hcomplete
      · intro h
        have hoffers : ∀ fields', (joinRecent env.formatG e fields').complete = true → s.lastCalls.Offers now e :=
          fun fields' hcomplete => ⟨hrecent, Join.complete_iff.mp hcomplete⟩
        exact ⟨fun hc => h _ _ (.recent rfl (hoffers _ hc) (.inl rfl)) hc,
          fun hc => h _ _ (.recent rfl (hoffers _ hc) (.inr rfl)) hc⟩
  · rw [if_neg (by simpa using hfields), wp_pure, completeJoin_wp hnone]
    refine ⟨fun h j fields' hj hcomplete => ?_, fun h hcomplete => h _ _ (.named hfields) hcomplete⟩
    -- a trace that is named is joined as it stands
    cases hj with
    | named _ => exact h hcomplete
    | recent hnil _ _ => exact absurd hnil hfields

theorem submitFromBlaming_wp (w : (stores F).State) (fields : TraceFields) {C : Blame → Prop}
    (hnobody : C (.nobody [])) :
    (submitFromBlaming env s call now fields).wp (fun out _ => C out.2) w ↔
      ∀ j fields', Joined env s call now w.1 fields j fields' → j.complete = true →
        (blame env fields' call.toFeedbackInput).wp (fun b _ => C b) w.2.2.2 := by
  -- the blame follows the join, so its postcondition is that of the joined trace
  have hjoin := joinFrom_wp_iff env s call now w.1 fields (C := fun o => ∀ p, o = some p →
    (blame env p.2 call.toFeedbackInput).wp (fun b _ => C b) w.2.2.2) nofun
  unfold submitFromBlaming
  rw [wp_bind, wp_left]
  constructor
  · intro h j fields' hj hcomplete
    refine hjoin.mp (wp_mono h ?_) j fields' hj hcomplete _ rfl
    rintro o r hrest p rfl
    exact (creditJoinBlaming_wp env s call now (r, w.2) p.1 p.2).mp hrest
  · intro h
    refine wp_mono (hjoin.mpr fun j fields' hj hcomplete p hp => ?_) ?_
    · obtain rfl := Option.some.inj hp
      exact h j fields' hj hcomplete
    · intro o r hrest
      cases o with
      | none => exact hnobody
      | some p => exact (creditJoinBlaming_wp env s call now (r, w.2) p.1 p.2).mpr (hrest p rfl)

/-- **The reports of a feedback** are those of the joins it can make. -/
theorem submitBlaming_wp (w : (stores F).State) {C : Blame → Prop} (hnobody : C (.nobody [])) :
    (submitBlaming env s call now).wp (fun out _ => C out.2) w ↔
      ∀ j fields, CanJoin env s call now w j fields →
        (blame env fields call.toFeedbackInput).wp (fun b _ => C b) w.2.2.2 := by
  unfold submitBlaming
  rw [wp_bind, wp_left, getTrace_wp_iff, submitFromBlaming_wp env s call now w _ hnobody,
    submitFromBlaming_wp env s call now w _ hnobody]
  constructor
  · rintro ⟨hunread, hread⟩ j fields ⟨⟨unread, hj⟩, hcomplete⟩
    cases unread with
    | false => exact hread j fields hj hcomplete
    | true => exact hunread j fields hj hcomplete
  · intro h
    exact ⟨fun j fields hj hcomplete => h j fields ⟨⟨true, hj⟩, hcomplete⟩,
      fun j fields hj hcomplete => h j fields ⟨⟨false, hj⟩, hcomplete⟩⟩

/-- Every blame of a report is sound. -/
def SoundReport (w : (stores F).State) (b : Blame) : Prop :=
  ∀ mk ∈ b.keys, SoundBlame env call.toFeedbackInput w.2.2.2 b.fields b.loaded mk

/-- The feedback can blame the memory, by a trace it can join. -/
def CanBlame (w : (stores F).State) (fields : TraceFields) (mk : String) : Prop :=
  (∃ j, CanJoin env s call now w j fields) ∧ Blamable env call.toFeedbackInput fields w.2.2.2 mk

theorem sound_of_nobody (w : (stores F).State) :
    (∀ fails : ℕ → Bool, SoundReport env call w ((submitBlaming env s call now).runFaults fails w).1.2) ↔
      ∀ fields mk, ¬CanBlame env s call now w fields mk := by
  have hwp := submitBlaming_wp env s call now w (C := SoundReport env call w) nofun
  rw [wp_iff_runFaults] at hwp
  rw [hwp]
  constructor
  · rintro h fields mk ⟨⟨j, hj⟩, hblame⟩
    exact absurd ((blame_wp env call.toFeedbackInput fields w.2.2.2).mp (h j fields hj) mk hblame).1.loaded nofun
  · intro h j fields hj
    exact (blame_wp env call.toFeedbackInput fields w.2.2.2).mpr fun mk hblame =>
      absurd ⟨⟨j, hj⟩, hblame⟩ (h fields mk)

theorem sound_of_named (w : (stores F).State) :
    (∀ fails : ℕ → Bool, ((submitBlaming env s call now).runFaults fails w).1.2.loaded = true →
        SoundReport env call w ((submitBlaming env s call now).runFaults fails w).1.2) ↔
      ∀ fields mk, CanBlame env s call now w fields mk →
        (∀ k ∈ splitCSV (traceField env.formatG fields "memory_keys"), (w.2.2.2.hashAt k).isSome = true) →
          NamesFile w.2.2.2 mk := by
  have hwp := submitBlaming_wp env s call now w (C := fun b => ∀ mk ∈ b.keys, b.loaded = true →
    SoundBlame env call.toFeedbackInput w.2.2.2 b.fields b.loaded mk) nofun
  rw [wp_iff_runFaults] at hwp
  have hblames := fun fields : TraceFields => blame_wp env call.toFeedbackInput fields w.2.2.2
    (P := fun fields loaded mk => loaded = true →
      SoundBlame env call.toFeedbackInput w.2.2.2 fields loaded mk)
  have hswap : ∀ b : Blame, (b.loaded = true → SoundReport env call w b) ↔ ∀ mk ∈ b.keys, b.loaded = true →
      SoundBlame env call.toFeedbackInput w.2.2.2 b.fields b.loaded mk :=
    fun b => ⟨fun h mk hmk hloaded => h hloaded mk hmk, fun h hloaded mk hmk => h mk hmk hloaded⟩
  simp only [hswap]
  rw [hwp]
  constructor
  · rintro h fields mk ⟨⟨j, hj⟩, hblame⟩ hall
    obtain ⟨fields', hfields'⟩ := Option.isSome_iff_exists.mp (hall mk hblame.listed)
    by_cases hover : Overlaps env.lower (memoryFiles fields') (splitCSV call.filePaths)
    -- files that overlap are files
    · obtain ⟨f, hf, -⟩ := hover
      have hfiles := List.ne_nil_of_mem hf
      exact ⟨fields', lookup_of_hashAt hfields' hfiles, hfiles⟩
    · have hsound := ((hblames fields).mp (h j fields hj) mk hblame).2 hall fields' hfields' hover rfl
      obtain ⟨fields'', hlookup, hfiles, -⟩ := hsound.named
      exact ⟨fields'', hlookup, hfiles⟩
  · intro h j fields hj
    refine (hblames fields).mpr fun mk hblame => ⟨nofun, fun hall fields' hfields' hfree _ => ?_⟩
    obtain ⟨fields'', hlookup, hfiles⟩ := h fields mk ⟨⟨j, hj⟩, hblame⟩ hall
    obtain rfl := Option.some.inj (hfields'.symm.trans (hashAt_of_lookup hlookup))
    exact ⟨hblame.additional, hblame.listed, rfl, fields', hlookup, hfiles, hfree⟩

/-- **The blames of a feedback**, from any state. They are sound in every run, whatever fails, exactly when nobody can
be blamed: a read of the files that fails leaves every memory that was returned without files. In the runs whose reads
go through they are sound exactly when each memory that can be blamed is there and names a file. -/
theorem blame_sound_iff (w : (stores F).State) :
    ((∀ fails : ℕ → Bool, SoundReport env call w ((submitBlaming env s call now).runFaults fails w).1.2) ↔
      ∀ fields mk, ¬CanBlame env s call now w fields mk) ∧
    ((∀ fails : ℕ → Bool, ((submitBlaming env s call now).runFaults fails w).1.2.loaded = true →
        SoundReport env call w ((submitBlaming env s call now).runFaults fails w).1.2) ↔
      ∀ fields mk, CanBlame env s call now w fields mk →
        (∀ k ∈ splitCSV (traceField env.formatG fields "memory_keys"), (w.2.2.2.hashAt k).isSome = true) →
          NamesFile w.2.2.2 mk) :=
  ⟨sound_of_nobody env s call now w, sound_of_named env s call now w⟩

end Submit

/-! ### Two wrong blames -/

/-- A program whose embeddings are all zero. -/
def zeroEnv : FeedbackEnv ℚ := { plainEnv with embed := fun _ => some (List.replicate Memory.embedDim 0) }

def blamedKey : String := "mem:r:file:a"

/-- A query that returned one memory. -/
def blamingTrace : TraceFields :=
  [("intent", .text "debug"), ("query", .text "q"), ("memory_keys", .text blamedKey)]

def blamingStores (db : Memory.Server ℚ) : (stores ℚ).State :=
  ({ Redis.empty ℚ with trace := Function.update (fun _ => []) (traceKey "b") blamingTrace }, .empty, .empty, db)

/-- The memory is that of the file `a.go`. -/
def rememberedDb : Memory.Server ℚ :=
  (Memory.Server.empty ℚ).putHash blamedKey (Function.update (fun _ => none) "path" (some (.text "a.go")))

/-- The agent read `a.go`. -/
def readCall : FeedbackCall := { feedbackFor "b" with filePaths := "a.go" }

/-- The session of a program that has just started. -/
def freshSession : Session where
  picker := ⟨.new [], false⟩
  sources := .new false
  lastCalls := .new 16 600000

/-- The memory of the file that was read is blamed when the read of its files fails, and one that is gone is blamed
although nothing fails. -/
theorem read_and_blamed :
    (∃ fails : ℕ → Bool, ∃ b : Blame,
      ((submitBlaming zeroEnv freshSession readCall 1000).runFaults fails (blamingStores rememberedDb)).1.2 = b ∧
        b.keys = [blamedKey] ∧ ¬SoundReport zeroEnv readCall (blamingStores rememberedDb) b) ∧
    (∃ b : Blame, ((submitBlaming zeroEnv freshSession readCall 1000).run (blamingStores (.empty ℚ))).1.2 = b ∧
      b.loaded = true ∧ b.keys = [blamedKey] ∧ ¬SoundReport zeroEnv readCall (blamingStores (.empty ℚ)) b) := by
  constructor
  · -- the read of the files fails, and the memory is blamed all the same
    have hrun : (fun b : Blame => (b.loaded, b.keys)) ((submitBlaming zeroEnv freshSession readCall 1000).runFaults
        (fun n => n == 6) (blamingStores rememberedDb)).1.2 = (false, [blamedKey]) := by
      decide +kernel
    obtain ⟨hloaded, hkeys⟩ := Prod.mk.inj hrun
    refine ⟨_, _, rfl, hkeys, fun h => ?_⟩
    have hsound := h blamedKey (hkeys ▸ List.mem_singleton.mpr rfl)
    rw [hloaded] at hsound
    exact absurd hsound.loaded nofun
  · -- the memory is gone from the store, and is reported as blamed
    have hrun : (fun b : Blame => (b.loaded, b.keys)) ((submitBlaming zeroEnv freshSession readCall 1000).run
        (blamingStores (.empty ℚ))).1.2 = (true, [blamedKey]) := by
      decide +kernel
    obtain ⟨hloaded, hkeys⟩ := Prod.mk.inj hrun
    refine ⟨_, rfl, hloaded, hkeys, fun h => ?_⟩
    obtain ⟨fields, hlookup, -⟩ := (h blamedKey (hkeys ▸ List.mem_singleton.mpr rfl)).named
    cases hlookup

end Devrouter
