import Devrouter.Memory.Keyspace
import Devrouter.Memory.Written

/-!
# Decisions stand under their names

In a store that is only written by its own operations, a hash that calls itself a decision stands at the key of the
repository and the name it holds (`Filed`). Only a save sets these fields, and it sets all three; the other operations
leave them, or delete the hash. `filed_run` is the run, whatever commands fail in it.
-/

open Prog

namespace Devrouter.Memory

variable {F : Type} {K : Keyspace}

/-- What says that a hash is a decision, and which. -/
def identityFields : List String := ["mem_type", "repo", "name"]

/-- A decision stands at the key of its repository and name. -/
def FiledHash (K : Keyspace) (key : String) (h : Hash F) : Prop :=
  h.text "mem_type" = "decision" → key = decisionKey K (h.text "repo") (h.text "name")

/-- **Every decision of the keyspace stands under its name.** -/
def Filed (K : Keyspace) (s : Server F) : Prop :=
  ∀ key h, s.keys.lookup key = some (.hash h) → (keyPrefix K).toList <+: key.toList → FiledHash K key h

theorem Filed.empty (K : Keyspace) : Filed K (Server.empty F) := fun _ _ h => nomatch h

/-- Decisions that stand under their names keep doing so. -/
def Refiles (K : Keyspace) (s t : Server F) : Prop := Filed K s → Filed K t

theorem Refiles.refl (s : Server F) : Refiles K s s := id

theorem Refiles.trans (s t u : Server F) (h : Refiles K s t) (h' : Refiles K t u) : Refiles K s u := fun hs => h' (h hs)

/-! ### One command -/

/-- The command leaves the three fields, or makes of the hash a decision under its name or none at all. -/
def Cmd.Files (K : Keyspace) : Cmd F → Prop
  | .hset key fields =>
    (∀ f ∈ identityFields, f ∉ fields.map Prod.fst) ∨ ∀ h : Hash F, FiledHash K key (hsetFields h fields)
  | .hincrby _ field _ => field ∉ identityFields
  | _ => True

theorem Filed.putHash {s : Server F} (hs : Filed K s) {key : String} {h : Hash F} (hh : FiledHash K key h) :
    Filed K (s.putHash key h) := by
  intro key' h' hlookup hprefix
  by_cases hkey : key' = key
  · subst hkey
    rw [Server.lookup_putHash_self] at hlookup
    exact Entry.hash.inj (Option.some.inj hlookup) ▸ hh
  · rw [s.lookup_putHash_ne h hkey] at hlookup
    exact hs key' h' hlookup hprefix

/-- A write that leaves the three fields. -/
theorem Filed.putHash_same {s : Server F} (hs : Filed K s) {key : String} {h h' : Hash F}
    (hh : s.hashAt key = some h) (hsame : ∀ f ∈ identityFields, h'.text f = h.text f) :
    Filed K (s.putHash key h') := by
  intro key' g hlookup hprefix
  by_cases hkey : key' = key
  · subst hkey
    rw [Server.lookup_putHash_self] at hlookup
    obtain rfl := Entry.hash.inj (Option.some.inj hlookup)
    unfold FiledHash
    rw [hsame "mem_type" (by simp [identityFields]), hsame "repo" (by simp [identityFields]),
      hsame "name" (by simp [identityFields])]
    unfold Server.hashAt at hh
    cases hold : s.keys.lookup key' with
    | none =>
      -- a missing hash is no decision
      rw [hold] at hh
      obtain rfl := Option.some.inj hh
      intro (htype : "" = "decision")
      exact absurd htype (by decide)
    | some e =>
      rw [hold] at hh
      cases e with
      | hash h₀ =>
        obtain rfl := Option.some.inj hh
        exact hs key' h₀ hold hprefix
      | str v => cases hh
      | list xs => cases hh
  · rw [s.lookup_putHash_ne h' hkey] at hlookup
    exact hs key' g hlookup hprefix

theorem Cmd.refiles {c : Cmd F} (hc : c.Files K) (s : Server F) : Refiles K s (c.apply s).2 := by
  intro hs
  cases c with
  | hset key fields =>
    -- the fields that are written leave the identity as it is, or file the memory anew
    cases hh : s.hashAt key with
    | none => simpa [Cmd.apply, hh] using hs
    | some h =>
      have hput : Filed K (s.putHash key (hsetFields h fields)) := by
        rcases hc with hleaves | hfiles
        · exact hs.putHash_same hh fun f hf => text_hsetFields_of_notMem (hleaves f hf) h
        · exact hs.putHash (hfiles h)
      simpa [Cmd.apply, hh] using hput
  | hincrby key field n =>
    -- a counter is not among the identity fields
    cases hh : s.hashAt key with
    | none => simpa [Cmd.apply, hh] using hs
    | some h =>
      cases hv : incrValue n (h field) with
      | none => simpa [Cmd.apply, hh, hv] using hs
      | some v =>
        have hput : Filed K (s.putHash key (Function.update h field (some v))) := by
          refine hs.putHash_same hh fun f hf => ?_
          have hne : f ≠ field := fun heq => hc (heq ▸ hf)
          unfold Hash.text
          rw [Function.update_of_ne hne]
        simpa [Cmd.apply, hh, hv] using hput
  | set key value =>
    -- a string replaces whatever stood there, so no memory is left at the key
    intro key' h' hlookup hprefix
    by_cases hkey : key' = key
    · subst hkey
      change (AList.insert key' (.str value) s.keys).lookup key' = _ at hlookup
      rw [AList.lookup_insert] at hlookup
      cases hlookup
    · change (AList.insert key (.str value) s.keys).lookup key' = _ at hlookup
      rw [AList.lookup_insert_ne hkey] at hlookup
      exact hs key' h' hlookup hprefix
  | del keys =>
    -- what is left after the deletion was there before
    intro key' h' hlookup hprefix
    change (keys.foldl (fun db k => db.erase k) s.keys).lookup key' = _ at hlookup
    rw [lookup_foldl_erase] at hlookup
    split_ifs at hlookup
    exact hs key' h' hlookup hprefix
  | ftCreate name =>
    dsimp only [Cmd.apply]
    split_ifs
    · exact hs
    · exact hs
  | ftDropIndex name =>
    dsimp only [Cmd.apply]
    split_ifs
    · exact hs
    · exact hs
  | hget key field => exact hs
  | hgetall key => exact hs
  | existsKey key => exact hs
  | get key => exact hs
  | scan pattern => exact hs
  | ftInfo name => exact hs

/-! ### The programs -/

theorem Cmd.Quiet.files {c : Cmd F} (hc : c.Quiet) : c.Files K := by
  cases c <;> first | exact trivial | exact hc.elim

theorem call_refiles {c : Cmd F} (hc : c.Files K) : (call (V := memdb F) c).Within (Refiles K) :=
  within_call Refiles.refl (Cmd.refiles hc)

/-- What is issued decides what stays filed. -/
theorem refiles_of_issues {α : Type} {p : Prog (memdb F) α} (hp : p.Issues (Cmd.Files K)) : p.Within (Refiles K) :=
  hp.within Refiles.refl Refiles.trans fun _ hc => Cmd.refiles hc

/-- A decision is filed under its name. -/
theorem files_decision (env : Env F) (m : DecisionMemory) (vec : List F) :
    (Cmd.hset (decisionKey K m.repo m.name) (m.fields env vec) : Cmd F).Files K := by
  refine .inr fun h _ => ?_
  have hnodup := m.fields_nodup env vec
  have hrepo : ("repo", .text m.repo) ∈ m.fields env vec := by simp [DecisionMemory.fields]
  have hname : ("name", .text m.name) ∈ m.fields env vec := by simp [DecisionMemory.fields]
  rw [text_hsetFields hnodup hrepo, text_hsetFields hnodup hname]

/-- The other memories are no decisions. -/
theorem files_record (env : Env F) (m : Record) (key : String) (vec : List F) :
    (Cmd.hset key (m.fields env vec) : Cmd F).Files K := by
  refine .inr fun h htype => ?_
  have htypes : ∃ type, type ≠ "decision" ∧ ("mem_type", .text type) ∈ m.fields env vec := by
    cases m with
    | file m => exact ⟨"file", by decide, by simp [Record.fields, FileMemory.fields]⟩
    | func m => exact ⟨"func", by decide, by simp [Record.fields, FuncMemory.fields]⟩
    | flow m => exact ⟨"flow", by decide, by simp [Record.fields, FlowMemory.fields]⟩
  obtain ⟨type, hne, hmem⟩ := htypes
  rw [text_hsetFields (m.names_nodup env vec) hmem] at htype
  exact absurd htype hne

theorem save_refiles (env : Env F) (a : Save) : (a.save env K).Within (Refiles K) := by
  refine refiles_of_issues (save_issues (fun _ => Cmd.Quiet.files) env K a (fun m vec _ => files_record env m _ vec) ?_)
  rintro m vec rfl
  exact files_decision env m vec

/-- A write that leaves the three fields, one of them or all. -/
theorem files_of_leaves {key : String} {fields : List (String × Value F)}
    (h : (identityFields.all fun f => decide (f ∉ fields.map Prod.fst)) = true) :
    (Cmd.hset key fields : Cmd F).Files K :=
  .inl fun f hf => of_decide_eq_true (List.all_eq_true.mp h f hf)

theorem supersede_refiles (repo o n : String) : (supersedeDecision (F := F) K repo o n).Within (Refiles K) :=
  refiles_of_issues (supersede_issues (fun _ => Cmd.Quiet.files) K repo o n (files_of_leaves rfl) (files_of_leaves rfl))

/-- No counter of an overlay is one of the three fields. -/
theorem not_identity_of_eventFields {lower : Char → Char} {upd : FlowOverlayUpdate} {files : List String} {f : String}
    (hf : f ∈ upd.eventFields lower files) : f ∉ identityFields := by
  -- each field of an event has a colon in its name, but for `total_feedback`
  have hcounter : ':' ∈ f.toList ∨ f = "total_feedback" := by
    have hcolon : ∀ kind rest : String, ':' ∈ kind.toList → ':' ∈ (kind ++ rest).toList := fun kind rest h => by
      rw [String.toList_append]
      exact List.mem_append_left _ h
    unfold FlowOverlayUpdate.eventFields at hf
    rcases List.mem_append.mp hf with hf | hf
    · rcases List.mem_append.mp hf with hf | hf
      · obtain ⟨g, -, hg⟩ := List.mem_flatMap.mp hf
        unfold FlowOverlayUpdate.mark at hg
        split_ifs at hg
        · exact absurd hg List.not_mem_nil
        · exact .inl (List.mem_singleton.mp hg ▸ hcolon _ g (by decide))
        · exact .inl (List.mem_singleton.mp hg ▸ hcolon _ g (by decide))
        · exact absurd hg List.not_mem_nil
      · obtain ⟨g, -, rfl⟩ := List.mem_map.mp hf
        exact .inl (hcolon _ g (by decide))
    · exact .inr (List.mem_singleton.mp hf)
  intro hmem
  simp only [identityFields, List.mem_cons, List.not_mem_nil, or_false] at hmem
  rcases hmem with rfl | rfl | rfl <;> exact absurd hcounter (by decide)

theorem updateFlowOverlay_refiles (lower : Char → Char) (now : Int) (repo name : String) (upd : FlowOverlayUpdate) :
    (updateFlowOverlay (F := F) lower K now repo name upd).Within (Refiles K) :=
  refiles_of_issues (updateFlowOverlay_issues (fun _ => Cmd.Quiet.files) lower K now repo name upd
    (fun _ _ hf => not_identity_of_eventFields hf) (files_of_leaves rfl))

theorem recordFalsePositive_refiles (mean : ℤ → F → F → F) (memKey : String) (emb : List F) :
    (recordFalsePositive mean memKey emb).Within (Refiles K) :=
  refiles_of_issues (recordFalsePositive_issues (fun _ => Cmd.Quiet.files) mean fun _ _ _ _ => files_of_leaves rfl)

theorem resetFalsePositives_refiles (memKey : String) : (resetFalsePositives (F := F) memKey).Within (Refiles K) :=
  refiles_of_issues (resetFalsePositives_issues fun _ => trivial)

theorem deleteKeysByPattern_refiles (pattern : String) :
    (deleteKeysByPattern (F := F) pattern).Within (Refiles K) := by
  unfold deleteKeysByPattern
  refine (call_refiles (c := .scan pattern) trivial).bind Refiles.trans fun r => ?_
  cases r with
  | none => exact within_pure Refiles.refl _
  | some keys =>
    dsimp only
    split_ifs
    · exact within_pure Refiles.refl _
    · exact (call_refiles (c := .del keys) trivial).bind Refiles.trans fun _ => within_pure Refiles.refl _

theorem deletePatterns_refiles (patterns : List String) :
    (deletePatterns (F := F) patterns).Within (Refiles K) := by
  induction patterns with
  | nil => exact within_pure Refiles.refl _
  | cons p ps ih => exact (deleteKeysByPattern_refiles p).bind Refiles.trans fun _ => ih

theorem ensureIndexList_refiles (recreate : Bool) (names : List String) :
    (ensureIndexList (F := F) recreate names).Within (Refiles K) :=
  refiles_of_issues (ensureIndexList_issues (fun _ => Cmd.Quiet.files) recreate names)

theorem ensureIndexes_refiles (L : Keyspace) : (ensureIndexes (F := F) L).Within (Refiles K) := by
  unfold ensureIndexes
  refine ((call_refiles (c := .get versionKey) trivial).map _).bind Refiles.trans fun version => ?_
  split_ifs
  · exact ensureIndexList_refiles false _
  · refine (deletePatterns_refiles _).bind Refiles.trans fun _ => ?_
    refine (ensureIndexList_refiles true _).bind Refiles.trans fun r => ?_
    cases r with
    | some err => exact within_pure Refiles.refl _
    | none =>
      exact ((call_refiles (c := .set versionKey schemaVersion) trivial).map _).bind Refiles.trans fun _ =>
        within_pure Refiles.refl _

theorem wipeKeyspace_refiles (L : Keyspace) : (wipeKeyspace (F := F) L).Within (Refiles K) := by
  have hdrop : ∀ names, (dropIndexes (F := F) names).Within (Refiles K) := fun names =>
    refiles_of_issues (dropIndexes_issues (fun _ => Cmd.Quiet.files) names)
  unfold wipeKeyspace
  split_ifs
  · exact within_pure Refiles.refl _
  · refine (deleteKeysByPattern_refiles _).bind Refiles.trans fun _ => ?_
    refine (deleteKeysByPattern_refiles _).bind Refiles.trans fun _ => ?_
    exact (hdrop _).bind Refiles.trans fun _ => within_pure Refiles.refl _

/-! ### Runs -/

section Runs

variable (lower : Char → Char) (mean : ℤ → F → F → F)

/-- **One operation** keeps the decisions under their names. -/
theorem filed_step {s : Server F} (hs : Filed K s) (c : StoreCall F) : Filed K (c.apply lower mean K s) := by
  obtain ⟨op, fails⟩ := c
  cases op with
  | ensureIndexes => exact runFaults_of_wp (ensureIndexes_refiles K s) fails hs
  | save env a => exact runFaults_of_wp (save_refiles env a s) fails hs
  | supersede repo o n => exact runFaults_of_wp (supersede_refiles repo o n s) fails hs
  | recordFalsePositive memKey emb => exact runFaults_of_wp (recordFalsePositive_refiles mean memKey emb s) fails hs
  | resetFalsePositives memKey => exact runFaults_of_wp (resetFalsePositives_refiles memKey s) fails hs
  | updateFlowOverlay repo name upd now =>
    exact runFaults_of_wp (updateFlowOverlay_refiles lower now repo name upd s) fails hs
  | wipe => exact runFaults_of_wp (wipeKeyspace_refiles K s) fails hs

/-- **A run** of the store's operations, whatever commands fail in it, keeps the decisions under their names. -/
theorem filed_run {s t : Server F} (hs : Filed K s) {calls : List (StoreCall F)}
    (hrun : (storeRuns lower mean K).exec s calls = some t) : Filed K t := by
  have hstep : ∀ s c s', Filed K s → True → (storeRuns lower mean K).step s c = some s' → Filed K s' := by
    intro s c s' hs _ ht
    obtain rfl := Option.some.inj ht
    exact filed_step lower mean hs c
  exact Machine.invariant hstep hs (Machine.Along.of_forall_mem (fun _ _ _ => trivial) s) hrun

end Runs

end Devrouter.Memory
