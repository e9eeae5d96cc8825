import Devrouter.Memory.FalsePositives
import Devrouter.Memory.Lineage
import Devrouter.Memory.Overlay

/-!
# Keyspaces

Model of `ensureIndexes`, `deleteKeysByPattern` and `WipeKeyspace` in `internal/memory/store.go`, and what
all the operations of a store opened with one keyspace do to the keys outside it.

`Own K` are the keys of the keyspace `K`. Most operations build their keys from it, and every outcome of
such a program `Spares` the other keys. Three do not keep to it by themselves: the schema version is one
key for all keyspaces, the false positives are kept under `mem` whatever the keyspace, and a pattern
made of a keyspace with a backslash matches other keys than the keyspace's. `keyspace_isolated` is the
run in which none of the three shows.
-/

open Prog

namespace Devrouter.Memory

variable {F : Type}

/-! ### Index creation and wiping -/

def schemaVersion : String := "v6"

def versionKey : String := "devrouter:schema_version"

def flowOverlayPattern (K : Keyspace) : String := flowOverlayBase ++ K.str ++ ":*"

/-- The indexes of a store. -/
def indexNames (K : Keyspace) : List String :=
  ["file", "func", "flow", "decision"].map fun kind => "idx:" ++ K.str ++ ":" ++ kind

/-- The patterns of the memories, as the migration deletes them. -/
def memoryPatterns (K : Keyspace) : List String :=
  ["file", "func", "flow", "decision"].map fun kind => keyPrefix K ++ "*:" ++ kind ++ ":*"

/-- `deleteKeysByPattern`. -/
def deleteKeysByPattern (pattern : String) : Prog (memdb F) Unit := do
  match ← Mdb.scan pattern with
  | none => return ()
  | some keys =>
    if keys.isEmpty then return ()
    else
      let _ ← Mdb.del keys
      return ()

def deletePatterns : List String → Prog (memdb F) Unit
  | [] => return ()
  | p :: ps => do
    deleteKeysByPattern p
    deletePatterns ps

/-- Create an index unless it is there. The answer is the index that could not be created. -/
def createIndex (name : String) : Prog (memdb F) (Option String) := do
  match ← Mdb.ftInfo name with
  | some _ => return none
  | none =>
    match ← Mdb.ftCreate name with
    | none => return some name
    | some _ => return none

def ensureIndex (recreate : Bool) (name : String) : Prog (memdb F) (Option String) := do
  if recreate then
    let _ ← Mdb.ftDropIndex name
  createIndex name

def ensureIndexList (recreate : Bool) : List String → Prog (memdb F) (Option String)
  | [] => return none
  | name :: names => do
    match ← ensureIndex recreate name with
    | some err => return some err
    | none => ensureIndexList recreate names

/-- `ensureIndexes`, which opens the store. -/
def ensureIndexes (K : Keyspace) : Prog (memdb F) (Option String) := do
  let currentVersion ← Mdb.get versionKey
  -- an error reads as no version
  if currentVersion.join = some schemaVersion then ensureIndexList false (indexNames K)
  else
    deletePatterns (memoryPatterns K)
    match ← ensureIndexList true (indexNames K) with
    | some err => return some err
    | none =>
      let _ ← Mdb.set versionKey schemaVersion
      return none

def dropIndexes : List String → Prog (memdb F) Unit
  | [] => return ()
  | name :: names => do
    let _ ← Mdb.ftDropIndex name
    dropIndexes names

/-- `WipeKeyspace`: the answer is whether it is refused. -/
def wipeKeyspace (K : Keyspace) : Prog (memdb F) Bool :=
  if K.str = defaultKeyspace then return true
  else do
    deleteKeysByPattern (keyPrefix K ++ "*")
    deleteKeysByPattern (flowOverlayPattern K)
    dropIndexes (indexNames K)
    return false

/-! ### The keys of a keyspace -/

/-- The key belongs to the keyspace: a memory, or an overlay. -/
def Own (K : Keyspace) (key : String) : Prop :=
  (keyPrefix K).toList <+: key.toList ∨ (flowOverlayBase ++ K.str ++ ":").toList <+: key.toList

instance (K : Keyspace) (key : String) : Decidable (Own K key) := inferInstanceAs (Decidable (_ ∨ _))

theorem own_of_append (K : Keyspace) (rest : String) : Own K (keyPrefix K ++ rest) :=
  .inl (by rw [String.toList_append]; exact List.prefix_append _ _)

theorem own_key (K : Keyspace) (repo : String) (i : Ident) : Own K (i.key K repo) := by
  rw [i.key_eq]
  simp only [String.append_assoc]
  exact own_of_append K _

theorem own_flowOverlayKey (K : Keyspace) (repo name : String) : Own K (flowOverlayKey K repo name) := by
  refine .inr ⟨(repo ++ ":" ++ sanitizeKey name).toList, ?_⟩
  simp [flowOverlayKey]

/-- **Two keyspaces share no key**, unless one of them is `flow`, whose keys start like the overlays'. -/
theorem own_disjoint {K L : Keyspace} (hne : L ≠ K) (hK : K.str ≠ "flow") (hL : L.str ≠ "flow")
    {key : String} (hown : Own L key) : ¬ Own K key := by
  have hflow : (flowOverlayBase : String).toList = "flow".toList ++ ':' :: "overlay:".toList := rfl
  have hstr : ∀ {a b : String}, a.toList = b.toList → a = b := fun h => String.toList_inj.mp h
  have hcolon : ∀ M : Keyspace, ':' ∉ M.str.toList := fun M => M.not_mem (by simp)
  have hflowcolon : ':' ∉ "flow".toList := by decide
  -- a key of a keyspace begins with its name, behind `flow:overlay:` if it is an overlay's
  have hkey : ∀ M : Keyspace, Own M key →
      (∃ t, M.str.toList ++ ':' :: t = key.toList) ∨
        ∃ t, "flow".toList ++ ':' :: ("overlay:".toList ++ (M.str.toList ++ ':' :: t)) = key.toList := by
    rintro M (⟨t, ht⟩ | ⟨t, ht⟩)
    · exact .inl ⟨t, by rw [← ht]; simp [keyPrefix]⟩
    · refine .inr ⟨t, ?_⟩
      rw [← ht, String.toList_append, String.toList_append, hflow]
      simp
  intro hownK
  rcases hkey L hown, hkey K hownK with ⟨⟨t, ht⟩ | ⟨t, ht⟩, ⟨u, hu⟩ | ⟨u, hu⟩⟩
  · -- both are prefixed, and the prefix ends at the first colon
    have := ((List.append_sep_inj (hcolon L) (hcolon K)).mp (ht.trans hu.symm)).1
    exact hne (Keyspace.str_inj.mp (hstr this))
  · -- one is an overlay's, so its first part is `flow`
    exact hL (hstr ((List.append_sep_inj (hcolon L) hflowcolon).mp (ht.trans hu.symm)).1)
  · exact hK (hstr ((List.append_sep_inj (hcolon K) hflowcolon).mp (hu.trans ht.symm)).1)
  · -- both are overlays', and the names stand behind the same beginning
    have htail := ((List.append_sep_inj hflowcolon hflowcolon).mp (ht.trans hu.symm)).2
    have := ((List.append_sep_inj (hcolon L) (hcolon K)).mp (List.append_cancel_left htail)).1
    exact hne (Keyspace.str_inj.mp (hstr this))

/-! ### Patterns -/

/-- A character that stands for itself in a pattern. -/
def Literal (c : Char) : Prop := c ≠ '*' ∧ c ≠ '?' ∧ c ≠ '\\'

theorem globMatch_star (s : List Char) : globMatch ['*'] s = true := by
  rw [globMatch, List.any_eq_true]
  exact ⟨[], (List.mem_tails _ _).mpr (List.nil_suffix), by rw [globMatch]; rfl⟩

theorem globMatch_cons {c : Char} (hc : Literal c) (p s : List Char) :
    globMatch (c :: p) s = true ↔ ∃ t, s = c :: t ∧ globMatch p t = true := by
  obtain ⟨hstar, hmark, hesc⟩ := hc
  cases s with
  | nil =>
    rw [globMatch]
    · simp
    · exact hstar
    · exact hmark
    · exact fun _ _ h _ => hesc h
  | cons d s =>
    rw [globMatch]
    · -- a literal is matched by itself alone
      rw [Bool.and_eq_true, beq_iff_eq]
      constructor
      · rintro ⟨rfl, h⟩
        exact ⟨s, rfl, h⟩
      · rintro ⟨t, heq, h⟩
        obtain ⟨rfl, rfl⟩ := List.cons.inj heq
        exact ⟨rfl, h⟩
    · exact hstar
    · exact hmark
    · exact fun _ _ h _ => hesc h

/-- A pattern matches what starts with its literal part and goes on with a match of the rest. -/
theorem globMatch_append {l : List Char} (hl : ∀ c ∈ l, Literal c) (p s : List Char) :
    globMatch (l ++ p) s = true ↔ ∃ t, s = l ++ t ∧ globMatch p t = true := by
  induction l generalizing s with
  | nil => simp
  | cons c l ih =>
    rw [List.cons_append, globMatch_cons (hl c List.mem_cons_self)]
    constructor
    · rintro ⟨t, rfl, ht⟩
      obtain ⟨u, rfl, hu⟩ := (ih (fun d hd => hl d (List.mem_cons_of_mem c hd)) t).mp ht
      exact ⟨u, rfl, hu⟩
    · rintro ⟨u, rfl, hu⟩
      exact ⟨l ++ u, rfl, (ih (fun d hd => hl d (List.mem_cons_of_mem c hd)) _).mpr ⟨u, rfl, hu⟩⟩

/-- In a keyspace without a backslash every character stands for itself. -/
theorem Keyspace.literal {K : Keyspace} (hK : '\\' ∉ K.str.toList) :
    ∀ c ∈ (keyPrefix K).toList, Literal c := by
  intro c hc
  unfold keyPrefix at hc
  rw [String.toList_append, List.mem_append] at hc
  rcases hc with hc | hc
  · refine ⟨?_, ?_, ?_⟩
    · rintro rfl
      exact K.not_mem (by simp) hc
    · rintro rfl
      exact K.not_mem (by simp) hc
    · rintro rfl
      exact hK hc
  · obtain rfl : c = ':' := by simpa using hc
    unfold Literal
    decide

/-- What a pattern that starts with the keyspace matches belongs to it. -/
theorem own_of_match {K : Keyspace} (hK : '\\' ∉ K.str.toList) {p key : String}
    (h : globMatch (keyPrefix K ++ p).toList key.toList = true) : Own K key := by
  rw [String.toList_append] at h
  obtain ⟨t, ht, -⟩ := (globMatch_append (Keyspace.literal hK) _ _).mp h
  exact .inl ⟨t, ht.symm⟩

theorem overlay_literal {K : Keyspace} (hK : '\\' ∉ K.str.toList) :
    ∀ c ∈ (flowOverlayBase ++ K.str ++ ":").toList, Literal c := by
  intro c hc
  rw [String.append_assoc, String.toList_append, List.mem_append] at hc
  rcases hc with hc | hc
  · have hbase : ∀ d ∈ flowOverlayBase.toList, d ≠ '*' ∧ d ≠ '?' ∧ d ≠ '\\' := by
      simp [flowOverlayBase]
    exact hbase c hc
  · exact Keyspace.literal hK c hc

/-- The two patterns of the wipe match the keys of the keyspace, and only these. -/
theorem wipe_matches {K : Keyspace} (hK : '\\' ∉ K.str.toList) (key : String) :
    globMatch (keyPrefix K ++ "*").toList key.toList = true ∨
      globMatch (flowOverlayPattern K).toList key.toList = true ↔ Own K key := by
  have hsplit : (flowOverlayPattern K).toList
      = (flowOverlayBase ++ K.str ++ ":").toList ++ ['*'] := by
    simp [flowOverlayPattern]
  rw [hsplit, String.toList_append, globMatch_append (Keyspace.literal hK),
    globMatch_append (overlay_literal hK)]
  unfold Own
  constructor
  · rintro (⟨t, ht, -⟩ | ⟨t, ht, -⟩)
    · exact .inl ⟨t, ht.symm⟩
    · exact .inr ⟨t, ht.symm⟩
  · rintro (⟨t, ht⟩ | ⟨t, ht⟩)
    · exact .inl ⟨t, ht.symm, globMatch_star t⟩
    · exact .inr ⟨t, ht.symm, globMatch_star t⟩

/-! ### What the commands spare -/

/-- Every key without `P` holds what it held. -/
def Spares (P : String → Prop) (s t : Server F) : Prop :=
  ∀ key, ¬ P key → t.keys.lookup key = s.keys.lookup key

variable {P : String → Prop}

theorem Spares.refl (s : Server F) : Spares P s s := fun _ _ => rfl

theorem Spares.trans (s t u : Server F) (h : Spares P s t) (h' : Spares P t u) : Spares P s u :=
  fun key hkey => (h' key hkey).trans (h key hkey)

/-- The keys a command writes or deletes have `P`. -/
def Cmd.WritesIn (P : String → Prop) : Cmd F → Prop
  | .hset key _ => P key
  | .hincrby key _ _ => P key
  | .set key _ => P key
  | .del keys => ∀ key ∈ keys, P key
  | _ => True

/-- `DEL` on the keys. -/
theorem lookup_foldl_erase (keys : List String) (db : AList fun _ : String => Entry F)
    (key : String) :
    (keys.foldl (fun db k => db.erase k) db).lookup key
      = if key ∈ keys then none else db.lookup key := by
  induction keys generalizing db with
  | nil => simp
  | cons k keys ih =>
    rw [List.foldl_cons, ih]
    by_cases hk : key = k
    · subst hk
      simp
    · simp [hk]

theorem Cmd.spares {c : Cmd F} (hc : c.WritesIn P) (s : Server F) : Spares P s (c.apply s).2 := by
  -- a write spares every other key
  have hput : ∀ {key : String} (h : Hash F), P key → Spares P s (s.putHash key h) :=
    fun {key} h hP key' hkey' => s.lookup_putHash_ne h fun heq => hkey' (heq ▸ hP)
  cases c with
  | hset key fields =>
    cases hs : s.hashAt key with
    | none => simpa [Cmd.apply, hs] using Spares.refl s
    | some h => simpa [Cmd.apply, hs] using hput (hsetFields h fields) hc
  | hincrby key field n =>
    cases hs : s.hashAt key with
    | none => simpa [Cmd.apply, hs] using Spares.refl s
    | some h =>
      cases hv : incrValue n (h field) with
      | none => simpa [Cmd.apply, hs, hv] using Spares.refl s
      | some v => simpa [Cmd.apply, hs, hv] using hput (Function.update h field (some v)) hc
  | set key value =>
    exact fun key' hkey' => AList.lookup_insert_ne fun heq => hkey' (heq ▸ hc)
  | del keys =>
    -- the deleted keys are among those that may be written
    intro key hkey
    exact (lookup_foldl_erase keys s.keys key).trans (if_neg fun hmem => hkey (hc key hmem))
  | ftCreate name =>
    intro key _
    dsimp only [Cmd.apply]
    split_ifs <;> rfl
  | ftDropIndex name =>
    intro key _
    dsimp only [Cmd.apply]
    split_ifs <;> rfl
  | hget key field => exact .refl s
  | hgetall key => exact .refl s
  | existsKey key => exact .refl s
  | get key => exact .refl s
  | scan pattern => exact .refl s
  | ftInfo name => exact .refl s

/-! ### What the operations issue -/

/-- The command writes and deletes no key. -/
def Cmd.Quiet : Cmd F → Prop
  | .hset _ _ => False
  | .hincrby _ _ _ => False
  | .set _ _ => False
  | .del _ => False
  | _ => True

section Issues

variable {C : Cmd F → Prop}

theorem hset_issues {key : String} {fields : List (String × Value F)} (hset : C (.hset key fields)) :
    (Mdb.hset key fields).Issues C := (issues_call hset).map _

theorem embedAndWrite_issues (env : Env F) {key : String} (text : String) {fields : List F → List (String × Value F)}
    (hwrite : ∀ vec, C (.hset key (fields vec))) : (embedAndWrite env key text fields).Issues C := by
  unfold embedAndWrite
  cases env.embed text with
  | none => exact issues_pure _
  | some vec => exact (hset_issues (hwrite vec)).map _

theorem incrFields_issues {key : String} {fs : List String} (hincr : ∀ f ∈ fs, C (.hincrby key f 1)) :
    (incrFields key fs).Issues C := by
  induction fs with
  | nil => exact issues_pure _
  | cons f fs ih =>
    have hone : (Mdb.hincrby key f 1).Issues C := (issues_call (hincr f List.mem_cons_self)).map _
    exact hone.bind fun r => (ih fun g hg => hincr g (List.mem_cons_of_mem f hg)).map _

theorem resetFalsePositives_issues {memKey : String} (hdel : memKey ≠ "" → C (.del [fpKey memKey])) :
    (resetFalsePositives memKey).Issues C := by
  unfold resetFalsePositives
  split_ifs with hname
  · exact issues_pure _
  · have hcall : (Mdb.del (F := F) [fpKey memKey]).Issues C := issues_call (hdel hname)
    exact hcall.map _

variable (hquiet : ∀ c : Cmd F, c.Quiet → C c)

include hquiet

theorem hget_issues (key field : String) : (Mdb.hget key field).Issues C :=
  (issues_call (hquiet (.hget key field) trivial)).map _

theorem hgetall_issues (key : String) : (Mdb.hgetall key).Issues C :=
  (issues_call (hquiet (.hgetall key) trivial)).map _

theorem existsKey_issues (key : String) : (Mdb.existsKey key).Issues C :=
  issues_call (hquiet (.existsKey key) trivial)

theorem ftDropIndex_issues (name : String) : (Mdb.ftDropIndex name).Issues C :=
  (issues_call (hquiet (.ftDropIndex name) trivial)).map _

theorem getField_issues (key field : String) : (getField key field).Issues C := (hget_issues hquiet key field).map _

theorem saveRecord_issues (env : Env F) {key : String} (source text : String)
    {fields : List F → List (String × Value F)} (hwrite : ∀ vec, C (.hset key (fields vec))) :
    (saveRecord env key source text fields).Issues C := by
  have hguard : (existingSource key source).Issues C := by
    unfold existingSource
    split_ifs
    · exact getField_issues hquiet key "source"
    · exact issues_pure _
  unfold saveRecord
  refine hguard.bind fun existing => ?_
  split_ifs
  · exact issues_pure _
  · exact embedAndWrite_issues env text hwrite

/-- A save of any kind. -/
theorem save_issues (env : Env F) (K : Keyspace) (a : Save)
    (hrecord : ∀ (m : Record) vec, a = .record m → C (.hset (a.key K) (m.fields env vec)))
    (hdecision : ∀ (m : DecisionMemory) vec, a = .decision m → C (.hset (a.key K) (m.fields env vec))) :
    (a.save env K).Issues C := by
  cases a with
  | record m =>
    change (m.save env K).Issues C
    rw [m.save_eq]
    exact saveRecord_issues hquiet env _ _ fun vec => hrecord m vec rfl
  | decision m => exact embedAndWrite_issues env _ fun vec => hdecision m vec rfl

theorem supersede_issues (K : Keyspace) (repo o n : String)
    (hold : C (.hset (decisionKey K repo o) [("status", .text "superseded"), ("superseded_by", .text n)]))
    (hnew : C (.hset (decisionKey K repo n) [("supersedes", .text o)])) :
    (supersedeDecision K repo o n).Issues C := by
  -- the link is two writes, of the old memory and then of the new one
  have hlink : (linkDecisions K repo o n).Issues C := by
    unfold linkDecisions
    refine (hset_issues hold).bind fun r => ?_
    cases r with
    | none => exact issues_pure _
    | some _ => exact (hset_issues hnew).map _
  unfold supersedeDecision supersedeStore
  split_ifs
  · exact issues_pure _
  · refine (existsKey_issues hquiet _).bind fun old => ?_
    split_ifs
    · -- neither memory is linked unless both exist
      exact issues_pure _
    · refine (existsKey_issues hquiet _).bind fun new => ?_
      split_ifs
      · exact issues_pure _
      · exact hlink

theorem updateFlowOverlay_issues (lower : Char → Char) (K : Keyspace) (now : Int) (repo name : String)
    (upd : FlowOverlayUpdate)
    (hincr : ∀ files, ∀ f ∈ upd.eventFields lower files, C (.hincrby (flowOverlayKey K repo name) f 1))
    (hscalars : C (.hset (flowOverlayKey K repo name) (scalars now upd))) :
    (updateFlowOverlay lower K now repo name upd).Issues C := by
  unfold updateFlowOverlay overlayPipeline
  split_ifs
  · exact issues_pure _
  · refine (existsKey_issues hquiet _).bind fun r => ?_
    cases r with
    | none => exact issues_pure _
    | some n =>
      dsimp only
      split_ifs
      · exact issues_pure _
      · refine (getField_issues hquiet _ _).bind fun files => Issues.map ?_ _
        exact (incrFields_issues (hincr _)).bind fun err => (hset_issues hscalars).map _

theorem recordFalsePositive_issues (mean : ℤ → F → F → F) {memKey : String} {emb : List F}
    (hwrite : memKey ≠ "" → emb.length = embedDim → ∀ cent count,
      C (.hset (fpKey memKey) [("cent", .vec cent), ("count", .int count)])) :
    (recordFalsePositive mean memKey emb).Issues C := by
  unfold recordFalsePositive
  split_ifs with hname hdim
  · exact issues_pure _
  · exact issues_pure _
  · have hget : (getFP (F := F) (fpKey memKey)).Issues C := (hgetall_issues hquiet _).map _
    refine hget.bind fun r => ?_
    cases r with
    | none => exact issues_pure _
    | some prev => exact (hset_issues (hwrite hname (not_not.mp hdim) _ _)).map _

theorem ensureIndexList_issues (recreate : Bool) (names : List String) :
    (ensureIndexList recreate names).Issues C := by
  -- an index is created when there is no information on it
  have hcreate : ∀ name, (createIndex (F := F) name).Issues C := by
    intro name
    have hinfo : (Mdb.ftInfo (F := F) name).Issues C := (issues_call (hquiet (.ftInfo name) trivial)).map _
    have hmake : (Mdb.ftCreate (F := F) name).Issues C := (issues_call (hquiet (.ftCreate name) trivial)).map _
    unfold createIndex
    refine hinfo.bind fun r => ?_
    cases r with
    | some _ => exact issues_pure _
    | none =>
      refine hmake.bind fun r => ?_
      cases r <;> exact issues_pure _
  -- the list is gone through until one of them fails
  induction names with
  | nil => exact issues_pure _
  | cons name names ih =>
    have hone : (ensureIndex (F := F) recreate name).Issues C := by
      unfold ensureIndex
      cases recreate with
      | false => exact hcreate name
      | true => exact (ftDropIndex_issues hquiet name).bind fun _ => hcreate name
    refine hone.bind fun r => ?_
    cases r with
    | some err => exact issues_pure _
    | none => exact ih

theorem dropIndexes_issues (names : List String) : (dropIndexes names).Issues C := by
  induction names with
  | nil => exact issues_pure _
  | cons name names ih => exact (ftDropIndex_issues hquiet name).bind fun _ => ih

end Issues

/-! ### What the programs spare -/

theorem Cmd.Quiet.writesIn {c : Cmd F} (hc : c.Quiet) : c.WritesIn P := by
  cases c <;> first | exact trivial | exact hc.elim

/-- What is issued decides what is spared. -/
theorem spares_of_issues {α : Type} {p : Prog (memdb F) α} (hp : p.Issues (Cmd.WritesIn P)) : p.Within (Spares P) :=
  hp.within Spares.refl Spares.trans fun _ hc => Cmd.spares hc

theorem call_spares {c : Cmd F} (hc : c.WritesIn P) :
    (call (V := memdb F) c).Within (Spares P) :=
  within_call Spares.refl (Cmd.spares hc)

theorem save_spares (env : Env F) (K : Keyspace) (a : Save) : (a.save env K).Within (Spares (Own K)) := by
  have hkey : Own K (a.key K) := by
    rw [a.key_eq]
    exact own_key K _ _
  exact spares_of_issues (save_issues (fun _ => Cmd.Quiet.writesIn) env K a (fun _ _ _ => hkey) fun _ _ _ => hkey)

theorem supersede_spares (K : Keyspace) (repo o n : String) :
    (supersedeDecision (F := F) K repo o n).Within (Spares (Own K)) :=
  spares_of_issues (supersede_issues (fun _ => Cmd.Quiet.writesIn) K repo o n (own_key K repo (.decision o))
    (own_key K repo (.decision n)))

theorem updateFlowOverlay_spares (lower : Char → Char) {K : Keyspace} (now : Int)
    {repo name : String} (hkey : P (flowOverlayKey K repo name)) (upd : FlowOverlayUpdate) :
    (updateFlowOverlay (F := F) lower K now repo name upd).Within (Spares P) :=
  spares_of_issues (updateFlowOverlay_issues (fun _ => Cmd.Quiet.writesIn) lower K now repo name upd
    (fun _ _ _ => hkey) hkey)

theorem recordFalsePositive_spares (mean : ℤ → F → F → F) {memKey : String} {emb : List F}
    (hP : memKey = "" ∨ emb.length ≠ embedDim ∨ P (fpKey memKey)) :
    (recordFalsePositive mean memKey emb).Within (Spares P) :=
  spares_of_issues (recordFalsePositive_issues (fun _ => Cmd.Quiet.writesIn) mean fun hname hdim _ _ =>
    (hP.resolve_left hname).resolve_left fun hne => hne hdim)

theorem resetFalsePositives_spares {memKey : String} (hP : memKey = "" ∨ P (fpKey memKey)) :
    (resetFalsePositives (F := F) memKey).Within (Spares P) := by
  refine spares_of_issues (resetFalsePositives_issues fun hname key hkey => ?_)
  rw [List.mem_singleton] at hkey
  exact hkey ▸ hP.resolve_left hname

/-- What a pattern matches is what is deleted. -/
theorem deleteKeysByPattern_spares {pattern : String}
    (hP : ∀ key : String, globMatch pattern.toList key.toList = true → P key) :
    (deleteKeysByPattern (F := F) pattern).Within (Spares P) := by
  intro s
  unfold deleteKeysByPattern
  rw [wp_bind]
  refine ⟨.refl s, ?_⟩
  rw [wp_ret]
  dsimp only [Cmd.apply]
  split_ifs
  · exact Spares.refl s
  · have hdel : (Cmd.del (s.keys.keys.filter fun k => globMatch pattern.toList k.toList) : Cmd F).WritesIn P :=
      fun key hkey => hP key (List.mem_filter.mp hkey).2
    exact (call_spares hdel).map (fun _ => ()) s

theorem deletePatterns_spares {patterns : List String}
    (hP : ∀ p ∈ patterns, ∀ key : String, globMatch p.toList key.toList = true → P key) :
    (deletePatterns (F := F) patterns).Within (Spares P) := by
  induction patterns with
  | nil => exact within_pure Spares.refl _
  | cons p ps ih =>
    exact (deleteKeysByPattern_spares (hP p List.mem_cons_self)).bind Spares.trans fun _ =>
      ih fun q hq => hP q (List.mem_cons_of_mem p hq)

theorem ensureIndexList_spares (recreate : Bool) (names : List String) :
    (ensureIndexList (F := F) recreate names).Within (Spares P) :=
  spares_of_issues (ensureIndexList_issues (fun _ => Cmd.Quiet.writesIn) recreate names)

theorem dropIndexes_spares (names : List String) : (dropIndexes (F := F) names).Within (Spares P) :=
  spares_of_issues (dropIndexes_issues (fun _ => Cmd.Quiet.writesIn) names)

/-- The wipe of a keyspace without a backslash, or a refused one. -/
theorem wipeKeyspace_spares {K : Keyspace} (hK : K = .mem ∨ '\\' ∉ K.str.toList) :
    (wipeKeyspace (F := F) K).Within (Spares (Own K)) := by
  unfold wipeKeyspace
  split_ifs with hmem
  · exact within_pure Spares.refl _
  · have hslash : '\\' ∉ K.str.toList := by
      refine hK.resolve_left ?_
      rintro rfl
      exact hmem rfl
    have hmatch := wipe_matches hslash
    refine (deleteKeysByPattern_spares fun key h => (hmatch key).mp (.inl h)).bind Spares.trans
      fun _ => ?_
    refine (deleteKeysByPattern_spares fun key h => (hmatch key).mp (.inr h)).bind Spares.trans
      fun _ => ?_
    exact (dropIndexes_spares _).bind Spares.trans fun _ => within_pure Spares.refl _

/-- The schema version is the current one. -/
def Server.Current (s : Server F) : Prop :=
  s.keys.lookup versionKey = some (.str schemaVersion)

/-- Opening a store when the schema version is current and can be read. -/
theorem ensureIndexes_current (K : Keyspace) {s : Server F} (hs : s.Current) {fails : ℕ → Bool}
    (hread : fails 0 = false) :
    Spares P s ((ensureIndexes K).runFaults fails s).2 := by
  have hlist := runFaults_of_wp (ensureIndexList_spares (F := F) (P := P) false (indexNames K) s)
    fun n => fails (n + 1)
  unfold ensureIndexes
  rw [Mdb.get_bind_runFaults fails hs, hread]
  exact hlist

/-- Opening a store of the keyspace the schema version is kept in. -/
theorem ensureIndexes_devrouter {K : Keyspace} (hK : K.str = "devrouter") :
    (ensureIndexes (F := F) K).Within (Spares (Own K)) := by
  have hslash : '\\' ∉ K.str.toList := by
    rw [hK]
    decide
  -- each pattern is that of a kind in this keyspace, so it matches this keyspace's keys only
  have hpatterns : ∀ p ∈ memoryPatterns K, ∀ key : String,
      globMatch p.toList key.toList = true → Own K key := by
    intro p hp key h
    obtain ⟨kind, -, rfl⟩ := List.mem_map.mp hp
    simp only [String.append_assoc] at h
    exact own_of_match hslash h
  have hversion : Own K versionKey := by
    unfold Own keyPrefix
    rw [hK]
    decide
  unfold ensureIndexes
  refine ((call_spares (c := .get versionKey) trivial).map _).bind Spares.trans fun current => ?_
  split_ifs
  · exact ensureIndexList_spares false _
  · -- another version was stored: the memories are deleted, the indexes made anew
    refine (deletePatterns_spares hpatterns).bind Spares.trans fun _ => ?_
    refine (ensureIndexList_spares true _).bind Spares.trans fun r => ?_
    cases r with
    | some err => exact within_pure Spares.refl _
    | none =>
      exact ((call_spares (P := Own K) (c := .set versionKey schemaVersion) hversion).map _).bind Spares.trans
        fun _ => within_pure Spares.refl _

/-! ### Runs -/

/-- The operations of a store that write. -/
inductive StoreOp (F : Type) where
  | ensureIndexes
  | save (env : Env F) (a : Save)
  | supersede (repo oldName newName : String)
  | recordFalsePositive (memKey : String) (queryEmbedding : List F)
  | resetFalsePositives (memKey : String)
  | updateFlowOverlay (repo name : String) (upd : FlowOverlayUpdate) (now : Int)
  | wipe

/-- An operation, with the commands that fail in it. -/
structure StoreCall (F : Type) where
  op : StoreOp F
  fails : ℕ → Bool

variable (lower : Char → Char) (mean : ℤ → F → F → F) (K : Keyspace)

/-- The operation, as it is carried out. -/
def StoreCall.apply (s : Server F) (c : StoreCall F) : Server F :=
  match c.op with
  | .ensureIndexes => ((ensureIndexes K).runFaults c.fails s).2
  | .save env a => ((a.save env K).runFaults c.fails s).2
  | .supersede repo o n => ((supersedeDecision K repo o n).runFaults c.fails s).2
  | .recordFalsePositive memKey emb => ((recordFalsePositive mean memKey emb).runFaults c.fails s).2
  | .resetFalsePositives memKey => ((resetFalsePositives memKey).runFaults c.fails s).2
  | .updateFlowOverlay repo name upd now =>
    ((updateFlowOverlay lower K now repo name upd).runFaults c.fails s).2
  | .wipe => ((wipeKeyspace K).runFaults c.fails s).2

/-- The runs of a store opened with the keyspace `K`. -/
def storeRuns : Machine (Server F) (StoreCall F) := ⟨fun s c => some (c.apply lower mean K s)⟩

/-- **The condition on an operation**: the indexes are created when the schema version is current and can
be read, or is a key of the keyspace; false positives are kept in the keyspace `mem` only; a keyspace
that is wiped has no backslash. -/
def Isolated (s : Server F) (c : StoreCall F) : Prop :=
  match c.op with
  | .ensureIndexes => (s.Current ∧ c.fails 0 = false) ∨ K.str = "devrouter"
  | .recordFalsePositive memKey emb => memKey = "" ∨ emb.length ≠ embedDim ∨ K = .mem
  | .resetFalsePositives memKey => memKey = "" ∨ K = .mem
  | .wipe => K = .mem ∨ '\\' ∉ K.str.toList
  | _ => True

/-- The keys of the false positives belong to the keyspace `mem`. -/
theorem own_fpKey {K : Keyspace} (hK : K = .mem) (memKey : String) : Own K (fpKey memKey) := by
  subst hK
  refine .inl ⟨("fp:" ++ memKey).toList, ?_⟩
  simp only [fpKey, ← String.toList_append, String.toList_inj, ← String.append_assoc]
  rfl

/-- **One operation** that meets the condition spares the keys outside the keyspace. -/
theorem isolated_step {s : Server F} {c : StoreCall F} (hc : Isolated K s c) :
    Spares (Own K) s (c.apply lower mean K s) := by
  obtain ⟨op, fails⟩ := c
  cases op with
  | ensureIndexes =>
    -- nothing is done when the stored version is the current one, as it is after the first call
    rcases hc with ⟨hs, hread⟩ | hK
    · exact ensureIndexes_current K hs hread
    · exact runFaults_of_wp (ensureIndexes_devrouter hK s) fails
  | save env a => exact runFaults_of_wp (save_spares env K a s) fails
  | supersede repo o n => exact runFaults_of_wp (supersede_spares K repo o n s) fails
  | recordFalsePositive memKey emb =>
    -- a false positive is written under this keyspace's key, or refused
    have hP : memKey = "" ∨ emb.length ≠ embedDim ∨ Own K (fpKey memKey) :=
      hc.imp_right fun h => h.imp_right fun hK => own_fpKey hK memKey
    exact runFaults_of_wp (recordFalsePositive_spares mean hP s) fails
  | resetFalsePositives memKey =>
    have hP : memKey = "" ∨ Own K (fpKey memKey) := hc.imp_right fun hK => own_fpKey hK memKey
    exact runFaults_of_wp (resetFalsePositives_spares hP s) fails
  | updateFlowOverlay repo name upd now =>
    exact runFaults_of_wp
      (updateFlowOverlay_spares lower now (own_flowOverlayKey K repo name) upd s) fails
  | wipe => exact runFaults_of_wp (wipeKeyspace_spares hc s) fails

/-- A deletion that does not fail deletes what the pattern matches. -/
theorem deleteKeysByPattern_run (pattern key : String) (s : Server F) :
    ((deleteKeysByPattern pattern).run s).2.keys.lookup key
      = if globMatch pattern.toList key.toList then none else s.keys.lookup key := by
  let keys := s.keys.keys.filter fun k => globMatch pattern.toList k.toList
  have hmem : key ∈ keys ↔ key ∈ s.keys ∧ globMatch pattern.toList key.toList = true := by
    rw [List.mem_filter, AList.mem_keys]
  -- the keys that the scan returns are deleted, and those are the ones that match
  have hdeleted : ((deleteKeysByPattern pattern).run s).2.keys.lookup key
      = if key ∈ keys then none else s.keys.lookup key := by
    unfold deleteKeysByPattern
    rw [run_bind, Mdb.scan_run]
    change (Prog.run (V := memdb F) (if keys.isEmpty then pure () else Mdb.del keys >>= fun _ =>
      pure ()) s).2.keys.lookup key = _
    split_ifs with hempty hin hin
    · rw [List.isEmpty_iff.mp hempty] at hin
      exact absurd hin List.not_mem_nil
    · rfl
    · exact (lookup_foldl_erase keys s.keys key).trans (if_pos hin)
    · exact (lookup_foldl_erase keys s.keys key).trans (if_neg hin)
  rw [hdeleted]
  by_cases hmatch : globMatch pattern.toList key.toList = true
  · rw [if_pos hmatch]
    split_ifs with hin
    · rfl
    · -- a key that matches and was not returned is not stored
      refine AList.lookup_eq_none.mpr fun hk => hin (hmem.mpr ⟨hk, hmatch⟩)
  · rw [if_neg hmatch, if_neg fun hin => hmatch (hmem.mp hin).2]

theorem dropIndexes_run (names : List String) (s : Server F) :
    ((dropIndexes names).run s).2.keys = s.keys := by
  induction names generalizing s with
  | nil => rfl
  | cons name names ih =>
    have hone : ((Mdb.ftDropIndex name).run s).2.keys = s.keys := by
      change (Cmd.apply (.ftDropIndex name) s).2.keys = s.keys
      dsimp only [Cmd.apply]
      split_ifs <;> rfl
    exact (ih _).trans hone

/-- **A wipe that is not refused leaves no key of the keyspace**, when it has no backslash. -/
theorem wipeKeyspace_run {K : Keyspace} (hK : K ≠ .mem) (hslash : '\\' ∉ K.str.toList)
    (s : Server F) {key : String} (hown : Own K key) :
    ((wipeKeyspace K).run s).2.keys.lookup key = none := by
  have hnot : ¬ K.str = defaultKeyspace := fun h => hK (Keyspace.str_inj.mp h)
  unfold wipeKeyspace
  rw [if_neg hnot]
  simp only [run_bind, run_pure, dropIndexes_run, deleteKeysByPattern_run]
  rcases (wipe_matches hslash key).mpr hown with h | h
  · rw [if_pos h]
    exact ite_self none
  · rw [if_pos h]

/-- **Keyspaces are isolated** in every run of a store whose operations meet the condition, whatever
commands fail in it: no key outside the keyspace changes; a store with another keyspace finds its keys as
they were; and a wipe after the run leaves neither a key of the keyspace nor one the run has changed. -/
theorem keyspace_isolated {s t : Server F} {calls : List (StoreCall F)}
    (hok : (storeRuns lower mean K).Along (Isolated K) s calls)
    (hrun : (storeRuns lower mean K).exec s calls = some t) :
    Spares (Own K) s t ∧
      (∀ L : Keyspace, L ≠ K → K.str ≠ "flow" → L.str ≠ "flow" → ∀ key, Own L key →
        t.keys.lookup key = s.keys.lookup key) ∧
      (K ≠ .mem → '\\' ∉ K.str.toList → ∀ key,
        Own K key ∨ t.keys.lookup key ≠ s.keys.lookup key →
          ((wipeKeyspace K).run t).2.keys.lookup key = none) := by
  have hspares : Spares (Own K) s t := by
    -- a step that is isolated spares the other keyspaces, so the run does
    refine Machine.stable (M := storeRuns lower mean K) (I := fun _ => True) ?_ Spares.refl
      Spares.trans trivial hok hrun
    intro s c s' _ hc hs
    obtain rfl := Option.some.inj hs
    exact ⟨trivial, isolated_step lower mean K hc⟩
  refine ⟨hspares, fun L hne hK hL key hown => hspares key (own_disjoint hne hK hL hown), ?_⟩
  intro hmem hslash key hkey
  -- the wipe deletes this keyspace's keys, and nothing else has been changed
  refine wipeKeyspace_run hmem hslash t (hkey.elim id fun hchanged => ?_)
  by_contra hnot
  exact hchanged (hspares key hnot)

/-- A keyspace of a test. -/
def testKeyspace : Keyspace := ⟨"testmem", by decide, by decide⟩

/-- An installation whose schema is current. -/
def installed : Server ℕ := ⟨AList.insert versionKey (.str schemaVersion) ∅, []⟩

/-- The operations of a test store: it is opened, and saves a file. -/
def testCalls : List (StoreCall ℕ) :=
  [⟨.ensureIndexes, fun _ => false⟩, ⟨.save .still (.record (.file (fileAt "a.go"))), fun _ => false⟩]

/-- The mean on a scalar without meaning. -/
def noMean : ℤ → ℕ → ℕ → ℕ := fun _ _ y => y

/-- The test store, on an installation whose schema is current. -/
theorem keyspace_isolated_test :
    ∃ t, (storeRuns Char.toLower noMean testKeyspace).exec installed testCalls = some t ∧
      Spares (Own testKeyspace) installed t := by
  have hok : (storeRuns Char.toLower noMean testKeyspace).Along (Isolated testKeyspace) installed
      testCalls := by
    refine ⟨.inl ⟨?_, rfl⟩, fun _ _ => ⟨trivial, fun _ _ => trivial⟩⟩
    exact AList.lookup_insert _
  exact ⟨_, rfl, (keyspace_isolated Char.toLower noMean testKeyspace hok rfl).1⟩

/-- The embedding of a query. -/
def queryVector : List ℕ := List.replicate embedDim 0

/-- The memory key of the file `a.go` in the test keyspace. -/
def testMemKey : String := fileKey testKeyspace "r" "a.go"

/-- A keyspace with a backslash, and the one its patterns match. -/
def slashKeyspace : Keyspace := ⟨"t\\1", by decide, by decide⟩

def plainKeyspace : Keyspace := ⟨"t1", by decide, by decide⟩

/-- The server after a test store has been opened on an empty one, has recorded a false positive and has
been wiped. -/
def afterWipe : Server ℕ :=
  [StoreOp.ensureIndexes, .recordFalsePositive testMemKey queryVector, .wipe].foldl
    (fun s op => StoreCall.apply Char.toLower noMean testKeyspace s ⟨op, fun _ => false⟩)
    (Server.empty ℕ)

/-- A server with one memory, of the keyspace without a backslash. -/
def onePlain : Server ℕ :=
  StoreCall.apply Char.toLower noMean plainKeyspace (Server.empty ℕ)
    ⟨.save .still (.record (.file (fileAt "a.go"))), fun _ => false⟩

/-- **Keys outside the keyspace.** The wiped test store leaves the schema version and a key of the
keyspace `mem`; and wiping a keyspace with a backslash deletes the memory of another one. -/
theorem keys_outside :
    ((afterWipe.keys.lookup versionKey).isSome = true ∧ ¬ Own testKeyspace versionKey ∧
      (afterWipe.keys.lookup (fpKey testMemKey)).isSome = true ∧
      ¬ Own testKeyspace (fpKey testMemKey) ∧ Own .mem (fpKey testMemKey)) ∧
    (onePlain.keys.lookup (fileKey plainKeyspace "r" "a.go")).isSome = true ∧
      ((StoreCall.apply Char.toLower noMean slashKeyspace onePlain
        ⟨.wipe, fun _ => false⟩).keys.lookup (fileKey plainKeyspace "r" "a.go")).isSome = false := by
  decide +kernel

end Devrouter.Memory
