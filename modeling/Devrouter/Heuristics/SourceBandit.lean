import Devrouter.Lib.GoText
import Devrouter.Heuristics.Bandit

/-!
# The source bandit

Model of `internal/heuristics/sourcebandit.go` and of the breadth functions of
`internal/heuristics/store.go`. The bandit tunes one integer per `(intent, repo, topic, source)` cell:
the number of documents the source returns. The breadths are texts in Redis, a current one and a frozen
default per cell; the candidates under test are in memory, one per `(intent, repo, topic)`.

The keys of the breadths are a family of their own, and the server here is the part of Redis that holds
them. The random numbers of a selection are an argument (`SourceDraws`), and so is the clock.
-/

open Prog

namespace Devrouter

/-! ### The server -/

/-- One breadth change of a cell. -/
structure SourceHistoryEntry where
  timestamp : Int
  kind : String
  from_ : Int
  to_ : Int
  reason : String
  deriving DecidableEq, Repr

/-- The breadth keys (strings) and the history keys (lists, newest entry first). -/
structure SourceDb where
  str : String → Option String
  history : String → List SourceHistoryEntry

/-- A server with no breadth. -/
def SourceDb.empty : SourceDb := ⟨fun _ => none, fun _ => []⟩

inductive SourceCmd where
  | get (key : String)
  | set (key : String) (val : Int)
  | setNX (key : String) (val : Int)
  /-- `LPUSH` and `LTRIM key 0 stop`, in one pipeline. -/
  | push (key : String) (e : SourceHistoryEntry) (stop : Nat)

abbrev SourceCmd.Reply : SourceCmd → Type
  | .get _ => Option String
  | .setNX _ _ => Bool
  | _ => Unit

/-- `SET` of a number, as text. -/
def SourceDb.set (db : SourceDb) (key : String) (val : Int) : SourceDb :=
  { db with str := Function.update db.str key (some (toString val)) }

/-- `SETNX`. -/
def SourceDb.setNX (db : SourceDb) (key : String) (val : Int) : SourceDb :=
  if (db.str key).isSome then db else db.set key val

/-- `LPUSH` and `LTRIM`. -/
def SourceDb.push (db : SourceDb) (key : String) (e : SourceHistoryEntry) (stop : Nat) : SourceDb :=
  { db with history := Function.update db.history key ((e :: db.history key).take (stop + 1)) }

def SourceCmd.apply : (c : SourceCmd) → SourceDb → c.Reply × SourceDb
  | .get key, db => (db.str key, db)
  | .set key val, db => ((), db.set key val)
  | .setNX key val, db => ((db.str key).isNone, db.setNX key val)
  | .push key e stop, db => ((), db.push key e stop)

abbrev sourceRedis : Service where
  State := SourceDb
  Cmd := SourceCmd
  Reply := SourceCmd.Reply
  apply := SourceCmd.apply

namespace SourceDb

theorem set_str (db : SourceDb) (key : String) (val : Int) :
    (db.set key val).str = Function.update db.str key (some (toString val)) := rfl

@[simp] theorem push_str (db : SourceDb) (key : String) (e : SourceHistoryEntry) (stop : Nat) :
    (db.push key e stop).str = db.str := rfl

/-- A key that is there is left as it is by `SETNX`, and so is every other key. -/
theorem setNX_str_of_some {db : SourceDb} {key key' : String} {t : String}
    (h : db.str key' = some t) (val : Int) : (db.setNX key val).str key' = some t := by
  unfold setNX
  split_ifs with hk
  · exact h
  · have hne : key' ≠ key := by
      rintro rfl
      exact hk (by rw [h]; rfl)
    rw [set_str, Function.update_of_ne hne, h]

end SourceDb

/-! ### Breadths -/

/-- The breadth guardrails. -/
def sourceDocsBounds : Int × Int := (2, 15)

def clipSourceDocs (v : Int) : Int := clipInt v sourceDocsBounds.1 sourceDocsBounds.2

/-- A breadth is within the guardrails. -/
def InSourceBounds (v : Int) : Prop := sourceDocsBounds.1 ≤ v ∧ v ≤ sourceDocsBounds.2

theorem clipSourceDocs_mem (v : Int) : InSourceBounds (clipSourceDocs v) :=
  ⟨le_clipInt (by decide), clipInt_le (by decide)⟩

theorem clipSourceDocs_of_mem {v : Int} (h : InSourceBounds v) : clipSourceDocs v = v := by
  unfold InSourceBounds sourceDocsBounds at h
  unfold clipSourceDocs clipInt sourceDocsBounds
  split_ifs <;> omega

/-- One step, clipped, is one step or none. -/
theorem clipSourceDocs_step {v d : Int} (hv : InSourceBounds v) (hd : d = 1 ∨ d = -1)
    (hne : clipSourceDocs (v + d) ≠ v) : clipSourceDocs (v + d) = v + d := by
  unfold InSourceBounds sourceDocsBounds at hv
  unfold clipSourceDocs clipInt sourceDocsBounds at hne ⊢
  split_ifs at hne ⊢ <;> omega

/-- The breadth a stored text is read as. -/
def readBreadth (text : String) : Option Int := (atoi text).map clipSourceDocs

/-- A breadth is read back as it was written. -/
theorem readBreadth_toString {v : Int} (h : InSourceBounds v) : readBreadth (toString v) = some v := by
  have hclip := clipSourceDocs_of_mem h
  unfold InSourceBounds sourceDocsBounds at h
  obtain ⟨n, rfl⟩ := Int.eq_ofNat_of_zero_le (show 0 ≤ v by omega)
  have htext : toString (n : Int) = toString n := rfl
  have hrange : -2 ^ 63 ≤ (n : Int) ∧ (n : Int) < 2 ^ 63 := by omega
  unfold readBreadth atoi
  rw [htext, parseInt_toString, Option.bind_some, if_pos hrange, Option.map_some, hclip]

def keySource : String := "heuristics:source"

def sourceCurrentKey (intent repo topic source : String) : String :=
  keySource ++ ":" ++ intent ++ ":" ++ repo ++ ":" ++ topic ++ ":" ++ source ++ ":current"

def sourceDefaultKey (intent repo topic source : String) : String :=
  keySource ++ ":" ++ intent ++ ":" ++ repo ++ ":" ++ topic ++ ":" ++ source ++ ":default"

def sourceHistoryKey (intent repo topic source : String) : String :=
  keySource ++ ":" ++ intent ++ ":" ++ repo ++ ":" ++ topic ++ ":" ++ source ++ ":history"

/-- `CurrentSourceBreadth`: the learned breadth of a cell. A missing one is seeded, and its seed is
recorded as the frozen default. -/
def currentSourceBreadth (intent repo topic source : String) (seedDefault : Int) :
    Prog sourceRedis Int := do
  let seedDefault := clipSourceDocs seedDefault
  let key := sourceCurrentKey intent repo topic source
  match ← call (V := sourceRedis) (.get key) with
  | some none =>
    let _ ← call (V := sourceRedis) (.set key seedDefault)
    let _ ← call (V := sourceRedis) (.setNX (sourceDefaultKey intent repo topic source) seedDefault)
    return seedDefault
  | none => return seedDefault
  | some (some val) => return (readBreadth val).getD seedDefault

/-- `SetSourceBreadth`. -/
def setSourceBreadth (intent repo topic source : String) (val : Int) :
    Prog sourceRedis (Option StoreErr) := do
  let r ← call (V := sourceRedis) (.set (sourceCurrentKey intent repo topic source) (clipSourceDocs val))
  return errOf r

/-- `LoadSourceDefault`: the frozen default of a cell, or a fallback. -/
def loadSourceDefault (intent repo topic source : String) (fallback : Int) : Prog sourceRedis Int := do
  let val ← call (V := sourceRedis) (.get (sourceDefaultKey intent repo topic source))
  return (val.join.bind readBreadth).getD (clipSourceDocs fallback)

/-- `AppendSourceHistory`. -/
def appendSourceHistory (intent repo topic source : String) (entry : SourceHistoryEntry) (now : Int) :
    Prog sourceRedis (Option StoreErr) := do
  let entry := if entry.timestamp = 0 then { entry with timestamp := now } else entry
  let r ← call (V := sourceRedis) (.push (sourceHistoryKey intent repo topic source) entry 49)
  return errOf r

/-! ### The bandit -/

/-- A perturbed breadth under test, and the samples collected for it and for its base. -/
structure SourceCandidate where
  intent : String
  repo : String
  topic : String
  source : String
  val : Int
  base : Int
  rewards : List ℚ
  baseSamples : List ℚ
  consecBad : Nat
  deriving DecidableEq, Repr

/-- A configured source and its default breadth. -/
structure SourceSeed where
  name : String
  default : Int
  deriving DecidableEq, Repr

/-- The source that was sampled on a query, the breadth it was served and the current best. -/
structure ExploreRec where
  source : String
  val : Int
  base : Int
  deriving DecidableEq, Repr

structure SourceBandit where
  enabled : Bool
  active : String → Option SourceCandidate

/-- The breadths a query is served, by source. -/
abbrev Breadths := String → Option Int

/-- The random numbers of one selection: the exploration draw, the index of the source (`Intn`) and the
direction draw. -/
structure SourceDraws where
  explore : ℚ
  source : Nat
  direction : ℚ

namespace SourceBandit

/-- A bandit with no candidate under test. -/
def new (enabled : Bool) : SourceBandit := ⟨enabled, fun _ => none⟩

def put (b : SourceBandit) (key : String) (c : SourceCandidate) : SourceBandit :=
  { b with active := Function.update b.active key (some c) }

def delete (b : SourceBandit) (key : String) : SourceBandit :=
  { b with active := Function.update b.active key none }

/-- The breadth of each source of a query. -/
def readBreadths (intent repo topic : String) : List SourceSeed → Breadths → Prog sourceRedis Breadths
  | [], breadths => return breadths
  | sd :: seeds, breadths => do
    let seedDefault := if sd.default ≤ 0 then 5 else sd.default
    let v ← currentSourceBreadth intent repo topic sd.name seedDefault
    readBreadths intent repo topic seeds (Function.update breadths sd.name (some v))

def perturb (base : Int) (d : SourceDraws) : Int :=
  let delta := if d.direction < 1 / 2 then -1 else 1
  clipSourceDocs (base + delta)

/-- The choice of `SelectAll`, from the current breadths. -/
def choose (cfg : Tunables) (b : SourceBandit) (intent repo topic : String) (seeds : List SourceSeed)
    (bucketSamples : Int) (d : SourceDraws) (breadths : Breadths) :
    (Breadths × Option ExploreRec) × SourceBandit :=
  if !b.enabled || seeds.isEmpty then ((breadths, none), b)
  else if !isGlobalBucket repo topic && decide (bucketSamples < cfg.sampleFloor) then
    ((breadths, none), b)
  else
    let key := banditKey intent repo topic
    match b.active key with
    | some c =>
      -- the source is no longer configured
      if (breadths c.source).isNone then ((breadths, none), b.delete key)
      else if d.explore < epsilon then
        ((Function.update breadths c.source (some c.val), some ⟨c.source, c.val, c.base⟩), b)
      else ((Function.update breadths c.source (some c.base), some ⟨c.source, c.base, c.base⟩), b)
    | none =>
      if d.explore ≥ epsilon then ((breadths, none), b)
      else
        match seeds[d.source % seeds.length]? with
        | none => ((breadths, none), b)
        | some sd =>
          let baseVal := (breadths sd.name).getD 0
          let cand := perturb baseVal d
          if cand = baseVal then ((breadths, none), b)
          else
            ((Function.update breadths sd.name (some cand), some ⟨sd.name, cand, baseVal⟩),
              b.put key ⟨intent, repo, topic, sd.name, cand, baseVal, [], [], 0⟩)

/-- `SelectAll`: the breadth of each source of a query, the exploration record and the bandit. -/
def selectAll (cfg : Tunables) (b : SourceBandit) (intent repo topic : String)
    (seeds : List SourceSeed) (bucketSamples : Int) (d : SourceDraws) :
    Prog sourceRedis ((Breadths × Option ExploreRec) × SourceBandit) := do
  let breadths ← readBreadths intent repo topic seeds fun _ => none
  return b.choose cfg intent repo topic seeds bucketSamples d breadths

/-- The candidate becomes the stored breadth. When the write fails it stays under test. -/
def promote (b : SourceBandit) (key : String) (c : SourceCandidate) (now : Int) :
    Prog sourceRedis SourceBandit := do
  match ← setSourceBreadth c.intent c.repo c.topic c.source c.val with
  | some _ => return b
  | none =>
    let _ ← appendSourceHistory c.intent c.repo c.topic c.source
      { timestamp := 0, kind := "promote", from_ := c.base, to_ := c.val
        reason := "candidate beat base by >= PromotionLift over PromotionWindow samples" } now
    return b.delete key

/-- The frozen default becomes the stored breadth. -/
def rollback (b : SourceBandit) (key : String) (c : SourceCandidate) (reason : String) (now : Int) :
    Prog sourceRedis SourceBandit := do
  let d ← loadSourceDefault c.intent c.repo c.topic c.source c.base
  let _ ← setSourceBreadth c.intent c.repo c.topic c.source d
  let _ ← appendSourceHistory c.intent c.repo c.topic c.source
    { timestamp := 0, kind := "rollback", from_ := c.val, to_ := d, reason } now
  return b.delete key

/-- The candidate wins its comparison with the base. -/
def wins (c : SourceCandidate) : Prop :=
  Bandit.mean c.rewards > Bandit.mean c.baseSamples + promotionLift

instance (c : SourceCandidate) : Decidable (wins c) := by unfold wins; infer_instance

/-- The decision at the end of `Update`, once the window is full: the candidate is promoted or
discarded. -/
def checkPromotion (b : SourceBandit) (key : String) (c : SourceCandidate) (now : Int) :
    Prog sourceRedis SourceBandit :=
  if c.rewards.length ≥ promotionWindow ∧ c.baseSamples.length ≥ 5 then
    if wins c then b.promote key c now else return b.delete key
  else return b

/-- `Update`: record a reward for the candidate or the base of a bucket, and decide. -/
def update (b : SourceBandit) (intent repo topic source : String) (servedVal : Int)
    (adjustedReward weight : ℚ) (now : Int) : Prog sourceRedis SourceBandit :=
  let key := banditKey intent repo topic
  match b.active key with
  | none => return b
  | some c =>
    if c.source ≠ source then return b
    else
      let weighted := adjustedReward * weight
      if servedVal = c.val then
        let c := { c with rewards := c.rewards ++ [weighted] }
        if adjustedReward < rollbackThreshold then
          let c := { c with consecBad := c.consecBad + 1 }
          if c.consecBad ≥ rollbackStrikes then
            (b.put key c).rollback key c "3-strike rollback (source candidate underperforming)" now
          else (b.put key c).checkPromotion key c now
        else
          let c := { c with consecBad := 0 }
          (b.put key c).checkPromotion key c now
      else if servedVal = c.base then
        let c := { c with baseSamples := c.baseSamples ++ [weighted] }
        (b.put key c).checkPromotion key c now
      -- a stale served value
      else return b

/-! ### What a selection and an update can do -/

/-- **Selection.** Every source is served its current breadth; or one is served the candidate or its base,
or a perturbation that is now under test, and the record names it. -/
theorem choose_cases (cfg : Tunables) (b : SourceBandit) (intent repo topic : String)
    (seeds : List SourceSeed) (n : Int) (d : SourceDraws) (m : Breadths) :
    (∃ b', (b' = b ∨ b' = b.delete (banditKey intent repo topic)) ∧
      b.choose cfg intent repo topic seeds n d m = ((m, none), b')) ∨
    (∃ c v, b.active (banditKey intent repo topic) = some c ∧ (v = c.val ∨ v = c.base) ∧
      b.choose cfg intent repo topic seeds n d m
        = ((Function.update m c.source (some v), some ⟨c.source, v, c.base⟩), b)) ∨
    (∃ sd ∈ seeds, ∃ v base, base = (m sd.name).getD 0 ∧ v = perturb base d ∧ v ≠ base ∧
      b.choose cfg intent repo topic seeds n d m
        = ((Function.update m sd.name (some v), some ⟨sd.name, v, base⟩),
            b.put (banditKey intent repo topic)
              ⟨intent, repo, topic, sd.name, v, base, [], [], 0⟩)) := by
  unfold choose
  -- a bandit that is off, or a topic below its floor, serves what was read
  by_cases hoff : (!b.enabled || seeds.isEmpty) = true
  · rw [if_pos hoff]
    exact .inl ⟨b, .inl rfl, rfl⟩
  by_cases hfloor : (!isGlobalBucket repo topic && decide (n < cfg.sampleFloor)) = true
  · rw [if_neg hoff, if_pos hfloor]
    exact .inl ⟨b, .inl rfl, rfl⟩
  rw [if_neg hoff, if_neg hfloor]
  dsimp only
  cases b.active (banditKey intent repo topic) with
  | some c =>
    -- the source that is tested is gone from the query, so its test is dropped
    by_cases hgone : (m c.source).isNone = true
    · exact .inl ⟨_, .inr rfl, if_pos hgone⟩
    · refine .inr (.inl ⟨c, if d.explore < epsilon then c.val else c.base, rfl, ?_, ?_⟩)
      · split_ifs
        · exact .inl rfl
        · exact .inr rfl
      · dsimp only
        rw [if_neg hgone]
        split_ifs <;> rfl
  | none =>
    -- no test: without exploring what was read is served
    by_cases hexplore : d.explore ≥ epsilon
    · exact .inl ⟨b, .inl rfl, if_pos hexplore⟩
    · cases hsd : seeds[d.source % seeds.length]? with
      | none => exact .inl ⟨b, .inl rfl, if_neg hexplore⟩
      | some sd =>
        -- the step leaves the bounds, and the clip brings it back
        by_cases hcand : perturb ((m sd.name).getD 0) d = (m sd.name).getD 0
        · exact .inl ⟨b, .inl rfl, (if_neg hexplore).trans (if_pos hcand)⟩
        · exact .inr (.inr ⟨sd, List.mem_of_getElem? hsd, _, _, rfl, rfl, hcand,
            (if_neg hexplore).trans (if_neg hcand)⟩)

end SourceBandit

/-- What one breadth is kept for. -/
structure SourceCell where
  intent : String
  repo : String
  topic : String
  source : String
  deriving DecidableEq, Repr

namespace SourceCell

def currentKey (p : SourceCell) : String := sourceCurrentKey p.intent p.repo p.topic p.source

def defaultKey (p : SourceCell) : String := sourceDefaultKey p.intent p.repo p.topic p.source

/-- The key of the candidate of the cell's bucket. -/
def bucketKey (p : SourceCell) : String := banditKey p.intent p.repo p.topic

end SourceCell

namespace SourceCandidate

/-- The cell under test. -/
def cell (c : SourceCandidate) : SourceCell := ⟨c.intent, c.repo, c.topic, c.source⟩

/-- The same test, with other samples. -/
structure Resampled (c c' : SourceCandidate) : Prop where
  cell : c'.cell = c.cell
  val : c'.val = c.val
  base : c'.base = c.base

theorem Resampled.with (c : SourceCandidate) (rewards baseSamples : List ℚ) (consecBad : Nat) :
    c.Resampled
      { c with rewards := rewards, baseSamples := baseSamples, consecBad := consecBad } :=
  ⟨rfl, rfl, rfl⟩

end SourceCandidate

/-- The breadth that is stored under a key. -/
def SourceDb.breadth (db : SourceDb) (key : String) : Option Int := (db.str key).bind readBreadth

namespace SourceBandit

@[simp] theorem delete_put (b : SourceBandit) (key : String) (c : SourceCandidate) :
    (b.put key c).delete key = b.delete key := by
  simp [put, delete]

@[simp] theorem put_active (b : SourceBandit) (key : String) (c : SourceCandidate) :
    (b.put key c).active = Function.update b.active key (some c) := rfl

@[simp] theorem delete_active (b : SourceBandit) (key : String) :
    (b.delete key).active = Function.update b.active key none := rfl

theorem active_of_put {b : SourceBandit} {key k : String} {c c' : SourceCandidate}
    (h : (b.put key c).active k = some c') : (k = key ∧ c' = c) ∨ b.active k = some c' := by
  by_cases hk : k = key
  · rw [put_active, hk, Function.update_self, Option.some.injEq] at h
    exact .inl ⟨hk, h.symm⟩
  · rw [put_active, Function.update_of_ne hk] at h
    exact .inr h

theorem active_of_delete {b : SourceBandit} {key k : String} {c : SourceCandidate}
    (h : (b.delete key).active k = some c) : k ≠ key ∧ b.active k = some c := by
  by_cases hk : k = key
  · rw [delete_active, hk, Function.update_self] at h
    cases h
  · rw [delete_active, Function.update_of_ne hk] at h
    exact ⟨hk, h⟩

theorem promote_run (b : SourceBandit) (key : String) (c : SourceCandidate) (now : Int)
    (db : SourceDb) :
    ((b.promote key c now).run db).1 = b.delete key ∧
      ((b.promote key c now).run db).2.str = (db.set c.cell.currentKey (clipSourceDocs c.val)).str :=
  ⟨rfl, rfl⟩

theorem rollback_run (b : SourceBandit) (key : String) (c : SourceCandidate) (reason : String)
    (now : Int) (db : SourceDb) :
    ((b.rollback key c reason now).run db).1 = b.delete key ∧
      ((b.rollback key c reason now).run db).2.str = (db.set c.cell.currentKey (clipSourceDocs
        ((db.breadth c.cell.defaultKey).getD (clipSourceDocs c.base)))).str :=
  ⟨rfl, rfl⟩

/-- What an update does once it has taken a sample. -/
inductive Decided (b : SourceBandit) (key : String) (c : SourceCandidate) (db : SourceDb) :
    SourceBandit × SourceDb → Prop where
  | sampled {c' : SourceCandidate} : c.Resampled c' → Decided b key c db (b.put key c', db)
  | discarded : Decided b key c db (b.delete key, db)
  | promoted {db' : SourceDb} : db'.str = (db.set c.cell.currentKey (clipSourceDocs c.val)).str →
    Decided b key c db (b.delete key, db')
  | rolledBack {db' : SourceDb} : db'.str = (db.set c.cell.currentKey (clipSourceDocs
      ((db.breadth c.cell.defaultKey).getD (clipSourceDocs c.base)))).str →
    Decided b key c db (b.delete key, db')

theorem checkPromotion_decided {b : SourceBandit} {key : String} {c c' : SourceCandidate}
    (h : c.Resampled c') (now : Int) (db : SourceDb) :
    Decided b key c db (((b.put key c').checkPromotion key c' now).run db) := by
  unfold checkPromotion
  split_ifs
  · have hrun := promote_run (b.put key c') key c' now db
    rw [delete_put] at hrun
    rw [← Prod.mk.eta (p := ((b.put key c').promote key c' now).run db), hrun.1]
    refine .promoted (hrun.2.trans ?_)
    rw [h.cell, h.val]
  · rw [run_pure, delete_put]
    exact .discarded
  · exact .sampled h

theorem rollback_decided {b : SourceBandit} {key : String} {c c' : SourceCandidate}
    (h : c.Resampled c') (reason : String) (now : Int) (db : SourceDb) :
    Decided b key c db (((b.put key c').rollback key c' reason now).run db) := by
  have hrun := rollback_run (b.put key c') key c' reason now db
  rw [delete_put, h.cell, h.base] at hrun
  rw [← Prod.mk.eta (p := ((b.put key c').rollback key c' reason now).run db), hrun.1]
  exact .rolledBack hrun.2

/-- **An update** changes nothing unless the reward is for the candidate of the bucket, at its value or at
its base. -/
theorem update_cases (b : SourceBandit) (intent repo topic source : String) (servedVal : Int)
    (reward weight : ℚ) (now : Int) (db : SourceDb) :
    let out := (b.update intent repo topic source servedVal reward weight now).run db
    out = (b, db) ∨
      ∃ c, b.active (banditKey intent repo topic) = some c ∧ c.source = source ∧
        (servedVal = c.val ∨ servedVal = c.base) ∧
        Decided b (banditKey intent repo topic) c db out := by
  intro out
  unfold out update
  dsimp only
  cases b.active (banditKey intent repo topic) with
  | none => exact .inl rfl
  | some c =>
    dsimp only
    -- the update is of the tested source, at the tested value, at the base, or at neither
    by_cases hsource : c.source = source
    · subst hsource
      rw [if_neg (not_not.mpr rfl)]
      by_cases hval : servedVal = c.val
      · rw [if_pos hval]
        refine .inr ⟨c, rfl, rfl, .inl hval, ?_⟩
        split_ifs with hbad hstrikes
        · exact rollback_decided (.with c _ c.baseSamples _) _ now db
        · exact checkPromotion_decided (.with c _ c.baseSamples _) now db
        · exact checkPromotion_decided (.with c _ c.baseSamples _) now db
      · rw [if_neg hval]
        by_cases hbase : servedVal = c.base
        · rw [if_pos hbase]
          exact .inr ⟨c, rfl, rfl, .inr hbase,
            checkPromotion_decided (.with c c.rewards _ c.consecBad) now db⟩
        · rw [if_neg hbase]
          exact .inl rfl
    · rw [if_pos hsource]
      exact .inl rfl

end SourceBandit

end Devrouter
