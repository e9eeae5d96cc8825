import Devrouter.Heuristics.Breadths
import Devrouter.Router.Signals

/-!
# The document caps of a call

Model of the external fan-out of `HandleQueryWithPlan` (`internal/router/router.go`) and of `sourceSeeds`,
`widenBreadths` and `fetchDocSources` (`internal/router/source_adapters.go`), as far as they choose how many documents
each source returns. The breadths are those of the source bandit; a repeat widens them.

Whether a call is a repeat is found out from the recent queries, which only the heuristics keep; what is detected is
left free. A repeat charges its prior query before the sources are selected, which is a reward of the run here. Any
command to the server may fail.

`repeat_widens` compares two calls in one state, of which one is a repeat. It rests on `SourceBandit.Bounded`: all that
is ever served is within the guardrails of the bandit, whatever is stored and whatever fails.
-/

open Prog

namespace Devrouter

/-! ### Sources -/

/-- An external source, as far as its cap goes. -/
structure DocSource where
  name : String
  maxDoc : ℤ
  deriving DecidableEq, Repr

namespace DocSource

/-- `New`. -/
def new (name : String) (maxDocs : ℤ) : DocSource := ⟨name, if maxDocs ≤ 0 then 5 else maxDocs⟩

def defaultDocs (src : DocSource) : ℤ := src.maxDoc

/-- The cap of `Search`, for the `MaxDocs` of a request. -/
def cap (src : DocSource) (maxDocs : ℤ) : ℤ := if 0 < maxDocs then maxDocs else src.maxDoc

theorem cap_of_pos (src : DocSource) {maxDocs : ℤ} (h : 0 < maxDocs) : src.cap maxDocs = maxDocs := if_pos h

end DocSource

def sourceSeeds (sources : List DocSource) : List SourceSeed := sources.map fun src => ⟨src.name, src.defaultDocs⟩

/-! ### Widening -/

/-- A nil map. -/
def nilBreadths : Breadths := fun _ => none

/-- The widened breadth of a source. A missing breadth is that of the seed. -/
def widenBreadth (breadth : Option ℤ) (default : ℤ) : ℤ :=
  let base := breadth.getD 0
  let base := if base ≤ 0 then default else base
  let base := if base ≤ 0 then 5 else base
  let widened := base + base / 2
  let widened := if widened ≤ base then base + 1 else widened
  if sourceDocsBounds.2 < widened then sourceDocsBounds.2 else widened

def widenBreadths (breadths : Breadths) (seeds : List SourceSeed) : Breadths :=
  seeds.foldl (fun out sd => Function.update out sd.name (some (widenBreadth (breadths sd.name) sd.default)))
    nilBreadths

/-- **A breadth within the guardrails** is widened, as far as they go. -/
theorem widenBreadth_spec {v : ℤ} (h : InSourceBounds v) (default : ℤ) :
    v ≤ widenBreadth (some v) default ∧ (v < widenBreadth (some v) default ∨ v = sourceDocsBounds.2) ∧
      0 < widenBreadth (some v) default := by
  unfold InSourceBounds sourceDocsBounds at h
  have hbase : ¬ v ≤ 0 := by omega
  unfold widenBreadth sourceDocsBounds
  dsimp only [Option.getD_some]
  rw [if_neg hbase, if_neg hbase]
  split_ifs <;> omega

/-- The fallback, which only a repeat without heuristics would use: a default above the guardrails is narrowed. -/
theorem le_widenBreadth_none {default : ℤ} (h : 0 < default) :
    default ≤ widenBreadth none default ↔ default ≤ sourceDocsBounds.2 := by
  have hbase : ¬ default ≤ 0 := not_le.mpr h
  unfold widenBreadth sourceDocsBounds
  dsimp only [Option.getD_none]
  rw [if_pos le_rfl, if_neg hbase]
  split_ifs <;> omega

/-- A source is widened from its own breadth. -/
theorem widenBreadths_apply (breadths : Breadths) (seeds : List SourceSeed) {name : String}
    (h : name ∈ seeds.map SourceSeed.name) :
    ∃ default, widenBreadths breadths seeds name = some (widenBreadth (breadths name) default) := by
  -- the last seed of the name counts
  induction seeds using List.reverseRecOn with
  | nil => cases h
  | append_singleton seeds sd ih =>
    have hstep : widenBreadths breadths (seeds ++ [sd]) = Function.update (widenBreadths breadths seeds) sd.name
        (some (widenBreadth (breadths sd.name) sd.default)) := List.foldl_concat _ _ _ _
    rw [hstep]
    by_cases hname : name = sd.name
    · subst hname
      exact ⟨sd.default, Function.update_self _ _ _⟩
    · rw [Function.update_of_ne hname]
      rw [List.map_append, List.mem_append] at h
      exact ih (h.resolve_right fun hmem => hname (List.mem_singleton.mp hmem))

/-! ### The fan-out -/

/-- `SelectSources` of a picker with a source bandit. -/
def SourceBandit.selectSources (cfg : Tunables) (b : SourceBandit) (intent repo topic : String)
    (seeds : List SourceSeed) (bucketSamples : Int) (d : SourceDraws) :
    Prog sourceRedis ((Breadths × Option ExploreRec) × SourceBandit) :=
  if seeds.isEmpty then return ((nilBreadths, none), b)
  else b.selectAll cfg intent repo topic seeds bucketSamples d

/-- The router: its sources, and its heuristics if it has any. -/
structure SourceRouter where
  sources : List DocSource
  heuristics : Option SourceBandit

/-- A call, and what it meets: whether its query has an embedding, what `DetectRepeat` answers, none when that fails,
the samples of its bucket and the random numbers. -/
structure DocCall where
  intent : String
  repo : String
  topic : String
  embedded : Bool
  detected : Option RepeatHit
  bucketSamples : Int
  draws : SourceDraws

/-- No match. -/
def noHit : RepeatHit := ⟨"", "", "", "", "", 0⟩

namespace SourceRouter

variable (cfg : Tunables) (r : SourceRouter) (c : DocCall)

/-- The repeat detection of a call. -/
def repeatHit : RepeatHit :=
  if r.heuristics.isNone || c.repo = "" || !c.embedded then noHit else c.detected.getD noHit

def isRepeat : Prop := repeatSimThreshold ≤ (r.repeatHit c).sim

instance : Decidable (r.isRepeat c) := by unfold isRepeat; infer_instance

/-- The breadths of the bandit, and the router with what the bandit keeps. Without heuristics there is nothing. -/
def learnedBreadths : Prog sourceRedis ((Breadths × Option ExploreRec) × SourceRouter) :=
  match r.heuristics with
  | none => return ((nilBreadths, none), r)
  | some b => do
    let out ← b.selectSources cfg c.intent c.repo c.topic (sourceSeeds r.sources) c.bucketSamples c.draws
    return (out.1, { r with heuristics := some out.2 })

/-- The breadths of a call, and the exploration it records. -/
def selectBreadths : Prog sourceRedis ((Breadths × Option ExploreRec) × SourceRouter) := do
  let out ← r.learnedBreadths cfg c
  if r.isRepeat c then return ((widenBreadths out.1.1 (sourceSeeds r.sources), none), out.2)
  else return out

end SourceRouter

/-- `MaxDocs` of the request that `fetchDocSources` makes for a source. -/
def requestDocs (breadths : Breadths) (src : DocSource) : ℤ :=
  match breadths src.name with
  | some b => if 0 < b then b else 0
  | none => 0

/-! ### What the bandit serves -/

namespace SourceBandit

/-- The candidates under test are within the guardrails. -/
def Bounded (b : SourceBandit) : Prop :=
  ∀ key c, b.active key = some c → InSourceBounds c.val ∧ InSourceBounds c.base

variable {b : SourceBandit} {key : String} {c : SourceCandidate}

theorem Bounded.new (enabled : Bool) : (SourceBandit.new enabled).Bounded := by
  intro key c hc
  cases hc

theorem Bounded.put (h : b.Bounded) (hval : InSourceBounds c.val) (hbase : InSourceBounds c.base) :
    (b.put key c).Bounded := by
  intro k c' hc'
  rcases active_of_put hc' with ⟨-, rfl⟩ | hold
  · exact ⟨hval, hbase⟩
  · exact h k c' hold

theorem Bounded.delete (h : b.Bounded) : (b.delete key).Bounded :=
  fun k c' hc' => h k c' (active_of_delete hc').2

end SourceBandit

/-- All breadths are within the guardrails. -/
def Breadths.Bounded (m : Breadths) : Prop := ∀ name v, m name = some v → InSourceBounds v

theorem Breadths.Bounded.update {m : Breadths} (h : m.Bounded) {name : String} {v : ℤ} (hv : InSourceBounds v) :
    Breadths.Bounded (Function.update m name (some v)) := by
  intro name' v' hv'
  by_cases hname : name' = name
  · subst hname
    rw [Function.update_self, Option.some.injEq] at hv'
    exact hv' ▸ hv
  · rw [Function.update_of_ne hname] at hv'
    exact h name' v' hv'

theorem isSome_update {m : Breadths} {name name' : String} {v : ℤ} (h : (m name').isSome) :
    (Function.update m name (some v) name').isSome := by
  by_cases hname : name' = name
  · subst hname
    rw [Function.update_self]
    rfl
  · rwa [Function.update_of_ne hname]

/-- What is read is within the guardrails, also when the server fails. -/
theorem currentSourceBreadth_wp (intent repo topic source : String) (seedDefault : ℤ) (db : SourceDb) :
    (currentSourceBreadth intent repo topic source seedDefault).wp (fun v _ => InSourceBounds v) db := by
  have hseed := clipSourceDocs_mem seedDefault
  unfold currentSourceBreadth
  rw [wp_bind, wp_call]
  refine ⟨hseed, ?_⟩
  have hreply : (sourceRedis.apply (.get (sourceCurrentKey intent repo topic source)) db).1 =
      db.str (sourceCurrentKey intent repo topic source) := rfl
  rw [hreply]
  cases db.str (sourceCurrentKey intent repo topic source) with
  | none =>
    refine wp_bind_of_forall (fun _ _ => wp_bind_of_forall (fun _ _ => ?_) _) _
    exact hseed
  | some t =>
    show InSourceBounds ((readBreadth t).getD (clipSourceDocs seedDefault))
    cases hread : readBreadth t with
    | none => exact hseed
    | some v => exact readBreadth_mem hread

/-- **The reads of a selection**, also when the server fails: every source has a breadth within the guardrails. -/
theorem readBreadths_wp (intent repo topic : String) (seeds : List SourceSeed) (m : Breadths) (hm : m.Bounded)
    (db : SourceDb) :
    (SourceBandit.readBreadths intent repo topic seeds m).wp (fun out _ => out.Bounded ∧
      (∀ name, (m name).isSome → (out name).isSome) ∧ ∀ sd ∈ seeds, (out sd.name).isSome) db := by
  induction seeds generalizing m db with
  | nil => exact ⟨hm, fun _ h => h, fun _ h => absurd h List.not_mem_nil⟩
  | cons sd seeds ih =>
    unfold SourceBandit.readBreadths
    rw [wp_bind]
    refine wp_mono (currentSourceBreadth_wp intent repo topic sd.name _ db) fun v db' hv => ?_
    refine wp_mono (ih _ (hm.update hv) db') fun out _ hout => ?_
    obtain ⟨hbounded, hkept, hread⟩ := hout
    refine ⟨hbounded, fun name hname => hkept name (isSome_update hname), fun sd' hsd' => ?_⟩
    rcases List.mem_cons.mp hsd' with rfl | hsd'
    · refine hkept _ ?_
      rw [Function.update_self]
      rfl
    · exact hread sd' hsd'

namespace SourceBandit

variable {b : SourceBandit}

/-- **The choice** keeps the breadths and the candidates within the guardrails. -/
theorem Bounded.choose (h : b.Bounded) (cfg : Tunables) (intent repo topic : String) (seeds : List SourceSeed)
    (n : Int) (d : SourceDraws) {m : Breadths} (hm : m.Bounded) (hread : ∀ sd ∈ seeds, (m sd.name).isSome) :
    let out := b.choose cfg intent repo topic seeds n d m
    out.1.1.Bounded ∧ (∀ sd ∈ seeds, (out.1.1 sd.name).isSome) ∧ out.2.Bounded := by
  intro out
  rcases b.choose_cases cfg intent repo topic seeds n d m with
    ⟨b', hb', hout⟩ | ⟨c, v, hc, hv, hout⟩ | ⟨sd, hsd, v, base, hbase, hv, -, hout⟩
  · -- nothing is tested: what was read is served
    have hbounded : b'.Bounded := by
      rcases hb' with rfl | rfl
      · exact h
      · exact h.delete
    rw [show out = _ from hout]
    exact ⟨hm, hread, hbounded⟩
  · -- the test that runs has its two values in bounds
    have hserved : InSourceBounds v := by
      rcases hv with rfl | rfl
      · exact (h _ c hc).1
      · exact (h _ c hc).2
    rw [show out = _ from hout]
    exact ⟨hm.update hserved, fun sd' hsd' => isSome_update (hread sd' hsd'), h⟩
  · -- a new test begins with a clipped value, at a base that was read
    have hserved : InSourceBounds v := hv ▸ clipSourceDocs_mem _
    obtain ⟨w, hw⟩ := Option.isSome_iff_exists.mp (hread sd hsd)
    have hold : InSourceBounds base := by
      rw [hbase, hw]
      exact hm _ w hw
    rw [show out = _ from hout]
    exact ⟨hm.update hserved, fun sd' hsd' => isSome_update (hread sd' hsd'), h.put hserved hold⟩

/-- **A selection**, also when the server fails. -/
theorem Bounded.selectSources (h : b.Bounded) (cfg : Tunables) (intent repo topic : String) (seeds : List SourceSeed)
    (n : Int) (d : SourceDraws) (db : SourceDb) :
    (b.selectSources cfg intent repo topic seeds n d).wp (fun out _ => out.1.1.Bounded ∧
      (∀ sd ∈ seeds, (out.1.1 sd.name).isSome) ∧ out.2.Bounded) db := by
  unfold SourceBandit.selectSources
  split_ifs with hempty
  · obtain rfl := List.isEmpty_iff.mp hempty
    exact ⟨nofun, fun _ hsd => absurd hsd List.not_mem_nil, h⟩
  · unfold SourceBandit.selectAll
    rw [wp_bind]
    refine wp_mono (readBreadths_wp intent repo topic seeds (fun _ => none) nofun db) fun m _ hm => ?_
    exact h.choose cfg intent repo topic seeds n d hm.1 hm.2.2

theorem Bounded.promote (h : b.Bounded) (key : String) (c : SourceCandidate) (now : ℤ) (db : SourceDb) :
    (b.promote key c now).wp (fun out _ => out.Bounded) db := by
  unfold SourceBandit.promote
  refine wp_bind_of_forall (fun err _ => ?_) _
  cases err with
  | some _ => exact h
  | none =>
    refine wp_bind_of_forall (fun _ _ => ?_) _
    exact h.delete

theorem Bounded.rollback (h : b.Bounded) (key : String) (c : SourceCandidate) (reason : String) (now : ℤ)
    (db : SourceDb) : (b.rollback key c reason now).wp (fun out _ => out.Bounded) db := by
  unfold SourceBandit.rollback
  refine wp_bind_of_forall (fun _ _ => wp_bind_of_forall (fun _ _ => wp_bind_of_forall (fun _ _ => ?_) _) _) _
  exact h.delete

theorem Bounded.checkPromotion (h : b.Bounded) (key : String) (c : SourceCandidate) (now : ℤ) (db : SourceDb) :
    (b.checkPromotion key c now).wp (fun out _ => out.Bounded) db := by
  unfold SourceBandit.checkPromotion
  split_ifs
  · exact h.promote key c now db
  · exact h.delete
  · exact h

/-- **A reward** keeps the candidates within the guardrails, also when the server fails. -/
theorem Bounded.update (h : b.Bounded) (intent repo topic source : String) (servedVal : ℤ) (reward weight : ℚ)
    (now : ℤ) (db : SourceDb) :
    (b.update intent repo topic source servedVal reward weight now).wp (fun out _ => out.Bounded) db := by
  unfold SourceBandit.update
  dsimp only
  cases hc : b.active (banditKey intent repo topic) with
  | none => exact h
  | some c =>
    -- only the samples and the strikes of the candidate change
    have hput (rewards base : List ℚ) (strikes : ℕ) : (b.put (banditKey intent repo topic)
        { c with rewards := rewards, baseSamples := base, consecBad := strikes }).Bounded :=
      h.put (h _ c hc).1 (h _ c hc).2
    dsimp only
    split_ifs
    · exact h
    · exact (hput _ _ _).rollback _ _ _ now db
    · exact (hput _ _ _).checkPromotion _ _ now db
    · exact (hput _ _ _).checkPromotion _ _ now db
    · exact (hput _ _ _).checkPromotion _ _ now db
    · exact h

end SourceBandit

/-! ### Runs -/

/-- A router and its server. -/
structure CapState where
  router : SourceRouter
  db : SourceDb

/-- A call, or a reward for an explored source; the commands that fail are named by their positions. -/
inductive CapOp where
  | call (c : DocCall) (fails : ℕ → Bool)
  | reward (u : SourceReward) (fails : ℕ → Bool)

namespace CapState

variable (cfg : Tunables)

/-- A router that was just started: the configured sources, with their names and `MaxDocs`, and the heuristics, if it
has any, exploring or not. -/
def start (configs : List (String × ℤ)) (heuristics : Option Bool) (db : SourceDb) : CapState :=
  ⟨⟨configs.map fun c => .new c.1 c.2, heuristics.map .new⟩, db⟩

def next (s : CapState) : CapOp → CapState
  | .call c fails =>
    let out := (s.router.selectBreadths cfg c).runFaults fails s.db
    ⟨out.1.2, out.2⟩
  | .reward u fails =>
    match s.router.heuristics with
    | none => s
    | some b =>
      let out := (b.update u.intent u.repo u.topic u.source u.servedVal u.adjustedReward u.weight u.now).runFaults
        fails s.db
      ⟨{ s.router with heuristics := some out.1 }, out.2⟩

def machine : Machine CapState CapOp where
  step s op := some (s.next cfg op)

/-- The breadths a call selects. -/
def breadths (s : CapState) (c : DocCall) (fails : ℕ → Bool) : Breadths :=
  ((s.router.selectBreadths cfg c).runFaults fails s.db).1.1.1

/-- The cap of a source in a call. -/
def cap (s : CapState) (c : DocCall) (fails : ℕ → Bool) (src : DocSource) : ℤ :=
  src.cap (requestDocs (s.breadths cfg c fails) src)

/-- The heuristics, if there are any, serve breadths within the guardrails only. -/
def Bounded (s : CapState) : Prop := ∀ b, s.router.heuristics = some b → b.Bounded

variable {s : CapState}

theorem Bounded.start (configs : List (String × ℤ)) (heuristics : Option Bool) (db : SourceDb) :
    (start configs heuristics db).Bounded := by
  intro b hb
  obtain ⟨enabled, -, rfl⟩ := Option.map_eq_some_iff.mp hb
  exact .new enabled

/-- **The breadths of the bandit**, with heuristics: within the guardrails, for every source. -/
theorem Bounded.learnedBreadths (h : s.Bounded) (cfg : Tunables) (c : DocCall) (db : SourceDb) :
    (s.router.learnedBreadths cfg c).wp (fun out _ => out.1.1.Bounded ∧
      (s.router.heuristics.isSome → ∀ sd ∈ sourceSeeds s.router.sources, (out.1.1 sd.name).isSome) ∧
      ∀ b, out.2.heuristics = some b → b.Bounded) db := by
  unfold SourceRouter.learnedBreadths
  cases hb : s.router.heuristics with
  | none => exact ⟨nofun, nofun, fun b hb' => h b hb'⟩
  | some b =>
    dsimp only
    rw [wp_bind]
    refine wp_mono ((h b hb).selectSources cfg _ _ _ _ _ _ db) fun out _ hout => ?_
    obtain ⟨hbounded, hread, hkept⟩ := hout
    exact ⟨hbounded, fun _ => hread, fun b' hb' => Option.some.inj hb' ▸ hkept⟩

theorem Bounded.selectBreadths (h : s.Bounded) (cfg : Tunables) (c : DocCall) (db : SourceDb) :
    (s.router.selectBreadths cfg c).wp (fun out _ => ∀ b, out.2.heuristics = some b → b.Bounded) db := by
  unfold SourceRouter.selectBreadths
  rw [wp_bind]
  refine wp_mono (h.learnedBreadths cfg c db) fun out _ hout => ?_
  split_ifs
  · exact hout.2.2
  · exact hout.2.2

theorem Bounded.next (h : s.Bounded) (cfg : Tunables) (op : CapOp) : (s.next cfg op).Bounded := by
  cases op with
  | call c fails => exact runFaults_of_wp (h.selectBreadths cfg c s.db) fails
  | reward u fails =>
    unfold CapState.next
    dsimp only
    cases hb : s.router.heuristics with
    | none => exact h
    | some b =>
      intro b' hb'
      obtain rfl := Option.some.inj hb'
      exact runFaults_of_wp ((h b hb).update u.intent u.repo u.topic u.source u.servedVal u.adjustedReward u.weight
        u.now s.db) fails

end CapState

/-! ### Repeats -/

/-- Calls that find the bandit and the server alike: only what was detected, and from which embedding, may differ. -/
structure DocCall.Alike (c c' : DocCall) : Prop where
  intent : c.intent = c'.intent
  repo : c.repo = c'.repo
  topic : c.topic = c'.topic
  bucketSamples : c.bucketSamples = c'.bucketSamples
  draws : c.draws = c'.draws

namespace SourceRouter

variable {cfg : Tunables} {r : SourceRouter} {c c' : DocCall}

/-- **Without heuristics** no call is a repeat. -/
theorem isSome_of_isRepeat (h : r.isRepeat c) : r.heuristics.isSome := by
  by_contra hnone
  unfold isRepeat repeatHit at h
  rw [Option.not_isSome_iff_eq_none.mp hnone] at h
  have hzero : repeatSimThreshold ≤ 0 := h
  exact absurd hzero (by decide +kernel)

theorem learnedBreadths_congr (h : c.Alike c') : r.learnedBreadths cfg c = r.learnedBreadths cfg c' := by
  unfold learnedBreadths
  rw [h.intent, h.repo, h.topic, h.bucketSamples, h.draws]

/-- A repeat widens what the bandit serves. -/
theorem selectBreadths_eq : r.selectBreadths cfg c = (fun out =>
    if r.isRepeat c then ((widenBreadths out.1.1 (sourceSeeds r.sources), none), out.2) else out) <$>
      r.learnedBreadths cfg c := by
  unfold selectBreadths
  rw [map_eq_pure_bind]
  refine congrArg _ (funext fun out => ?_)
  split_ifs
  · rfl
  · rfl

end SourceRouter

namespace CapState

variable {cfg : Tunables} {s : CapState} {c c' : DocCall}

theorem breadths_eq (fails : ℕ → Bool) : s.breadths cfg c fails =
    let learned := ((s.router.learnedBreadths cfg c).runFaults fails s.db).1.1.1
    if s.router.isRepeat c then widenBreadths learned (sourceSeeds s.router.sources) else learned := by
  unfold breadths
  rw [SourceRouter.selectBreadths_eq, runFaults_map]
  dsimp only
  split_ifs
  · rfl
  · rfl

/-- The caps of a source in two calls, of which one is a repeat. -/
theorem Bounded.cap_widens (h : s.Bounded) (hsame : c.Alike c') (hrepeat : s.router.isRepeat c)
    (hnormal : ¬ s.router.isRepeat c') (fails : ℕ → Bool) {src : DocSource} (hsrc : src ∈ s.router.sources) :
    s.cap cfg c' fails src ≤ s.cap cfg c fails src ∧
      (s.cap cfg c' fails src < s.cap cfg c fails src ∨ s.cap cfg c' fails src = sourceDocsBounds.2) := by
  have hlearned := h.learnedBreadths cfg c s.db
  -- both requests have learned the same breadths, which are in bounds
  obtain ⟨hbounded, hread, -⟩ := runFaults_of_wp hlearned fails
  have hseed : ⟨src.name, src.defaultDocs⟩ ∈ sourceSeeds s.router.sources := List.mem_map_of_mem hsrc
  unfold cap requestDocs
  rw [breadths_eq, breadths_eq, if_pos hrepeat, if_neg hnormal, ← SourceRouter.learnedBreadths_congr hsame]
  generalize ((s.router.learnedBreadths cfg c).runFaults fails s.db).1.1.1 = learned at hbounded hread
  obtain ⟨v, hv⟩ := Option.isSome_iff_exists.mp (hread (SourceRouter.isSome_of_isRepeat hrepeat) _ hseed)
  have hmem := hbounded src.name v hv
  -- the repeated one widens them, up to the bound
  obtain ⟨default, hwidened⟩ := widenBreadths_apply learned _ (List.mem_map_of_mem hseed)
  rw [hv] at hwidened
  obtain ⟨hle, hlt, hpos⟩ := widenBreadth_spec hmem default
  have hpos' : 0 < v := lt_of_lt_of_le (by decide) hmem.1
  dsimp only at hwidened hv ⊢
  rw [hwidened, hv]
  dsimp only
  rw [if_pos hpos, if_pos hpos', DocSource.cap_of_pos src hpos, DocSource.cap_of_pos src hpos']
  exact ⟨hle, hlt⟩

end CapState

/-- **A repeat widens.** In every state that a router reaches, whatever it was configured with, whatever the server
held and whatever fails: without heuristics no call is a repeat; and of two calls that meet the same, the one that is a
repeat has for each source at least the cap of the other, and a larger one, unless that is at the upper guardrail. -/
theorem repeat_widens (cfg : Tunables) (configs : List (String × ℤ)) (heuristics : Option Bool) (db : SourceDb)
    {ops : List CapOp} {s : CapState}
    (hrun : (CapState.machine cfg).exec (.start configs heuristics db) ops = some s) :
    (s.router.heuristics = none → ∀ c, ¬ s.router.isRepeat c) ∧
    ∀ c c' : DocCall, c.Alike c' → s.router.isRepeat c → ¬ s.router.isRepeat c' →
      ∀ (fails : ℕ → Bool), ∀ src ∈ s.router.sources,
        s.cap cfg c' fails src ≤ s.cap cfg c fails src ∧
          (s.cap cfg c' fails src < s.cap cfg c fails src ∨ s.cap cfg c' fails src = sourceDocsBounds.2) := by
  have hbounded : s.Bounded :=
    Machine.invariant (M := CapState.machine cfg) (I := CapState.Bounded)
      (fun s op s' hs _ h => Option.some.inj h ▸ hs.next cfg op) (.start configs heuristics db)
      (Machine.Along.of_forall_mem (fun _ _ _ => trivial) _) hrun
  refine ⟨fun hnone c hrepeat => ?_, fun c c' hsame hrepeat hnormal fails src hsrc => ?_⟩
  · have hsome := SourceRouter.isSome_of_isRepeat hrepeat
    rw [hnone] at hsome
    cases hsome
  · exact hbounded.cap_widens hsame hrepeat hnormal fails hsrc

/-- A call about the documents of one source. -/
def docsCall (detected : Option RepeatHit) : DocCall :=
  ⟨"debug", "r", "t-0", true, detected, 0, ⟨1, 0, 1⟩⟩

/-- A source with five documents is widened to seven. -/
theorem repeat_widens_docs :
    let s := CapState.start [("docs", 5)] (some false) .empty
    let c := docsCall (some ⟨"q1", "debug", "p1", "r", "t-0", 1⟩)
    let src : DocSource := ⟨"docs", 5⟩
    s.cap .default (docsCall none) (fun _ => false) src = 5 ∧ s.cap .default c (fun _ => false) src = 7 ∧
      (s.cap .default (docsCall none) (fun _ => false) src < s.cap .default c (fun _ => false) src ∨
        s.cap .default (docsCall none) (fun _ => false) src = sourceDocsBounds.2) := by
  intro s c src
  have hrun : (CapState.machine .default).exec (.start [("docs", 5)] (some false) .empty) [] = some s := rfl
  have hwidens := (repeat_widens .default [("docs", 5)] (some false) .empty hrun).2 c (docsCall none)
    ⟨rfl, rfl, rfl, rfl, rfl⟩ (by decide +kernel) (by decide +kernel) (fun _ => false) src List.mem_cons_self
  exact ⟨by decide +kernel, by decide +kernel, hwidens.2⟩

end Devrouter
