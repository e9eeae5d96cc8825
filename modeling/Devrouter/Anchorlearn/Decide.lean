import Mathlib.Data.List.Sort
import Devrouter.Lib.Fields
import Devrouter.Anchorlearn.Reward

/-!
# Anchor decisions

Model of `Decide` and `DecideDiscoveredOnly` in `internal/anchorlearn/learner.go`, of the policy in
`policy.go` and of the static portfolio in `types.go`: which files are proposed as anchors for a query.
Scores are rationals; `float64` rounding is not modelled.

The existence probe discards the candidates whose file is missing, but the exploration step draws from
the pool before the probe. `decide_handsOut_iff` says for which draws every anchor handed out exists.
-/

namespace Devrouter.Anchorlearn

/-! ### Patterns and candidates -/

/-- `Source`. -/
inductive PatternSource where
  | static
  | discovered
  deriving DecidableEq, Repr

structure Pattern where
  id : String
  suffix : String
  keywords : List String
  source : PatternSource
  deriving DecidableEq, Repr

structure Candidate where
  service : String
  path : String
  pattern : Pattern
  score : ℚ
  isExploration : Bool
  deriving DecidableEq, Repr

/-- An entry of the static portfolio, whose id is its suffix. -/
def staticPattern (suffix : String) (keywords : List String) : Pattern :=
  ⟨suffix, suffix, keywords, .static⟩

def defaultStaticPatterns : List Pattern :=
  [
    staticPattern "main.go" ["main", "boot", "start", "init", "shutdown", "interrupt", "install"],
    staticPattern "web/web.go" ["web", "server", "listener", "start", "listen"],
    staticPattern "web/http/server.go" ["http", "listener", "server", "rest", "listen"],
    staticPattern "web/grpc/server.go" ["grpc", "server", "rpc"],
    staticPattern "web/routes/route.go" ["route", "routes", "register", "endpoint", "path"],
    staticPattern "web/routes/routes.go" ["route", "routes", "register", "endpoint", "path"],
    staticPattern "handlers/web/routes/routes.go" ["route", "routes", "wire", "register", "handler"],
    staticPattern "server.go" ["server", "listen", "start", "boot"],
    staticPattern "router.go" ["route", "router", "register"],
    staticPattern "cmd/server/main.go" ["main", "server", "start"],
    staticPattern "main.py" ["main", "start", "boot", "entry"],
    staticPattern "app.py" ["app", "flask", "fastapi", "server"],
    staticPattern "wsgi.py" ["wsgi", "django", "deploy"],
    staticPattern "asgi.py" ["asgi", "async", "deploy"],
    staticPattern "manage.py" ["django", "manage", "command"],
    staticPattern "urls.py" ["route", "url", "register", "django"],
    staticPattern "routes.py" ["route", "register", "endpoint"],
    staticPattern "index.js" ["index", "main", "entry", "express"],
    staticPattern "index.ts" ["index", "main", "entry"],
    staticPattern "server.js" ["server", "listen", "express", "start"],
    staticPattern "server.ts" ["server", "listen", "start"],
    staticPattern "app.js" ["app", "express", "server"],
    staticPattern "app.ts" ["app", "server", "nest"],
    staticPattern "main.ts" ["main", "boot", "nest"],
    staticPattern "src/main/java/Application.java" ["application", "spring", "main", "boot"],
    staticPattern "pom.xml" ["maven", "module", "dependency", "spring", "boot"],
    staticPattern "src/main/resources/application.yml"
      ["config", "configuration", "spring", "yaml", "datasource", "redis", "rabbitmq"],
    staticPattern "src/main/resources/application.properties"
      ["config", "configuration", "spring", "properties"],
    staticPattern "src/main.rs" ["main", "rust", "binary"],
    staticPattern "src/lib.rs" ["lib", "rust", "library"],
    staticPattern "config.ru" ["rack", "ruby", "deploy"]]

/-- A pattern of the discovered set. -/
def discoveredPattern (suffix : String) : Pattern := ⟨suffix, suffix, [], .discovered⟩

/-! ### What the learner reads -/

structure PatternStats where
  firedCount : ℤ
  successCount : ℤ
  deriving DecidableEq, Repr

/-- The reading half of `Store`, as one call sees it: a read that fails reads as an absent record. -/
structure StoreReads where
  /-- The members of a set, in the order the server lists them. -/
  listDiscovered : String → List String
  listDiscovered_nodup : ∀ repo, (listDiscovered repo).Nodup
  getPatternStats : String → String → PatternStats
  getKeywordAffinity : String → String → ℚ

/-- The draws of one call. -/
structure Rng where
  float64 : ℚ
  intn : ℕ → ℕ
  float64_nonneg : 0 ≤ float64
  float64_lt_one : float64 < 1
  intn_lt : ∀ n, 0 < n → intn n < n

/-- `FileExists`, by repo and path. -/
abbrev Probe := String → String → Bool

structure Learner where
  patterns : List Pattern
  epsilon : ℚ

/-- The learner of `New`, at an exploration rate. -/
def Learner.new (epsilon : ℚ) : Learner := ⟨defaultStaticPatterns, epsilon⟩

/-! ### The score -/

def smoothingPriorFires : ℚ := 2

def smoothingPriorSuccess : ℚ := 1

def repoPriorWeight : ℚ := 7 / 10

def keywordAffinityWeight : ℚ := 3 / 10

def keywordAffinityCap : ℚ := 1

def minFiresBeforeExploit : ℤ := 3

def smoothedRate (success fired : ℤ) : ℚ :=
  let num := (success : ℚ) + smoothingPriorSuccess
  let den := (fired : ℚ) + smoothingPriorFires
  if den = 0 then 1 / 2 else num / den

def score (globalStats repoStats : PatternStats) (kwScore : ℚ) : ℚ :=
  let globalRate := smoothedRate globalStats.successCount globalStats.firedCount
  let repoRate := smoothedRate repoStats.successCount repoStats.firedCount
  let w :=
    if repoStats.firedCount < minFiresBeforeExploit then
      (repoStats.firedCount : ℚ) / (minFiresBeforeExploit : ℚ) * repoPriorWeight
    else repoPriorWeight
  let blended := (1 - w) * globalRate + w * repoRate
  blended * (1 + keywordAffinityWeight * min kwScore keywordAffinityCap)

/-- `containsToken`. -/
def containsToken (tokens : List String) (tok : String) : Bool :=
  tokens.contains (String.ofList (tok.toList.map lowerRune))

/-- The keywords of a query, lower-cased first. -/
def queryKeywords (query : String) : List String := extractKeywords (query.toList.map lowerRune)

/-- What was learned of a pattern and the keywords of a query. -/
def learnedAffinity (store : StoreReads) (keywords : List String) (p : Pattern) : ℚ :=
  (keywords.map fun kw => store.getKeywordAffinity kw p.id).sum

/-- What the static portfolio says of a pattern and the keywords of a query. -/
def staticAffinity (keywords : List String) (p : Pattern) : ℚ :=
  (p.keywords.map fun kw => if containsToken keywords kw then 1 / 2 else 0).sum

/-! ### The decision -/

/-- The product of the services and the patterns. -/
def candidatePool (services : List String) (patterns : List Pattern) : List Candidate :=
  services.flatMap fun svc => patterns.map fun p => ⟨svc, svc ++ "/" ++ p.suffix, p, 0, false⟩

/-- Without a probe every candidate is kept. -/
def survives (probe : Option Probe) (repo : String) (c : Candidate) : Bool :=
  match probe with
  | none => true
  | some fileExists => fileExists repo c.path

def scoreCandidate (store : StoreReads) (repo : String) (kwScore : Pattern → ℚ) (c : Candidate) :
    Candidate :=
  { c with
    score := score (store.getPatternStats "" c.pattern.id) (store.getPatternStats repo c.pattern.id)
      (kwScore c.pattern) }

/-- The survivors of the probe with their scores, in the order of the pool. -/
def scoredPool (store : StoreReads) (probe : Option Probe) (repo : String) (kwScore : Pattern → ℚ)
    (pool : List Candidate) : List Candidate :=
  (pool.filter (survives probe repo)).map (scoreCandidate store repo kwScore)

/-- The comparison of `rankByScore`. -/
def Candidate.outranks (a b : Candidate) : Bool :=
  if a.score ≠ b.score then decide (b.score < a.score) else decide (a.pattern.id < b.pattern.id)

/-- `rankByScore`, a stable sort. -/
def rankByScore (cs : List Candidate) : List Candidate :=
  cs.insertionSort fun a b => b.outranks a = false

/-- The candidates of the pool that have not fired often enough in the repo. -/
def unproven (store : StoreReads) (repo : String) (pool : List Candidate) : List Candidate :=
  pool.filter fun c => decide ((store.getPatternStats repo c.pattern.id).firedCount < minFiresBeforeExploit)

/-- The candidate that is drawn from the unproven ones. -/
def drawn (store : StoreReads) (rng : Rng) (repo : String) (pool : List Candidate) : Option Candidate :=
  (unproven store repo pool)[rng.intn (unproven store repo pool).length]?

def Candidate.sameAnchor (a b : Candidate) : Bool :=
  decide (a.pattern.id = b.pattern.id) && decide (a.service = b.service)

def epsilonGreedyShuffle (store : StoreReads) (rng : Rng) (repo : String) (ranked pool : List Candidate)
    (k : ℕ) (epsilon : ℚ) : List Candidate :=
  if ranked = [] ∨ k = 0 then ranked
  -- no exploration this time: the ranking is served as it is
  else if epsilon ≤ rng.float64 then ranked
  else
    match drawn store rng repo pool with
    | none => ranked
    | some c =>
      let chosen := { c with isExploration := true }
      let cap := min k ranked.length
      -- the drawn anchor is within the budget already
      if (ranked.take cap).any (·.sameAnchor chosen) then ranked
      -- a short ranking has room, a full one gives up the last place of its budget
      else if ranked.length ≤ cap then chosen :: ranked
      else ranked.set (cap - 1) chosen

/-- The patterns `Decide` tries. -/
def Learner.portfolio (l : Learner) (store : StoreReads) (repo : String) : List Pattern :=
  l.patterns ++ (store.listDiscovered repo).map discoveredPattern

def Learner.decide (l : Learner) (store : StoreReads) (probe : Option Probe) (rng : Rng)
    (repo query : String) (services : List String) (k : ℤ) : List Candidate :=
  if k ≤ 0 ∨ services = [] then []
  else
    let keywords := queryKeywords query
    let pool := candidatePool services (l.portfolio store repo)
    let scored := rankByScore (scoredPool store probe repo
      (fun p => learnedAffinity store keywords p + staticAffinity keywords p) pool)
    let scored :=
      if 0 < l.epsilon then epsilonGreedyShuffle store rng repo scored pool k.toNat l.epsilon else scored
    scored.take k.toNat

def Learner.decideDiscoveredOnly (store : StoreReads) (probe : Option Probe) (repo query : String)
    (services : List String) (k : ℤ) : List Candidate :=
  if k ≤ 0 ∨ services = [] then []
  else
    let discovered := store.listDiscovered repo
    if discovered = [] then []
    else
      let pool := candidatePool services (discovered.map discoveredPattern)
      let scored := scoredPool store probe repo (learnedAffinity store (queryKeywords query)) pool
      (rankByScore scored).take k.toNat

/-- Without exploration. -/
theorem Learner.decide_of_epsilon {l : Learner} (hepsilon : l.epsilon ≤ 0) (store : StoreReads)
    (probe : Option Probe) (rng : Rng) (repo query : String) (services : List String) (k : ℤ) :
    l.decide store probe rng repo query services k =
      if k ≤ 0 ∨ services = [] then []
      else
        (rankByScore (scoredPool store probe repo
          (fun p => learnedAffinity store (queryKeywords query) p + staticAffinity (queryKeywords query) p)
          (candidatePool services (l.portfolio store repo)))).take k.toNat := by
  unfold Learner.decide
  simp only [if_neg (not_lt.mpr hepsilon)]

/-! ### The pool -/

theorem mem_candidatePool {services : List String} {patterns : List Pattern} {c : Candidate} :
    c ∈ candidatePool services patterns ↔
      ∃ svc ∈ services, ∃ p ∈ patterns, c = ⟨svc, svc ++ "/" ++ p.suffix, p, 0, false⟩ := by
  simp only [candidatePool, List.mem_flatMap, List.mem_map, eq_comm (a := c)]

/-- The suffixes of the portfolio. -/
def staticSuffixes : List String := defaultStaticPatterns.map (·.suffix)

theorem staticSuffixes_nodup : staticSuffixes.Nodup := by decide +kernel

/-- Patterns whose id is their suffix, each suffix once. -/
structure WellNamed (patterns : List Pattern) : Prop where
  id_eq : ∀ p ∈ patterns, p.id = p.suffix
  nodup : (patterns.map (·.suffix)).Nodup

theorem wellNamed_static : WellNamed defaultStaticPatterns := ⟨by decide +kernel, staticSuffixes_nodup⟩

theorem wellNamed_discovered {suffixes : List String} (h : suffixes.Nodup) :
    WellNamed (suffixes.map discoveredPattern) := by
  refine ⟨fun p hp => ?_, ?_⟩
  · obtain ⟨suf, -, rfl⟩ := List.mem_map.mp hp
    rfl
  · have hmap : (suffixes.map discoveredPattern).map (·.suffix) = suffixes := by
      rw [List.map_map]
      exact List.map_id suffixes
    rwa [hmap]

theorem WellNamed.append {ps qs : List Pattern} (hp : WellNamed ps) (hq : WellNamed qs)
    (hdisj : ∀ q ∈ qs, q.suffix ∉ ps.map (·.suffix)) : WellNamed (ps ++ qs) := by
  refine ⟨fun p h => ?_, ?_⟩
  · rcases List.mem_append.mp h with h | h
    · exact hp.id_eq p h
    · exact hq.id_eq p h
  · rw [List.map_append]
    refine hp.nodup.append hq.nodup fun suf hsuf hsuf' => ?_
    obtain ⟨q, hq', rfl⟩ := List.mem_map.mp hsuf'
    exact hdisj q hq' hsuf

/-- The services a path is built from: names of top-level directories. -/
def TopLevel (services : List String) : Prop := ∀ svc ∈ services, '/' ∉ svc.toList

/-- A path below a top-level directory determines the directory and the suffix. -/
theorem path_inj {svc svc' suf suf' : String} (h : '/' ∉ svc.toList) (h' : '/' ∉ svc'.toList) :
    svc ++ "/" ++ suf = svc' ++ "/" ++ suf' ↔ svc = svc' ∧ suf = suf' :=
  String.append_sep_inj rfl h h'

theorem candidatePool_nodup {services : List String} {patterns : List Pattern}
    (hnodup : services.Nodup) (htop : TopLevel services) (hp : WellNamed patterns) :
    ((candidatePool services patterns).map (·.path)).Nodup := by
  have hpaths : (candidatePool services patterns).map (·.path) =
      services.flatMap fun svc => (patterns.map (·.suffix)).map fun suf => svc ++ "/" ++ suf := by
    rw [candidatePool, List.map_flatMap]
    simp only [List.map_map]
    rfl
  rw [hpaths, List.nodup_flatMap]
  refine ⟨fun svc hsvc => hp.nodup.map fun suf suf' h => ?_, hnodup.imp_of_mem ?_⟩
  · exact ((path_inj (htop svc hsvc) (htop svc hsvc)).mp h).2
  · intro svc svc' hsvc hsvc' hne path hpath hpath'
    obtain ⟨suf, -, rfl⟩ := List.mem_map.mp hpath
    obtain ⟨suf', -, heq⟩ := List.mem_map.mp hpath'
    exact hne ((path_inj (htop svc' hsvc') (htop svc hsvc)).mp heq).1.symm

/-- What a candidate keeps of its entry in the pool, whatever its score. -/
structure Candidate.Of (services : List String) (patterns : List Pattern) (c : Candidate) : Prop where
  service_mem : c.service ∈ services
  pattern_mem : c.pattern ∈ patterns
  path_eq : c.path = c.service ++ "/" ++ c.pattern.suffix

section Pool

variable {services : List String} {patterns : List Pattern} {a b c : Candidate}

theorem Candidate.of_mem_pool (h : c ∈ candidatePool services patterns) : c.Of services patterns := by
  obtain ⟨svc, hsvc, p, hp, rfl⟩ := mem_candidatePool.mp h
  exact ⟨hsvc, hp, rfl⟩

theorem Candidate.sameAnchor_iff :
    a.sameAnchor b = true ↔ a.pattern.id = b.pattern.id ∧ a.service = b.service := by
  simp [Candidate.sameAnchor]

/-- One anchor has one path. -/
theorem Candidate.Of.path_of_sameAnchor (hid : ∀ p ∈ patterns, p.id = p.suffix)
    (ha : a.Of services patterns) (hb : b.Of services patterns) (h : a.sameAnchor b = true) :
    a.path = b.path := by
  obtain ⟨hpat, hsvc⟩ := Candidate.sameAnchor_iff.mp h
  rw [hid _ ha.pattern_mem, hid _ hb.pattern_mem] at hpat
  rw [ha.path_eq, hb.path_eq, hpat, hsvc]

/-- Below top-level directories, one path is one anchor. -/
theorem Candidate.Of.sameAnchor_of_path (htop : TopLevel services) (hid : ∀ p ∈ patterns, p.id = p.suffix)
    (ha : a.Of services patterns) (hb : b.Of services patterns) (h : a.path = b.path) :
    a.sameAnchor b = true := by
  rw [ha.path_eq, hb.path_eq, path_inj (htop _ ha.service_mem) (htop _ hb.service_mem)] at h
  rw [Candidate.sameAnchor_iff, hid _ ha.pattern_mem, hid _ hb.pattern_mem]
  exact ⟨h.2, h.1⟩

/-! ### Scoring and ranking -/

variable {store : StoreReads} {repo : String} {kwScore : Pattern → ℚ} {pool : List Candidate}

theorem rankByScore_perm (cs : List Candidate) : (rankByScore cs).Perm cs := List.perm_insertionSort _ cs

/-- Scoring keeps the paths of the survivors. -/
theorem scoredPool_path (probe : Option Probe) : (scoredPool store probe repo kwScore pool).map (·.path) =
    (pool.filter (survives probe repo)).map (·.path) := by
  rw [scoredPool, List.map_map]
  rfl

/-- What was ranked comes from the pool, and survived the probe. -/
theorem of_mem_ranked {probe : Probe}
    (h : c ∈ rankByScore (scoredPool store (some probe) repo kwScore (candidatePool services patterns))) :
    c.Of services patterns ∧ probe repo c.path = true := by
  rw [(rankByScore_perm _).mem_iff, scoredPool] at h
  obtain ⟨c', hc', rfl⟩ := List.mem_map.mp h
  obtain ⟨hmem, hprobe⟩ := List.mem_filter.mp hc'
  obtain ⟨hs, hp, hpath⟩ := Candidate.of_mem_pool hmem
  exact ⟨⟨hs, hp, hpath⟩, hprobe⟩

theorem ranked_nodup (probe : Option Probe) (h : (pool.map (·.path)).Nodup) :
    ((rankByScore (scoredPool store probe repo kwScore pool)).map (·.path)).Nodup := by
  rw [((rankByScore_perm _).map _).nodup_iff, scoredPool_path]
  exact h.sublist (List.filter_sublist.map _)

/-- Something is ranked when something survived. -/
theorem ranked_ne_nil (probe : Probe) :
    rankByScore (scoredPool store (some probe) repo kwScore pool) ≠ [] ↔
      ∃ c ∈ pool, probe repo c.path = true := by
  rw [Ne, List.eq_nil_iff_forall_not_mem]
  simp only [(rankByScore_perm _).mem_iff]
  rw [← List.eq_nil_iff_forall_not_mem, scoredPool, List.map_eq_nil_iff, List.filter_eq_nil_iff]
  simp only [survives, not_forall, exists_prop, not_not]

/-! ### Exploration -/

variable {rng : Rng} {ranked : List Candidate} {k : ℕ} {epsilon : ℚ}

/-- Without a draw below the rate, or without an unproven candidate, the ranking stands. -/
theorem shuffle_of_not (h : ranked = [] ∨ k = 0 ∨ epsilon ≤ rng.float64 ∨ drawn store rng repo pool = none) :
    epsilonGreedyShuffle store rng repo ranked pool k epsilon = ranked := by
  unfold epsilonGreedyShuffle
  split_ifs with hempty heps
  · rfl
  · rfl
  · have hnone : drawn store rng repo pool = none := by tauto
    rw [hnone]

/-- A draw below the rate changes the ranking only when what it draws is not in the top `k`. -/
theorem shuffle_of_drawn (hne : ranked ≠ []) (hk : k ≠ 0) (heps : rng.float64 < epsilon)
    (hc : drawn store rng repo pool = some c) :
    epsilonGreedyShuffle store rng repo ranked pool k epsilon =
      if (ranked.take k).any (·.sameAnchor { c with isExploration := true }) then ranked
      else if ranked.length ≤ k then { c with isExploration := true } :: ranked
      else ranked.set (k - 1) { c with isExploration := true } := by
  -- the budget is cut to the length, which the source does before it looks
  have htake : ranked.take (min k ranked.length) = ranked.take k := by
    rcases le_total k ranked.length with hle | hle
    · rw [min_eq_left hle]
    · rw [min_eq_right hle, List.take_length, List.take_of_length_le hle]
  have hcap : ranked.length ≤ min k ranked.length ↔ ranked.length ≤ k := by
    rw [le_min_iff]
    exact and_iff_left le_rfl
  unfold epsilonGreedyShuffle
  rw [if_neg (by tauto), if_neg (not_le.mpr heps), hc]
  simp only [htake, hcap]
  by_cases hle : ranked.length ≤ k
  · simp only [if_pos hle]
  · have hmin : min k ranked.length = k := min_eq_left (by omega)
    simp only [if_neg hle, hmin]

/-- What the top `k` holds once a drawn candidate replaced a ranked one. -/
theorem mem_take_replaced {x : Candidate} :
    x ∈ (if ranked.length ≤ k then c :: ranked else ranked.set (k - 1) c).take k →
      x = c ∨ x ∈ ranked.take k := by
  split_ifs with hle
  · intro h
    rcases List.mem_cons.mp (List.mem_of_mem_take h) with h | h
    · exact .inl h
    · exact .inr (by rwa [List.take_of_length_le hle])
  · rw [List.take_set]
    exact fun h => (List.mem_or_eq_of_mem_set h).symm

/-- The drawn candidate is in the top `k`. -/
theorem drawn_mem_take (hk : k ≠ 0) :
    c ∈ (if ranked.length ≤ k then c :: ranked else ranked.set (k - 1) c).take k := by
  obtain ⟨n, rfl⟩ : ∃ n, k = n + 1 := Nat.exists_eq_succ_of_ne_zero hk
  split_ifs with hle
  · exact List.mem_cons_self
  · rw [List.take_set]
    refine List.mem_set (l := ranked.take (n + 1)) ?_ c
    rw [List.length_take]
    omega

theorem take_replaced_nodup (hnodup : (ranked.map (·.path)).Nodup)
    (hc : ∀ x ∈ ranked.take k, x.path ≠ c.path) :
    (((if ranked.length ≤ k then c :: ranked else ranked.set (k - 1) c).take k).map (·.path)).Nodup := by
  have hnotMem : c.path ∉ (ranked.take k).map (·.path) := by
    intro h
    obtain ⟨x, hx, hpath⟩ := List.mem_map.mp h
    exact hc x hx hpath
  split_ifs with hle
  · rw [List.take_of_length_le hle] at hnotMem
    have hcons : ((c :: ranked).map (·.path)).Nodup := List.nodup_cons.mpr ⟨hnotMem, hnodup⟩
    exact hcons.sublist ((List.take_sublist _ _).map _)
  · rw [List.take_set, List.map_set]
    exact (hnodup.sublist ((List.take_sublist _ _).map _)).set hnotMem

/-- Whether every ranked candidate that is handed out has `P`, when those ranked have: the drawn one
has to as well. `P` may not tell apart the candidates of one anchor. -/
theorem forall_mem_shuffle {P : Candidate → Prop} (hk : k ≠ 0) (hranked : ∀ x ∈ ranked, P x)
    (hsame : ∀ x ∈ ranked, ∀ y, drawn store rng repo pool = some y → x.sameAnchor y = true → P x → P y)
    (hmark : ∀ y, P { y with isExploration := true } ↔ P y) :
    (∀ x ∈ (epsilonGreedyShuffle store rng repo ranked pool k epsilon).take k, P x) ↔
      (ranked ≠ [] → rng.float64 < epsilon → ∀ y, drawn store rng repo pool = some y → P y) := by
  by_cases hdraw : ranked ≠ [] ∧ rng.float64 < epsilon ∧ ∃ y, drawn store rng repo pool = some y
  · obtain ⟨hne, heps, y, hy⟩ := hdraw
    rw [shuffle_of_drawn hne hk heps hy]
    have hgoal : (ranked ≠ [] → rng.float64 < epsilon → ∀ z, drawn store rng repo pool = some z → P z) ↔ P y :=
      ⟨fun h => h hne heps y hy, fun h _ _ z hz => Option.some.inj (hy.symm.trans hz) ▸ h⟩
    rw [hgoal]
    by_cases hany : (ranked.take k).any (·.sameAnchor { y with isExploration := true }) = true
    · rw [if_pos hany]
      obtain ⟨x, hx, hxy⟩ := List.any_eq_true.mp hany
      have hmem := List.mem_of_mem_take hx
      -- the anchor that was drawn is ranked already, so both sides hold
      exact ⟨fun _ => hsame x hmem y hy hxy (hranked x hmem), fun _ z hz => hranked z (List.mem_of_mem_take hz)⟩
    · rw [if_neg hany]
      constructor
      · exact fun h => (hmark y).mp (h _ (drawn_mem_take hk))
      · intro h x hx
        rcases mem_take_replaced hx with rfl | hx
        · exact (hmark y).mpr h
        · exact hranked x (List.mem_of_mem_take hx)
  · rw [shuffle_of_not]
    · exact ⟨fun _ hne heps y hy => absurd ⟨hne, heps, y, hy⟩ hdraw,
        fun _ x hx => hranked x (List.mem_of_mem_take hx)⟩
    · by_contra hcon
      simp only [not_or] at hcon
      exact hdraw ⟨hcon.1, not_le.mp hcon.2.2.1, Option.ne_none_iff_exists'.mp hcon.2.2.2⟩

/-- The paths handed out stay distinct: what is drawn into the top `k` is an anchor that is not there. -/
theorem shuffle_take_nodup (htop : TopLevel services) (hid : ∀ p ∈ patterns, p.id = p.suffix)
    (hnodup : (ranked.map (·.path)).Nodup) (hof : ∀ x ∈ ranked, x.Of services patterns) :
    (((epsilonGreedyShuffle store rng repo ranked (candidatePool services patterns) k epsilon).take k).map
      (·.path)).Nodup := by
  have hstands : ((ranked.take k).map (·.path)).Nodup := hnodup.sublist ((List.take_sublist _ _).map _)
  by_cases hdraw : ranked ≠ [] ∧ k ≠ 0 ∧ rng.float64 < epsilon ∧
      ∃ y, drawn store rng repo (candidatePool services patterns) = some y
  · obtain ⟨hne, hk, heps, y, hy⟩ := hdraw
    rw [shuffle_of_drawn hne hk heps hy]
    have hyof : y.Of services patterns := Candidate.of_mem_pool (List.mem_of_mem_filter (List.mem_of_getElem? hy))
    -- the drawn candidate is handed out already, so nothing changes
    by_cases hany : (ranked.take k).any (·.sameAnchor { y with isExploration := true }) = true
    · rw [if_pos hany]
      exact hstands
    · -- it replaces the last one, and its path differs from those before it
      rw [if_neg hany]
      refine take_replaced_nodup hnodup fun x hx hpath => hany (List.any_eq_true.mpr ⟨x, hx, ?_⟩)
      exact (hof x (List.mem_of_mem_take hx)).sameAnchor_of_path htop hid
        ⟨hyof.service_mem, hyof.pattern_mem, hyof.path_eq⟩ hpath
  · -- without a draw the ranking stays
    rw [shuffle_of_not]
    · exact hstands
    · by_contra hcon
      simp only [not_or] at hcon
      exact hdraw ⟨hcon.1, hcon.2.1, not_le.mp hcon.2.2.1, Option.ne_none_iff_exists'.mp hcon.2.2.2⟩

end Pool

/-! ### What is handed out -/

/-- The anchors handed out by one call: each of them exists, they are at most `k`, and their paths are
distinct when the services are distinct top-level directories and nothing discovered is in the
portfolio. -/
structure HandsOut (store : StoreReads) (probe : Probe) (repo : String) (services : List String) (k : ℤ)
    (out : List Candidate) : Prop where
  anchor_exists : ∀ c ∈ out, probe repo c.path = true
  length_le : out.length ≤ k.toNat
  paths_nodup : services.Nodup → TopLevel services →
    (∀ suf ∈ store.listDiscovered repo, suf ∉ staticSuffixes) → (out.map (·.path)).Nodup

/-- When the call explores, what it draws exists. -/
def DrawExists (epsilon : ℚ) (store : StoreReads) (probe : Probe) (rng : Rng) (repo : String)
    (services : List String) (k : ℤ) : Prop :=
  let pool := candidatePool services ((Learner.new epsilon).portfolio store repo)
  0 < k → rng.float64 < epsilon → (∃ c ∈ pool, probe repo c.path = true) →
    ∀ c, drawn store rng repo pool = some c → probe repo c.path = true

section Decide

variable (epsilon : ℚ) (store : StoreReads) (probe : Probe) (rng : Rng) (repo query : String)
  (services : List String) (k : ℤ)

theorem portfolio_id : ∀ p ∈ (Learner.new epsilon).portfolio store repo, p.id = p.suffix := by
  intro p hp
  rcases List.mem_append.mp hp with hp | hp
  · exact wellNamed_static.id_eq p hp
  · obtain ⟨suf, -, rfl⟩ := List.mem_map.mp hp
    rfl

theorem portfolio_wellNamed (hdisj : ∀ suf ∈ store.listDiscovered repo, suf ∉ staticSuffixes) :
    WellNamed ((Learner.new epsilon).portfolio store repo) := by
  refine wellNamed_static.append (wellNamed_discovered (store.listDiscovered_nodup repo)) fun q hq => ?_
  obtain ⟨suf, hsuf, rfl⟩ := List.mem_map.mp hq
  exact hdisj suf hsuf

/-- The ranking of the survivors stands when nothing is drawn. -/
theorem ranked_handsOut {patterns : List Pattern} {kwScore : Pattern → ℚ}
    (hp : (∀ suf ∈ store.listDiscovered repo, suf ∉ staticSuffixes) → WellNamed patterns) :
    HandsOut store probe repo services k
      ((rankByScore (scoredPool store (some probe) repo kwScore (candidatePool services patterns))).take k.toNat) :=
  ⟨fun _ hc => (of_mem_ranked (List.mem_of_mem_take hc)).2, List.length_take_le _ _,
    fun hnodup htop hdisj => (ranked_nodup (some probe) (candidatePool_nodup hnodup htop (hp hdisj))).sublist
      ((List.take_sublist _ _).map _)⟩

theorem handsOut_nil : HandsOut store probe repo services k [] :=
  ⟨fun _ h => absurd h List.not_mem_nil, Nat.zero_le _, fun _ _ _ => List.nodup_nil⟩

/-- The fallback never explores: what it hands out was probed. -/
theorem decideDiscoveredOnly_handsOut :
    HandsOut store probe repo services k
      (Learner.decideDiscoveredOnly store (some probe) repo query services k) := by
  unfold Learner.decideDiscoveredOnly
  dsimp only
  split_ifs
  · exact handsOut_nil store probe repo services k
  · exact handsOut_nil store probe repo services k
  · exact ranked_handsOut store probe repo services k fun _ =>
      wellNamed_discovered (store.listDiscovered_nodup repo)

theorem decide_length_le :
    ((Learner.new epsilon).decide store (some probe) rng repo query services k).length ≤ k.toNat := by
  unfold Learner.decide
  dsimp only
  split_ifs
  · exact Nat.zero_le _
  · exact List.length_take_le _ _
  · exact List.length_take_le _ _

theorem decide_nodup (hnodup : services.Nodup) (htop : TopLevel services)
    (hdisj : ∀ suf ∈ store.listDiscovered repo, suf ∉ staticSuffixes) :
    (((Learner.new epsilon).decide store (some probe) rng repo query services k).map (·.path)).Nodup := by
  have hwell := portfolio_wellNamed epsilon store repo hdisj
  have hranked : ∀ kwScore : Pattern → ℚ, ((rankByScore (scoredPool store (some probe) repo kwScore
      (candidatePool services ((Learner.new epsilon).portfolio store repo)))).map (·.path)).Nodup :=
    fun _ => ranked_nodup (some probe) (candidatePool_nodup hnodup htop hwell)
  unfold Learner.decide
  dsimp only
  split_ifs
  · exact List.nodup_nil
  · exact shuffle_take_nodup htop hwell.id_eq (hranked _) fun x hx => (of_mem_ranked hx).1
  · exact (hranked _).sublist ((List.take_sublist _ _).map _)

/-- The anchors of a decision exist exactly when the one that exploration draws does. -/
theorem decide_exists_iff :
    (∀ c ∈ (Learner.new epsilon).decide store (some probe) rng repo query services k, probe repo c.path = true) ↔
      DrawExists epsilon store probe rng repo services k := by
  have hnil : (∀ c ∈ ([] : List Candidate), probe repo c.path = true) := fun _ h => absurd h List.not_mem_nil
  have hid := portfolio_id epsilon store repo
  unfold Learner.decide DrawExists
  dsimp only
  split_ifs with hk heps
  · refine iff_of_true hnil fun hpos _ hex => ?_
    -- a call for nothing has no anchors, and a pool without services no candidates
    rcases hk with hk | rfl
    · exact absurd hpos (not_lt.mpr hk)
    · obtain ⟨c, hc, -⟩ := hex
      exact absurd hc List.not_mem_nil
  · have hpos : 0 < k := not_le.mp fun h => hk (.inl h)
    rw [forall_mem_shuffle (P := fun c => probe repo c.path = true) (by omega)
      (fun x hx => (of_mem_ranked hx).2) ?_ fun y => Iff.rfl]
    · rw [ranked_ne_nil]
      exact ⟨fun h _ hlt hex => h hex hlt, fun h hex hlt => h hpos hlt hex⟩
    · intro x hx y hy hsame hprobe
      have hyof := Candidate.of_mem_pool (List.mem_of_mem_filter (List.mem_of_getElem? hy))
      exact (of_mem_ranked hx).1.path_of_sameAnchor hid hyof hsame ▸ hprobe
  · refine iff_of_true (fun c hc => (of_mem_ranked (List.mem_of_mem_take hc)).2) fun _ hlt => ?_
    exact absurd (rng.float64_nonneg.trans_lt hlt) heps

/-- **Anchors handed out.** Those of the fallback always exist, are at most `k` and are distinct. So are
those of a decision, except that the one drawn by exploration was not probed: all of them exist exactly
when that one does. -/
theorem decide_handsOut_iff :
    (HandsOut store probe repo services k
        ((Learner.new epsilon).decide store (some probe) rng repo query services k) ∧
      HandsOut store probe repo services k
        (Learner.decideDiscoveredOnly store (some probe) repo query services k)) ↔
      DrawExists epsilon store probe rng repo services k := by
  rw [and_iff_left (decideDiscoveredOnly_handsOut store probe repo query services k),
    ← decide_exists_iff epsilon store probe rng repo query services k]
  exact ⟨fun h => h.anchor_exists, fun h => ⟨h, decide_length_le epsilon store probe rng repo query services k,
    decide_nodup epsilon store probe rng repo query services k⟩⟩

end Decide

/-! ### A draw that does not exist -/

/-- Nothing was learned yet. -/
def coldStore : StoreReads where
  listDiscovered _ := []
  listDiscovered_nodup _ := List.nodup_nil
  getPatternStats _ _ := ⟨0, 0⟩
  getKeywordAffinity _ _ := 0

/-- The second of what there is to draw from. -/
def drawSecond : Rng where
  float64 := 0
  intn n := if n = 1 then 0 else 1
  float64_nonneg := le_rfl
  float64_lt_one := zero_lt_one
  intn_lt n hn := by split_ifs <;> omega

/-- A repo with one service, which has a `main.go` and nothing else of the portfolio, at the default
exploration rate. -/
theorem decide_missing_anchor :
    let probe : Probe := fun _ path => decide (path = "oscar/main.go")
    ((Learner.new (1 / 10)).decide coldStore (some probe) drawSecond "goserving" "where does oscar start" ["oscar"]
        5).map (·.path) = ["oscar/web/web.go", "oscar/main.go"] ∧
      ¬ HandsOut coldStore probe "goserving" ["oscar"] 5
        ((Learner.new (1 / 10)).decide coldStore (some probe) drawSecond "goserving" "where does oscar start"
          ["oscar"] 5) := by
  intro probe
  have hpaths : ((Learner.new (1 / 10)).decide coldStore (some probe) drawSecond "goserving"
      "where does oscar start" ["oscar"] 5).map (·.path) = ["oscar/web/web.go", "oscar/main.go"] := by
    decide +kernel
  refine ⟨hpaths, fun h => ?_⟩
  obtain ⟨c, hc, hpath⟩ := List.mem_map.mp (hpaths ▸ List.mem_cons_self : "oscar/web/web.go" ∈ _)
  have hprobe := h.anchor_exists c hc
  rw [hpath] at hprobe
  exact absurd hprobe (by decide)

end Devrouter.Anchorlearn
