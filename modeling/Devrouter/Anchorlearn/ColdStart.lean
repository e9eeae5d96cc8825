import Mathlib.Algebra.BigOperators.Group.List.Basic
import Mathlib.Data.List.Infix
import Mathlib.Data.String.Basic
import Mathlib.Tactic.Linarith
import Mathlib.Tactic.Ring
import Devrouter.Lib.StableSort
import Devrouter.Anchorlearn.Decide

/-!
# A cold start against the static router

Model of `rankSuffixesByQuery` in `internal/router/router.go`, and of `Decide` before anything was learned
and without exploration. The router counts the keywords that occur anywhere in the query and keeps ties in
the order of the portfolio. The learner counts the keywords that are words of the query, no more than two
of them, and orders ties by the id of the pattern.

`cold_order_iff` says for which queries and files the two orders are one.
-/

namespace Devrouter.Anchorlearn

/-! ### The static router -/

structure ServiceEntryPattern where
  suffix : String
  keywordHits : List String
  deriving DecidableEq, Repr

/-- `scored`. -/
structure ScoredEntry where
  idx : ℕ
  score : ℕ
  pattern : ServiceEntryPattern

/-- How many of the keywords occur in the text. -/
def substringHits (ql : List Char) (kws : List String) : ℕ := kws.countP fun kw => decide (kw.toList <:+: ql)

/-- The comparison of `rankSuffixesByQuery`. -/
def ScoredEntry.before (a b : ScoredEntry) : Bool :=
  if a.score ≠ b.score then decide (b.score < a.score) else decide (a.idx < b.idx)

/-- `rankSuffixesByQuery`; `ql` is the lower-cased query. -/
def rankSuffixesByQuery (patterns : List ServiceEntryPattern) (ql : List Char) : List ServiceEntryPattern :=
  ((patterns.zipIdx.map fun p => (⟨p.2, substringHits ql p.1.keywordHits, p.1⟩ : ScoredEntry)).insertionSort
    fun a b => b.before a = false).map (·.pattern)

/-- An entry of the portfolio, as the router has it. -/
def Pattern.entry (p : Pattern) : ServiceEntryPattern := ⟨p.suffix, p.keywords⟩

/-- `serviceEntryPatterns`, the part of the portfolio that the router was written with. -/
def serviceEntryPatterns : List ServiceEntryPattern :=
  [
    ⟨"main.go", ["main", "boot", "start", "init", "shutdown", "interrupt", "install"]⟩,
    ⟨"web/web.go", ["web", "server", "listener", "start", "listen"]⟩,
    ⟨"web/http/server.go", ["http", "listener", "server", "rest", "listen"]⟩,
    ⟨"web/grpc/server.go", ["grpc", "server", "rpc"]⟩,
    ⟨"web/routes/route.go", ["route", "routes", "register", "endpoint", "path"]⟩,
    ⟨"web/routes/routes.go", ["route", "routes", "register", "endpoint", "path"]⟩,
    ⟨"handlers/web/routes/routes.go", ["route", "routes", "wire", "register", "handler"]⟩]

example : (defaultStaticPatterns.map Pattern.entry).take 7 = serviceEntryPatterns := by decide +kernel

/-! ### The two orders of a service -/

/-- The suffixes of a service that a cold learner hands out, in its order. -/
def coldSuffixes (probe : Probe) (rng : Rng) (repo query : String) (services : List String) (k : ℤ) (svc : String) :
    List String :=
  (((Learner.new 0).decide coldStore (some probe) rng repo query services k).filter
    fun c => decide (c.service = svc)).map (·.pattern.suffix)

/-- The suffixes of the files a service has, in the order of the static router. -/
def staticOrder (probe : Probe) (repo query svc : String) : List String :=
  ((rankSuffixesByQuery (defaultStaticPatterns.map Pattern.entry) (query.toList.map lowerRune)).map (·.suffix)).filter
    fun suf => probe repo (svc ++ "/" ++ suf)

/-- Whatever the budget, the anchors of a service are the first ones of the static order. -/
def OrdersAsStatic (probe : Probe) (rng : Rng) (repo query : String) (services : List String) : Prop :=
  ∀ svc ∈ services, ∀ k : ℤ,
    coldSuffixes probe rng repo query services k svc <+: staticOrder probe repo query svc

/-- The patterns whose file the service has. -/
def presentPatterns (probe : Probe) (repo svc : String) : List Pattern :=
  defaultStaticPatterns.filter fun p => probe repo (svc ++ "/" ++ p.suffix)

/-- The keywords of a pattern that are words of the query. -/
def wordHits (query : String) (p : Pattern) : ℕ := p.keywords.countP (containsToken (queryKeywords query))

/-- The keywords of a pattern that occur in the query. -/
def textHits (query : String) (p : Pattern) : ℕ := substringHits (query.toList.map lowerRune) p.keywords

/-- The cold learner puts `p` first: it has more words of the query, up to two, or as many and no greater
id. -/
abbrev ColdFirst (query : String) : Pattern → Pattern → Prop :=
  Descending (fun p => min 2 (wordHits query p)) fun p q => p.id ≤ q.id

/-- Of two patterns that are present, the one that is earlier in the portfolio is first for the cold learner
exactly when it has no fewer keywords in the query. -/
def OrdersAgree (query : String) (present : List Pattern) : Prop :=
  present.Pairwise fun p q => ColdFirst query p q ↔ textHits query q ≤ textHits query p

instance (query : String) (present : List Pattern) : Decidable (OrdersAgree query present) :=
  inferInstanceAs (Decidable (List.Pairwise _ _))

/-! ### The learner's ranking -/

/-- The affinity is half a point a word. -/
theorem staticAffinity_eq (query : String) (p : Pattern) :
    staticAffinity (queryKeywords query) p = (wordHits query p : ℚ) / 2 := by
  unfold staticAffinity wordHits
  induction p.keywords with
  | nil => simp
  | cons kw kws ih =>
    rw [List.map_cons, List.sum_cons, ih, List.countP_cons]
    split_ifs
    · push_cast
      ring
    · simp

/-- What the cold learner makes of a pattern. -/
def coldScore (query : String) (p : Pattern) : ℚ :=
  score (coldStore.getPatternStats "" p.id) (coldStore.getPatternStats "" p.id)
    (learnedAffinity coldStore (queryKeywords query) p + staticAffinity (queryKeywords query) p)

theorem learnedAffinity_coldStore (keywords : List String) (p : Pattern) :
    learnedAffinity coldStore keywords p = 0 := by
  unfold learnedAffinity
  rw [List.sum_eq_zero]
  intro x hx
  obtain ⟨kw, -, rfl⟩ := List.mem_map.mp hx
  rfl

/-- No more than two words count. -/
theorem coldScore_eq (query : String) (p : Pattern) :
    coldScore query p = 1 / 2 + 3 / 40 * (min 2 (wordHits query p) : ℕ) := by
  have hcap : min ((wordHits query p : ℚ) / 2) 1 = (min 2 (wordHits query p) : ℕ) / 2 := by
    rw [Nat.cast_min, min_comm, ← min_div_div_right (by norm_num : (0 : ℚ) ≤ 2)]
    norm_num
  have hrate : smoothedRate 0 0 = 1 / 2 := by decide +kernel
  unfold coldScore score
  rw [learnedAffinity_coldStore, staticAffinity_eq, zero_add]
  simp only [coldStore, hrate, repoPriorWeight, keywordAffinityWeight, keywordAffinityCap, minFiresBeforeExploit, hcap]
  norm_num
  ring

theorem coldScore_lt_iff (query : String) (p q : Pattern) :
    coldScore query p < coldScore query q ↔ min 2 (wordHits query p) < min 2 (wordHits query q) := by
  rw [coldScore_eq, coldScore_eq]
  constructor
  · intro h
    have hlt : ((min 2 (wordHits query p) : ℕ) : ℚ) < (min 2 (wordHits query q) : ℕ) := by linarith
    exact_mod_cast hlt
  · intro h
    have hlt : ((min 2 (wordHits query p) : ℕ) : ℚ) < (min 2 (wordHits query q) : ℕ) := by exact_mod_cast h
    linarith

/-- The candidate of a pattern of a service, with its score. -/
def coldCandidate (query svc : String) (p : Pattern) : Candidate :=
  ⟨svc, svc ++ "/" ++ p.suffix, p, coldScore query p, false⟩

/-- The order of the ids. -/
instance : Std.Total fun p q : Pattern => p.id ≤ q.id := ⟨fun p q => le_total p.id q.id⟩

instance : IsTrans Pattern fun p q => p.id ≤ q.id := ⟨fun _ _ _ => le_trans⟩

/-- `rankByScore` sorts by score, then by id. -/
theorem outranks_eq_false_iff {a b : Candidate} :
    b.outranks a = false ↔ Descending Candidate.score (fun a b => a.pattern.id ≤ b.pattern.id) a b := by
  unfold Candidate.outranks Descending
  split_ifs with hscore
  · rw [decide_eq_false_iff_not, not_lt]
    constructor
    · intro h
      exact .inl (lt_of_le_of_ne h hscore)
    · rintro (h | h)
      · exact h.le
      · exact absurd h.1.symm hscore
  · rw [decide_eq_false_iff_not, not_lt]
    rw [not_not] at hscore
    constructor
    · intro h
      exact .inr ⟨hscore.symm, h⟩
    · rintro (h | h)
      · exact absurd hscore h.ne
      · exact h.2

instance : Std.Total fun a b : Candidate => b.outranks a = false where
  total a b := by
    rw [outranks_eq_false_iff, outranks_eq_false_iff]
    have hid : Std.Total fun a b : Candidate => a.pattern.id ≤ b.pattern.id := ⟨fun a b => le_total _ _⟩
    exact total_of _ a b

instance : IsTrans Candidate fun a b => b.outranks a = false where
  trans a b c hab hbc := by
    rw [outranks_eq_false_iff] at hab hbc ⊢
    have hid : IsTrans Candidate fun a b => a.pattern.id ≤ b.pattern.id := ⟨fun _ _ _ => le_trans⟩
    exact trans_of _ hab hbc

theorem coldCandidate_outranks (query svc : String) (p q : Pattern) :
    (coldCandidate query svc q).outranks (coldCandidate query svc p) = false ↔ ColdFirst query p q := by
  have heq : coldScore query p = coldScore query q ↔ min 2 (wordHits query p) = min 2 (wordHits query q) := by
    rw [coldScore_eq, coldScore_eq]
    constructor
    · intro h
      have hcast : ((min 2 (wordHits query p) : ℕ) : ℚ) = (min 2 (wordHits query q) : ℕ) := by linarith
      exact_mod_cast hcast
    · intro h
      rw [h]
  rw [outranks_eq_false_iff]
  exact or_congr (coldScore_lt_iff query q p) (and_congr_left fun _ => heq)

/-- The candidates of one service are those of the files it has. -/
theorem coldPool_filter {services : List String} (hnodup : services.Nodup) {svc : String} (hsvc : svc ∈ services)
    (probe : Probe) (repo query : String) :
    (scoredPool coldStore (some probe) repo
        (fun p => learnedAffinity coldStore (queryKeywords query) p + staticAffinity (queryKeywords query) p)
        (candidatePool services defaultStaticPatterns)).filter (fun c => decide (c.service = svc)) =
      (presentPatterns probe repo svc).map (coldCandidate query svc) := by
  -- the candidates of another service drop out, those of this one lose the patterns that are missing
  have hpart : ∀ svc' : String,
      ((defaultStaticPatterns.map fun p => (⟨svc', svc' ++ "/" ++ p.suffix, p, 0, false⟩ : Candidate)).filter
        fun c => decide (c.service = svc) && survives (some probe) repo c) =
      if svc' = svc then (presentPatterns probe repo svc).map
        fun p => (⟨svc, svc ++ "/" ++ p.suffix, p, 0, false⟩ : Candidate) else [] := by
    intro svc'
    by_cases heq : svc' = svc
    · subst heq
      rw [if_pos rfl, List.filter_map]
      refine congrArg (List.map _) (List.filter_congr fun p _ => ?_)
      simp [survives]
    · rw [if_neg heq, List.filter_map, List.map_eq_nil_iff, List.filter_eq_nil_iff]
      intro p _
      simp [heq]
  unfold scoredPool candidatePool
  rw [List.filter_map, List.filter_filter, List.filter_flatMap]
  have hcomp : (fun c : Candidate => decide (c.service = svc)) ∘ scoreCandidate coldStore repo
      (fun p => learnedAffinity coldStore (queryKeywords query) p + staticAffinity (queryKeywords query) p) =
      fun c => decide (c.service = svc) := rfl
  rw [hcomp, funext hpart, List.flatMap_of_nodup hnodup (b := svc) fun _ _ hne => if_neg hne, if_pos hsvc, if_pos rfl,
    List.map_map]
  rfl

/-- The cold learner ranks the patterns of a service by `ColdFirst`. -/
theorem ranked_service {services : List String} (hnodup : services.Nodup) {svc : String} (hsvc : svc ∈ services)
    (probe : Probe) (repo query : String) :
    ((rankByScore (scoredPool coldStore (some probe) repo
        (fun p => learnedAffinity coldStore (queryKeywords query) p + staticAffinity (queryKeywords query) p)
        (candidatePool services defaultStaticPatterns))).filter fun c => decide (c.service = svc)) =
      ((presentPatterns probe repo svc).insertionSort (ColdFirst query)).map (coldCandidate query svc) := by
  unfold rankByScore
  rw [List.filter_insertionSort, coldPool_filter hnodup hsvc]
  exact (List.map_insertionSort _ _ _ _ fun p _ q _ => (coldCandidate_outranks query svc p q).symm).symm

/-! ### The static ranking -/

/-- The patterns whose file the service has, with their places in the portfolio. -/
def numberedPatterns (probe : Probe) (repo svc : String) : List (Pattern × ℕ) :=
  defaultStaticPatterns.zipIdx.filter fun x => probe repo (svc ++ "/" ++ x.1.suffix)

theorem numberedPatterns_fst (probe : Probe) (repo svc : String) :
    (numberedPatterns probe repo svc).map Prod.fst = presentPatterns probe repo svc := by
  have hfst : defaultStaticPatterns.zipIdx.map Prod.fst = defaultStaticPatterns := List.zipIdx_map_fst 0 _
  have hfilter := List.filter_map (l := defaultStaticPatterns.zipIdx) (f := Prod.fst)
    (p := fun p : Pattern => probe repo (svc ++ "/" ++ p.suffix))
  rw [hfst] at hfilter
  exact hfilter.symm

/-- More keywords in the query first, ties in the order of the portfolio. -/
abbrev StaticFirst (query : String) : Pattern × ℕ → Pattern × ℕ → Prop :=
  Descending (fun x => textHits query x.1) fun x y => x.2 ≤ y.2

instance : Std.Total fun x y : Pattern × ℕ => x.2 ≤ y.2 := ⟨fun x y => le_total x.2 y.2⟩

instance : IsTrans (Pattern × ℕ) fun x y => x.2 ≤ y.2 := ⟨fun _ _ _ => le_trans⟩

theorem before_eq_false_iff {a b : ScoredEntry} :
    b.before a = false ↔ Descending ScoredEntry.score (fun a b => a.idx ≤ b.idx) a b := by
  unfold ScoredEntry.before Descending
  split_ifs with hscore
  · rw [decide_eq_false_iff_not]
    omega
  · rw [decide_eq_false_iff_not]
    omega

/-- The static router ranks the patterns of a service by `StaticFirst`. -/
theorem staticOrder_eq (probe : Probe) (repo query svc : String) :
    staticOrder probe repo query svc =
      ((numberedPatterns probe repo svc).insertionSort (StaticFirst query)).map (·.1.suffix) := by
  have hentries : ((defaultStaticPatterns.map Pattern.entry).zipIdx.map fun p =>
      (⟨p.2, substringHits (query.toList.map lowerRune) p.1.keywordHits, p.1⟩ : ScoredEntry)) =
      defaultStaticPatterns.zipIdx.map fun x => ⟨x.2, textHits query x.1, x.1.entry⟩ := by
    rw [List.zipIdx_map, List.map_map]
    rfl
  have hsort := List.map_insertionSort (StaticFirst query) (fun a b : ScoredEntry => b.before a = false)
    (fun x : Pattern × ℕ => (⟨x.2, textHits query x.1, x.1.entry⟩ : ScoredEntry)) defaultStaticPatterns.zipIdx
    fun x _ y _ => (before_eq_false_iff (a := ⟨x.2, textHits query x.1, x.1.entry⟩)
      (b := ⟨y.2, textHits query y.1, y.1.entry⟩)).symm
  unfold staticOrder rankSuffixesByQuery numberedPatterns
  rw [hentries, ← hsort, List.map_map, List.map_map, List.filter_map, ← List.filter_insertionSort]
  rfl

/-! ### The two together -/

theorem numberedPatterns_nodup (probe : Probe) (repo svc : String) : (numberedPatterns probe repo svc).Nodup := by
  have hsnd : (defaultStaticPatterns.zipIdx.map Prod.snd).Nodup := by
    rw [List.zipIdx_map_snd]
    exact List.nodup_range'
  exact hsnd.of_map.filter _

/-- A numbered pattern is known by its suffix. -/
theorem suffix_inj {probe : Probe} {repo svc : String} {x y : Pattern × ℕ} (hx : x ∈ numberedPatterns probe repo svc)
    (hy : y ∈ numberedPatterns probe repo svc) (h : x.1.suffix = y.1.suffix) : x = y := by
  have hnodup : (defaultStaticPatterns.zipIdx.map fun x => x.1.suffix).Nodup := by
    have hmap : (defaultStaticPatterns.zipIdx.map fun x => x.1.suffix) = staticSuffixes := by
      rw [staticSuffixes, ← List.zipIdx_map_fst 0 defaultStaticPatterns, List.map_map, List.zipIdx_map_fst]
      rfl
    rw [hmap]
    exact staticSuffixes_nodup
  exact List.inj_on_of_nodup_map hnodup (List.mem_of_mem_filter hx) (List.mem_of_mem_filter hy) h

theorem place_inj {probe : Probe} {repo svc : String} {x y : Pattern × ℕ} (hx : x ∈ numberedPatterns probe repo svc)
    (hy : y ∈ numberedPatterns probe repo svc) (h : x.2 = y.2) : x = y := by
  have hnodup : (defaultStaticPatterns.zipIdx.map Prod.snd).Nodup := by
    rw [List.zipIdx_map_snd]
    exact List.nodup_range'
  exact List.inj_on_of_nodup_map hnodup (List.mem_of_mem_filter hx) (List.mem_of_mem_filter hy) h

/-- Lists that a map makes equal, when it tells their elements apart. -/
theorem eq_of_map_eq {β γ : Type} {f : β → γ} {l m : List β} (hf : ∀ a ∈ l, ∀ b ∈ m, f a = f b → a = b)
    (h : l.map f = m.map f) : l = m := by
  induction l generalizing m with
  | nil => exact (List.map_eq_nil_iff.mp h.symm).symm
  | cons a l ih =>
    cases m with
    | nil => exact absurd h (by simp)
    | cons b m =>
      rw [List.map_cons, List.map_cons] at h
      obtain ⟨hhead, htail⟩ := List.cons.inj h
      obtain rfl := hf a List.mem_cons_self b List.mem_cons_self hhead
      refine congrArg (List.cons a) (ih (fun x hx y hy => ?_) htail)
      exact hf x (List.mem_cons_of_mem _ hx) y (List.mem_cons_of_mem _ hy)

/-- The order of the cold learner, on numbered patterns. -/
abbrev NumberedColdFirst (query : String) : Pattern × ℕ → Pattern × ℕ → Prop :=
  Descending (fun x => min 2 (wordHits query x.1)) fun x y => x.1.id ≤ y.1.id

instance : Std.Total fun x y : Pattern × ℕ => x.1.id ≤ y.1.id := ⟨fun x y => le_total x.1.id y.1.id⟩

instance : IsTrans (Pattern × ℕ) fun x y => x.1.id ≤ y.1.id := ⟨fun _ _ _ => le_trans⟩

/-- The two rankings of a service are one exactly when the two orders agree. -/
theorem rankings_eq_iff (probe : Probe) (repo query svc : String) :
    ((presentPatterns probe repo svc).insertionSort (ColdFirst query)).map (·.suffix) =
        staticOrder probe repo query svc ↔
      OrdersAgree query (presentPatterns probe repo svc) := by
  have hcold : (presentPatterns probe repo svc).insertionSort (ColdFirst query) =
      ((numberedPatterns probe repo svc).insertionSort (NumberedColdFirst query)).map Prod.fst := by
    rw [← numberedPatterns_fst]
    exact (List.map_insertionSort (NumberedColdFirst query) (ColdFirst query) Prod.fst _ fun _ _ _ _ => Iff.rfl).symm
  have hids : (numberedPatterns probe repo svc).NoTies (NumberedColdFirst query) := by
    intro x hx y hy hxy hyx
    obtain ⟨-, hle, hge⟩ := hxy.antisymm _ _ hyx
    have hmem : ∀ {x}, x ∈ numberedPatterns probe repo svc → x.1 ∈ defaultStaticPatterns := fun h =>
      List.fst_mem_of_mem_zipIdx (List.mem_of_mem_filter h)
    refine suffix_inj hx hy ?_
    rw [← wellNamed_static.id_eq _ (hmem hx), ← wellNamed_static.id_eq _ (hmem hy)]
    exact le_antisymm hle hge
  have hplaces : (numberedPatterns probe repo svc).NoTies (StaticFirst query) := by
    intro x hx y hy hxy hyx
    obtain ⟨-, hle, hge⟩ := hxy.antisymm _ _ hyx
    exact place_inj hx hy (le_antisymm hle hge)
  have horder : (numberedPatterns probe repo svc).Pairwise fun x y => x.2 < y.2 := by
    have hsnd : (defaultStaticPatterns.zipIdx.map Prod.snd).Pairwise (· < ·) := by
      rw [List.zipIdx_map_snd]
      exact List.pairwise_lt_range'
    exact (List.pairwise_map.mp hsnd).filter _
  have hsorts : ((presentPatterns probe repo svc).insertionSort (ColdFirst query)).map (·.suffix) =
      staticOrder probe repo query svc ↔
      (numberedPatterns probe repo svc).insertionSort (NumberedColdFirst query) =
        (numberedPatterns probe repo svc).insertionSort (StaticFirst query) := by
    rw [hcold, staticOrder_eq, List.map_map]
    refine ⟨fun h => eq_of_map_eq (fun x hx y hy heq => ?_) h, fun h => by rw [h]; rfl⟩
    exact suffix_inj ((List.mem_insertionSort _).mp hx) ((List.mem_insertionSort _).mp hy) heq
  rw [hsorts, List.insertionSort_eq_iff hids hplaces (numberedPatterns_nodup probe repo svc)]
  unfold OrdersAgree
  rw [← numberedPatterns_fst, List.pairwise_map]
  -- a tie of the texts goes to the place, and the earlier pattern has the smaller one
  have hstatic : ∀ x y : Pattern × ℕ, x.2 < y.2 →
      (StaticFirst query x y ↔ textHits query y.1 ≤ textHits query x.1) := by
    intro x y hlt
    unfold StaticFirst Descending
    dsimp only
    omega
  constructor
  · intro h
    exact (h.and horder).imp fun {x y} hxy => hxy.1.trans (hstatic x y hxy.2)
  · intro h
    exact (h.and horder).imp fun {x y} hxy => hxy.1.trans (hstatic x y hxy.2).symm

/-- What a cold decision hands out for a service, cut at the budget. -/
theorem coldSuffixes_eq {services : List String} {svc : String} (hsvc : svc ∈ services) (probe : Probe) (rng : Rng)
    (repo query : String) (k : ℤ) :
    coldSuffixes probe rng repo query services k svc =
      (((rankByScore (scoredPool coldStore (some probe) repo
        (fun p => learnedAffinity coldStore (queryKeywords query) p + staticAffinity (queryKeywords query) p)
        (candidatePool services defaultStaticPatterns))).take k.toNat).filter
          fun c => decide (c.service = svc)).map (·.pattern.suffix) := by
  have hportfolio : (Learner.new 0).portfolio coldStore repo = defaultStaticPatterns := List.append_nil _
  unfold coldSuffixes
  rw [Learner.decide_of_epsilon le_rfl, hportfolio]
  by_cases hk : k ≤ 0
  · rw [if_pos (.inl hk), Int.toNat_of_nonpos hk]
    rfl
  · rw [if_neg (not_or.mpr ⟨hk, List.ne_nil_of_mem hsvc⟩)]

/-- **A cold start equals the static router**, for distinct services, exactly when the two orders agree on
every two patterns that a service has. -/
theorem cold_order_iff (probe : Probe) (rng : Rng) (repo query : String) {services : List String}
    (hnodup : services.Nodup) :
    OrdersAsStatic probe rng repo query services ↔
      ∀ svc ∈ services, OrdersAgree query (presentPatterns probe repo svc) := by
  refine forall₂_congr fun svc hsvc => ?_
  rw [← rankings_eq_iff]
  -- the whole ranking of the service, of which every budget hands out the first part
  have hwhole := congrArg (List.map (·.pattern.suffix)) (ranked_service hnodup hsvc probe repo query)
  rw [List.map_map] at hwhole
  have hlength : (staticOrder probe repo query svc).length =
      (((presentPatterns probe repo svc).insertionSort (ColdFirst query)).map (·.suffix)).length := by
    rw [staticOrder_eq, List.length_map, List.length_map, List.length_insertionSort, List.length_insertionSort,
      ← numberedPatterns_fst, List.length_map]
  set ranked := rankByScore (scoredPool coldStore (some probe) repo
    (fun p => learnedAffinity coldStore (queryKeywords query) p + staticAffinity (queryKeywords query) p)
    (candidatePool services defaultStaticPatterns)) with hranked
  constructor
  · intro h
    have hall := h (ranked.length + 1)
    rw [coldSuffixes_eq hsvc, ← hranked, List.take_of_length_le (by omega), hwhole] at hall
    exact hall.eq_of_length hlength.symm
  · intro h k
    rw [coldSuffixes_eq hsvc, ← hranked, ← h]
    refine List.IsPrefix.trans (((List.take_prefix k.toNat ranked).filter _).map _) ?_
    rw [hwhole]
    exact List.prefix_rfl

/-- Two files, and a query with two words for the second of them. -/
theorem flaskApp_order :
    let probe : Probe := fun _ path => decide (path = "oscar/main.go" ∨ path = "oscar/app.py")
    OrdersAsStatic probe drawSecond "goserving" "flask app of oscar" ["oscar"] := by
  intro probe
  refine (cold_order_iff probe drawSecond "goserving" "flask app of oscar" (List.nodup_singleton "oscar")).mpr ?_
  intro svc hsvc
  obtain rfl := List.mem_singleton.mp hsvc
  decide +kernel

/-- Nothing of the query is a keyword: the static router starts with `main.go`, the cold learner with the
smallest id. -/
theorem plainQuery_disordered :
    coldSuffixes (fun _ _ => true) drawSecond "goserving" "oscar" ["oscar"] 1 "oscar" = ["app.js"] ∧
      (staticOrder (fun _ _ => true) "goserving" "oscar" "oscar").head? = some "main.go" ∧
        ¬ OrdersAsStatic (fun _ _ => true) drawSecond "goserving" "oscar" ["oscar"] := by
  have hcold : coldSuffixes (fun _ _ => true) drawSecond "goserving" "oscar" ["oscar"] 1 "oscar" = ["app.js"] := by
    decide +kernel
  have hstatic : (staticOrder (fun _ _ => true) "goserving" "oscar" "oscar").head? = some "main.go" := by
    decide +kernel
  refine ⟨hcold, hstatic, fun h => ?_⟩
  have hprefix := h "oscar" (List.mem_singleton_self _) 1
  rw [hcold] at hprefix
  obtain ⟨rest, hrest⟩ := hprefix
  rw [← hrest, List.singleton_append, List.head?_cons, Option.some_inj] at hstatic
  exact absurd hstatic (by decide)

end Devrouter.Anchorlearn
