import Devrouter.Lib.Directions
import Devrouter.Heuristics.Registry

/-!
# The centroids of the topics

Runs of `Resolve` in one process, in exact real arithmetic, with the members of the topics kept beside the server: the
normalised embeddings that a topic was started with and has absorbed since.

A centroid is supposed to be the direction of the sum of the members (`Directed`). `mergeCentroid` weights the centroid
so far with the number of samples, but it has been normalised and is shorter than the mean of the members as soon as
two of them differ. `merge_eq_iff` says when this is harmless, `centroid_directed_iff` is the run.
-/

namespace Devrouter

open Directions NormedSpace

/-! ### Vectors -/

section Vectors

variable {d : ℕ} {l l' : List ℝ}

theorem length_normalise (l : List ℝ) : (normalise Real.sqrt l).length = l.length := by
  unfold normalise
  split_ifs
  · rfl
  · dsimp only
    split_ifs
    · rfl
    · exact List.length_map _

theorem euclid_normalise (hl : l.length = d) : euclid d (normalise Real.sqrt l) = normalize (euclid d l) := by
  unfold normalise
  split_ifs with hempty
  · obtain rfl := List.isEmpty_iff.mp hempty
    have hzero : euclid d [] = 0 := by
      ext i
      rfl
    rw [hzero, normalize_zero_eq_zero]
  · dsimp only
    rw [← norm_euclid hl]
    split_ifs with hn
    · rw [norm_eq_zero.mp hn, normalize_zero_eq_zero]
    · ext i
      rw [euclid_map hl, NormedSpace.normalize, PiLp.smul_apply, smul_eq_mul, one_div, mul_comm]

theorem normalise_normalise (l : List ℝ) : normalise Real.sqrt (normalise Real.sqrt l) = normalise Real.sqrt l := by
  have hl : (normalise Real.sqrt l).length = l.length := length_normalise l
  refine (euclid_inj ((length_normalise _).trans hl) hl).mp ?_
  rw [euclid_normalise hl, euclid_normalise rfl, normalize_normalize]

theorem euclid_mergeCentroid (hl : l.length = d) (hl' : l'.length = d) {n : ℤ} (hn : 1 ≤ n) :
    euclid d (mergeCentroid Real.sqrt l l' n) = normalize ((n : ℝ) • euclid d l + euclid d l') := by
  have hlen : ¬ l.length ≠ l'.length := not_not.mpr (hl.trans hl'.symm)
  have hpos : (0 : ℝ) < (n : ℝ) + 1 := by
    have hcast : (1 : ℝ) ≤ (n : ℝ) := by exact_mod_cast hn
    linarith
  unfold mergeCentroid
  rw [if_neg hlen, if_neg (not_lt.mpr hn)]
  have hzip : (List.zipWith (fun o s => (o * (n : ℝ) + s) / ((n : ℝ) + 1)) l l').length = d := by
    rw [List.length_zipWith, hl, hl', min_self]
  have hmean : euclid d (List.zipWith (fun o s => (o * (n : ℝ) + s) / ((n : ℝ) + 1)) l l') =
      ((n : ℝ) + 1)⁻¹ • ((n : ℝ) • euclid d l + euclid d l') := by
    ext i
    rw [euclid_zipWith hl hl', PiLp.smul_apply, PiLp.add_apply, PiLp.smul_apply, smul_eq_mul, smul_eq_mul,
      div_eq_inv_mul, mul_comm (euclid d l i)]
  dsimp only
  rw [euclid_normalise hzip, hmean, normalize_smul_of_pos (inv_pos.mpr hpos)]

end Vectors

/-! ### Members -/

/-- A normalised embedding. -/
structure UnitVec (d : ℕ) (m : List ℝ) : Prop where
  length : m.length = d
  unit : normalise Real.sqrt m = m

/-- No running sum of the members is zero. -/
def NoZeroSum (d : ℕ) (ms : List (List ℝ)) : Prop :=
  ∀ ms', ms' ≠ [] → ms' <+: ms → sumVec d ms' ≠ List.replicate d 0

/-- The members are all the same, or the next one lies on the line of their sum and does not turn it around. -/
def Neutral (d : ℕ) (ms : List (List ℝ)) (u : List ℝ) : Prop :=
  (∃ m, ∀ m' ∈ ms, m' = m) ∨ ∃ a : ℝ, u = (sumVec d ms).map (a * ·) ∧ 0 < 1 + a

section Members

variable {d : ℕ} {ms : List (List ℝ)} {u : List ℝ}

theorem UnitVec.normalise {l : List ℝ} (hl : l.length = d) : UnitVec d (normalise Real.sqrt l) :=
  ⟨(length_normalise l).trans hl, normalise_normalise l⟩

theorem UnitVec.normalize_euclid (h : UnitVec d u) : normalize (euclid d u) = euclid d u := by
  rw [← euclid_normalise h.length, h.unit]

/-- A normalised embedding has norm one, unless it is zero. -/
theorem UnitVec.norm_eq (h : UnitVec d u) (hne : euclid d u ≠ 0) : ‖euclid d u‖ = 1 := by
  rw [← h.normalize_euclid]
  exact norm_normalize hne

theorem UnitVec.norm_le (h : UnitVec d u) : ‖euclid d u‖ ≤ 1 := by
  by_cases hzero : euclid d u = 0
  · rw [hzero, norm_zero]
    exact zero_le_one
  · exact (h.norm_eq hzero).le

theorem sumVec_singleton (hu : u.length = d) : sumVec d [u] = u := by
  refine (euclid_inj (length_sumVec _) hu).mp ?_
  rw [euclid_sumVec, List.map_singleton, List.sum_singleton]

theorem euclid_sumVec_append (ms : List (List ℝ)) (u : List ℝ) :
    euclid d (sumVec d (ms ++ [u])) = euclid d (sumVec d ms) + euclid d u := by
  rw [euclid_sumVec, euclid_sumVec, List.map_append, List.sum_append, List.map_singleton, List.sum_singleton]

theorem NoZeroSum.ne_zero (h : NoZeroSum d ms) (hne : ms ≠ []) : euclid d (sumVec d ms) ≠ 0 := by
  intro hzero
  refine h ms hne List.prefix_rfl ((euclid_inj (length_sumVec ms) List.length_replicate).mp ?_)
  rw [hzero]
  ext i
  simp

theorem getD_map_sumVec {i : ℕ} (hi : i < d) (f : ℝ → ℝ) (ms : List (List ℝ)) :
    ((sumVec d ms).map f).getD i 0 = f (ms.map fun m => m.getD i 0).sum := by
  simp [sumVec, hi]

/-- Members on one side of a plane have no running sum that is zero. -/
theorem noZeroSum_of_pos (hd : 0 < d) (h : ∀ m ∈ ms, 0 < m.getD 0 0) : NoZeroSum d ms := by
  intro ms' hne hpre hzero
  have hcoord : (ms'.map fun m => m.getD 0 0).sum = 0 := by
    have hget := getD_map_sumVec hd id ms'
    rw [List.map_id, hzero] at hget
    rw [← id_eq (ms'.map fun m => m.getD 0 0).sum, ← hget]
    simp
  have hpos : 0 < (ms'.map fun m => m.getD 0 0).sum := by
    refine List.sum_pos _ (fun x hx => ?_) (by simpa using hne)
    obtain ⟨m, hm, rfl⟩ := List.mem_map.mp hx
    exact h m (hpre.subset hm)
  exact absurd hcoord hpos.ne'

theorem NoZeroSum.of_append (h : NoZeroSum d (ms ++ [u])) : NoZeroSum d ms :=
  fun ms' hne hpre => h ms' hne (hpre.trans (List.prefix_append ms [u]))

theorem norm_le_of_mem (hms : ∀ m ∈ ms, UnitVec d m) : ∀ v ∈ ms.map (euclid d), ‖v‖ ≤ 1 := by
  intro v hv
  obtain ⟨m, hm, rfl⟩ := List.mem_map.mp hv
  exact (hms m hm).norm_le

/-- The members have a sum of full length exactly when they are all the same. -/
theorem norm_sumVec_eq_iff (hms : ∀ m ∈ ms, UnitVec d m) (hne : euclid d (sumVec d ms) ≠ 0) :
    ‖euclid d (sumVec d ms)‖ = ms.length ↔ ∃ m, ∀ m' ∈ ms, m' = m := by
  rw [euclid_sumVec] at hne ⊢
  have hiff := norm_sum_eq_length_iff (norm_le_of_mem hms) hne
  rw [List.length_map] at hiff
  rw [hiff]
  -- a first member to compare with
  obtain ⟨first, rest, rfl⟩ : ∃ m rest, ms = m :: rest := by
    cases ms with
    | nil => exact absurd rfl hne
    | cons m rest => exact ⟨m, rest, rfl⟩
  have hfirst := List.mem_cons_self (a := first) (l := rest)
  constructor
  · rintro ⟨v, -, hall⟩
    refine ⟨first, fun m' hm' => (euclid_inj (hms m' hm').length (hms first hfirst).length).mp ?_⟩
    rw [hall _ (List.mem_map_of_mem hm'), hall _ (List.mem_map_of_mem hfirst)]
  · rintro ⟨m, hall⟩
    obtain rfl := hall first hfirst
    have hall' : ∀ v ∈ (first :: rest).map (euclid d), v = euclid d first := by
      intro v hv
      obtain ⟨m', hm', rfl⟩ := List.mem_map.mp hv
      rw [hall m' hm']
    refine ⟨euclid d first, (hms first hfirst).norm_eq fun hzero => hne ?_, hall'⟩
    rw [List.eq_replicate_of_mem hall', hzero, List.sum_replicate, smul_zero]

theorem UnitVec.mergeCentroid {l l' : List ℝ} (hl : l.length = d) (hl' : l'.length = d) {n : ℤ} :
    UnitVec d (mergeCentroid Real.sqrt l l' n) := by
  unfold Devrouter.mergeCentroid
  rw [if_neg (not_not.mpr (hl.trans hl'.symm))]
  dsimp only
  refine .normalise ?_
  rw [List.length_zipWith, hl, hl', min_self]

/-- **One merge.** The centroid that is the direction of the sum stays so exactly when the next member is neutral. -/
theorem merge_eq_iff (hms : ∀ m ∈ ms, UnitVec d m) (hne : ms ≠ []) (hu : UnitVec d u)
    (hsums : NoZeroSum d (ms ++ [u])) :
    mergeCentroid Real.sqrt (normalise Real.sqrt (sumVec d ms)) u ms.length =
      normalise Real.sqrt (sumVec d (ms ++ [u])) ↔ Neutral d ms u := by
  set S := euclid d (sumVec d ms) with hS
  have hSne : S ≠ 0 := hsums.of_append.ne_zero hne
  have hSpos : 0 < ‖S‖ := norm_pos_iff.mpr hSne
  have hsum : S + euclid d u ≠ 0 := by
    rw [hS, ← euclid_sumVec_append]
    exact hsums.ne_zero (List.append_ne_nil_of_right_ne_nil _ (List.cons_ne_nil u []))
  have hlen : 1 ≤ ms.length := List.length_pos_iff.mpr hne
  have hSle : ‖S‖ ≤ ms.length := by
    have hsum := norm_sum_le (norm_le_of_mem hms)
    rwa [← euclid_sumVec, List.length_map] at hsum
  -- the samples weight the sum so far by `r`
  set r : ℝ := ms.length / ‖S‖ with hr
  have hone : 1 ≤ r := (one_le_div hSpos).mpr hSle
  have hweight : (ms.length : ℝ) • normalize S = r • S := by
    rw [NormedSpace.normalize, smul_smul, hr, div_eq_mul_inv]
  have hnorm : ‖euclid d u‖ ≤ r * ‖S‖ := by
    rw [hr, div_mul_cancel₀ _ hSpos.ne']
    exact hu.norm_le.trans (by exact_mod_cast hlen)
  have hcentroid : (normalise Real.sqrt (sumVec d ms)).length = d := (length_normalise _).trans (length_sumVec ms)
  have hmerge : UnitVec d (mergeCentroid Real.sqrt (normalise Real.sqrt (sumVec d ms)) u ms.length) :=
    .mergeCentroid hcentroid hu.length
  rw [← euclid_inj hmerge.length ((length_normalise _).trans (length_sumVec _)),
    euclid_mergeCentroid hcentroid hu.length (by exact_mod_cast hlen), euclid_normalise (length_sumVec _),
    euclid_normalise (length_sumVec _), euclid_sumVec_append, ← hS, Int.cast_natCast, hweight,
    normalize_smul_add_eq_iff hone hnorm hsum]
  refine or_congr ?_ (exists_congr fun a => and_congr_left' ?_)
  · rw [← norm_sumVec_eq_iff hms hSne, hr, div_eq_one_iff_eq hSpos.ne', eq_comm]
  · rw [← euclid_inj hu.length ((List.length_map _).trans (length_sumVec ms))]
    have hmap : euclid d ((sumVec d ms).map (a * ·)) = a • S := by
      ext i
      rw [euclid_map (length_sumVec ms), PiLp.smul_apply, smul_eq_mul]
    rw [hmap]

end Members

/-! ### Runs -/

/-- The topic a call is absorbed into, as it is loaded. -/
noncomputable def TopicQuery.absorber (cfg : Tunables) (c : TopicQuery ℝ) (r : Redis ℝ) : Option (TopicEntry ℝ) :=
  absorbedBy cfg (c.unit Real.sqrt) (r.topicEntries Real.sqrt c.sh c.intent (normaliseRepo c.repo))

/-- The server, and the members of the topics that were started in the run. -/
structure Clustered where
  redis : Redis ℝ
  members : String → String → Option (List (List ℝ))

namespace Clustered

variable (cfg : Tunables)

/-- A server with some registries, none of whose topics is followed. -/
def start (r : Redis ℝ) : Clustered := ⟨r, fun _ _ => none⟩

/-- The members after a call: of the topic that absorbs it, or of the one it starts. -/
noncomputable def joined (s : Clustered) (c : TopicQuery ℝ) : Option (List (List ℝ)) :=
  match c.absorber cfg s.redis with
  | some old => (s.members c.key old.id).map (· ++ [c.unit Real.sqrt])
  | none => some [c.unit Real.sqrt]

noncomputable def next (s : Clustered) (c : TopicQuery ℝ) : Clustered where
  redis := c.next Real.sqrt cfg s.redis
  members :=
    if cfg.topicsEnabled then
      Function.update s.members c.key
        (Function.update (s.members c.key) (c.written Real.sqrt cfg s.redis).id (s.joined cfg c))
    else s.members

noncomputable def machine : Machine Clustered (TopicQuery ℝ) where
  step s c := some (s.next cfg c)

/-- The centroid of a topic that is followed is the direction of the sum of its members, unless a running sum is
zero. -/
def Directed (s : Clustered) : Prop :=
  ∀ key e ms, (s.redis.topics key).Stored e → s.members key e.id = some ms →
    NoZeroSum topicEmbedFloatsExpected ms → e.centroid = normalise Real.sqrt (sumVec topicEmbedFloatsExpected ms)

/-- A call that is absorbed is neutral to the members of the topic. -/
def Harmless (s : Clustered) (c : TopicQuery ℝ) : Prop :=
  cfg.topicsEnabled = true → ∀ old ms, c.absorber cfg s.redis = some old → s.members c.key old.id = some ms →
    NoZeroSum topicEmbedFloatsExpected (ms ++ [c.unit Real.sqrt]) →
    Neutral topicEmbedFloatsExpected ms (c.unit Real.sqrt)

/-- What is known of a topic and its members, whatever the members are. -/
structure Follows (e : TopicEntry ℝ) (ms : List (List ℝ)) : Prop where
  samples : e.samples = ms.length
  nonempty : ms ≠ []
  members : ∀ m ∈ ms, UnitVec topicEmbedFloatsExpected m
  centroid : UnitVec topicEmbedFloatsExpected e.centroid

/-- The registries are well formed, and their topics follow the calls. -/
structure Sound (s : Clustered) : Prop where
  wellFormed : ∀ key, (s.redis.topics key).WellFormed
  follows : ∀ key e ms, (s.redis.topics key).Stored e → s.members key e.id = some ms → Follows e ms

variable {cfg} {s : Clustered} {c : TopicQuery ℝ}

theorem Sound.start {r : Redis ℝ} (h : ∀ key, (r.topics key).WellFormed) : (start r).Sound :=
  ⟨h, fun _ _ _ _ hms => nomatch hms⟩

theorem unitVec_unit (c : TopicQuery ℝ) : UnitVec topicEmbedFloatsExpected (c.unit Real.sqrt) := .normalise c.dim

/-- The topic that absorbs a call is stored. -/
theorem stored_of_absorber (h : s.Sound) {old : TopicEntry ℝ} (hold : c.absorber cfg s.redis = some old) :
    ∃ e, (s.redis.topics c.key).Stored e ∧ old = e.loaded Real.sqrt :=
  (mem_topicEntries Real.sqrt c.sh (h.wellFormed c.key)).mp (absorbedBy_some hold).1

theorem written_absorb {old : TopicEntry ℝ} (h : c.absorber cfg s.redis = some old) :
    c.written Real.sqrt cfg s.redis = old.absorb Real.sqrt (c.unit Real.sqrt) c.queryText c.now :=
  resolveEntry_absorb Real.sqrt h c.queryText c.now

theorem written_fresh (h : c.absorber cfg s.redis = none) : ∃ id,
    c.written Real.sqrt cfg s.redis = .fresh (c.unit Real.sqrt) c.queryText c.now id :=
  ⟨_, resolveEntry_fresh Real.sqrt h c.queryText c.now⟩

/-- **What is written** follows the members that are joined; and where the centroids were the directions of the sums,
it is so again exactly when the call is harmless. -/
theorem joined_spec (h : s.Sound) {ms : List (List ℝ)} (hms : s.joined cfg c = some ms) :
    Follows (c.written Real.sqrt cfg s.redis) ms ∧
      (s.Directed → NoZeroSum topicEmbedFloatsExpected ms →
        ((c.written Real.sqrt cfg s.redis).centroid = normalise Real.sqrt (sumVec topicEmbedFloatsExpected ms) ↔
          ∀ old ms', c.absorber cfg s.redis = some old → s.members c.key old.id = some ms' →
            Neutral topicEmbedFloatsExpected ms' (c.unit Real.sqrt))) := by
  have hunit := unitVec_unit c
  unfold joined at hms
  cases hold : c.absorber cfg s.redis with
  | none =>
    -- nothing absorbs the query, and a new topic starts at its unit vector
    rw [hold] at hms
    obtain rfl := Option.some.inj hms
    obtain ⟨id, hid⟩ := written_fresh hold
    rw [hid]
    refine ⟨⟨rfl, List.cons_ne_nil _ _, fun m hm => ?_, hunit⟩, fun _ _ => ⟨fun _ => nofun, fun _ => ?_⟩⟩
    · obtain rfl := List.mem_singleton.mp hm
      exact hunit
    · rw [sumVec_singleton hunit.length]
      exact hunit.unit.symm
  | some old =>
    rw [hold] at hms
    obtain ⟨ms', hms', rfl⟩ := Option.map_eq_some_iff.mp hms
    -- the topic that absorbs it is stored, so its members are known
    obtain ⟨e, he, rfl⟩ := stored_of_absorber h hold
    have hfollows := h.follows c.key e ms' he hms'
    have hcentroid : (e.loaded Real.sqrt).centroid = e.centroid := hfollows.centroid.unit
    rw [written_absorb hold]
    have hmerged : ((e.loaded Real.sqrt).absorb Real.sqrt (c.unit Real.sqrt) c.queryText c.now).centroid =
        -- the merge starts from the stored centroid and counts the members so far
        mergeCentroid Real.sqrt e.centroid (c.unit Real.sqrt) ms'.length := by
      show mergeCentroid Real.sqrt (e.loaded Real.sqrt).centroid (c.unit Real.sqrt) e.samples = _
      rw [hcentroid, hfollows.samples]
    have hne : ms' ++ [c.unit Real.sqrt] ≠ [] := List.append_ne_nil_of_right_ne_nil _ (List.cons_ne_nil _ _)
    refine ⟨⟨?_, hne, fun m hm => ?_, ?_⟩, fun hdir hsums => ?_⟩
    · show e.samples + 1 = _
      rw [hfollows.samples, List.length_append, List.length_singleton, Nat.cast_add, Nat.cast_one]
    · rcases List.mem_append.mp hm with hm | hm
      · exact hfollows.members m hm
      · obtain rfl := List.mem_singleton.mp hm
        exact hunit
    · rw [hmerged]
      exact .mergeCentroid hfollows.centroid.length hunit.length
    · -- by `merge_eq_iff` the new centroid is the members' direction where the old one is neutral
      rw [hmerged, hdir c.key e ms' he hms' hsums.of_append,
        merge_eq_iff hfollows.members hfollows.nonempty hunit hsums]
      constructor
      · intro hneutral old' ms'' hold' hms''
        obtain rfl := Option.some.inj hold'
        obtain rfl := Option.some.inj (hms'.symm.trans hms'')
        exact hneutral
      · exact fun hneutral => hneutral _ ms' rfl hms'

theorem next_off (hoff : cfg.topicsEnabled = false) : s.next cfg c = s := by
  have hredis : c.next Real.sqrt cfg s.redis = s.redis := congrArg Prod.snd (c.run_off Real.sqrt hoff s.redis)
  unfold next
  rw [hredis, hoff]
  rfl

/-- A topic after a call is the one that was written, with the members that joined, or an old one. -/
theorem next_on (hon : cfg.topicsEnabled = true) {key : String} {e : TopicEntry ℝ} {ms : List (List ℝ)} :
    ((s.next cfg c).redis.topics key).Stored e ∧ (s.next cfg c).members key e.id = some ms ↔
      (key = c.key ∧ e = c.written Real.sqrt cfg s.redis ∧ s.joined cfg c = some ms) ∨
      (¬ (key = c.key ∧ e.id = (c.written Real.sqrt cfg s.redis).id) ∧
        (s.redis.topics key).Stored e ∧ s.members key e.id = some ms) := by
  have hredis : (s.next cfg c).redis = s.redis.setTopic c.key (c.written Real.sqrt cfg s.redis) :=
    congrArg Prod.snd (c.run_on Real.sqrt hon s.redis)
  have hmembers : (s.next cfg c).members = Function.update s.members c.key
      (Function.update (s.members c.key) (c.written Real.sqrt cfg s.redis).id (s.joined cfg c)) := if_pos hon
  rw [hredis, hmembers]
  generalize c.written Real.sqrt cfg s.redis = w
  by_cases hkey : key = c.key
  · -- within this hash one entry is written, and the others stay
    subst hkey
    rw [Redis.setTopic_topics_self, Function.update_self]
    unfold TopicHash.Stored
    by_cases hid : e.id = w.id
    · rw [hid, AList.lookup_insert, Function.update_self, Option.some.injEq, Option.some.injEq]
      constructor
      · rintro ⟨rfl, hjoined⟩
        exact .inl ⟨rfl, rfl, hjoined⟩
      · rintro (⟨-, rfl, hjoined⟩ | ⟨hne, -⟩)
        · exact ⟨rfl, hjoined⟩
        · exact absurd ⟨rfl, rfl⟩ hne
    · rw [AList.lookup_insert_ne hid, Function.update_of_ne hid]
      constructor
      · exact fun h => .inr ⟨fun heq => hid heq.2, h⟩
      · rintro (⟨-, rfl, -⟩ | ⟨-, h⟩)
        · exact absurd rfl hid
        · exact h
  · -- another hash is not written
    rw [Redis.setTopic_topics_ne _ hkey, Function.update_of_ne hkey]
    constructor
    · exact fun h => .inr ⟨fun heq => hkey heq.1, h⟩
    · rintro (⟨heq, -⟩ | ⟨-, h⟩)
      · exact absurd heq hkey
      · exact h

/-- **One call** keeps the registries sound; it keeps the centroids directed exactly when it is harmless. -/
theorem Sound.next (h : s.Sound) (hdir : s.Directed) (cfg : Tunables) (c : TopicQuery ℝ) :
    (s.next cfg c).Sound ∧ ((s.next cfg c).Directed ↔ s.Harmless cfg c) := by
  cases hon : cfg.topicsEnabled with
  | false =>
    rw [next_off hon]
    exact ⟨h, fun _ hon' => absurd (hon.symm.trans hon') (by decide), fun _ => hdir⟩
  | true =>
    refine ⟨⟨fun key => ?_, fun key e ms he hms => ?_⟩, fun hdir' _ old ms hold hms hsums => ?_,
      fun hharmless key e ms he hms hsums => ?_⟩
    · have hredis : (s.next cfg c).redis = s.redis.setTopic c.key (c.written Real.sqrt cfg s.redis) :=
        congrArg Prod.snd (c.run_on Real.sqrt hon s.redis)
      rw [hredis]
      by_cases hkey : key = c.key
      · subst hkey
        rw [Redis.setTopic_topics_self]
        exact (h.wellFormed _).insert _
      · rw [Redis.setTopic_topics_ne _ hkey]
        exact h.wellFormed key
    · rcases (next_on hon).mp ⟨he, hms⟩ with ⟨-, rfl, hjoined⟩ | ⟨-, he, hms⟩
      · exact (joined_spec h hjoined).1
      · exact h.follows key e ms he hms
    · -- the topic that absorbs the call is directed again
      have hjoined : s.joined cfg c = some (ms ++ [c.unit Real.sqrt]) := by
        unfold joined
        rw [hold]
        dsimp only
        rw [hms]
        rfl
      obtain ⟨hstored, hmembers⟩ : ((s.next cfg c).redis.topics c.key).Stored (c.written Real.sqrt cfg s.redis) ∧
          (s.next cfg c).members c.key (c.written Real.sqrt cfg s.redis).id = some (ms ++ [c.unit Real.sqrt]) :=
        (next_on hon).mpr (.inl ⟨rfl, rfl, hjoined⟩)
      have hcentroid := hdir' c.key _ _ hstored hmembers hsums
      exact ((joined_spec h hjoined).2 hdir hsums).mp hcentroid old ms hold hms
    · rcases (next_on hon).mp ⟨he, hms⟩ with ⟨-, rfl, hjoined⟩ | ⟨-, he, hms⟩
      · refine ((joined_spec h hjoined).2 hdir hsums).mpr fun old ms' hold hms' => ?_
        refine hharmless hon old ms' hold hms' ?_
        unfold joined at hjoined
        rw [hold] at hjoined
        dsimp only at hjoined
        rw [hms'] at hjoined
        obtain rfl : ms' ++ [c.unit Real.sqrt] = ms := Option.some.inj hjoined
        exact hsums
      · exact hdir key e ms he hms hsums

end Clustered

/-- **The centroids.** In every run of calls, on a server with well-formed registries: in every state that the run
reaches, the centroid of each topic that was started in the run is the direction of the sum of its members, exactly when
every call of the run is harmless. -/
theorem centroid_directed_iff (cfg : Tunables) {r : Redis ℝ} (hwf : ∀ key, (r.topics key).WellFormed)
    (calls : List (TopicQuery ℝ)) :
    (∀ before after s, calls = before ++ after →
      (Clustered.machine cfg).exec (.start r) before = some s → s.Directed) ↔
      (Clustered.machine cfg).Along (Clustered.Harmless cfg) (.start r) calls := by
  refine (Machine.along_iff_reached (J := Clustered.Sound) ?_ (fun s c => ⟨_, rfl⟩) (.start hwf) ?_ calls).symm
  · rintro s c s' hsound hdir hstep
    obtain rfl := Option.some.inj hstep
    exact hsound.next hdir cfg c
  · exact fun _ _ _ _ hms => nomatch hms

/-- A vector of the first two axes, of dimension `n + 2`. -/
def plane (n : ℕ) (a b : ℝ) : List ℝ := a :: b :: List.replicate n 0

noncomputable def planeQuery (a b : ℝ) : TopicQuery ℝ where
  intent := .debug
  repo := "r"
  embed := plane 766 a b
  dim := by
    rw [plane, List.length_cons, List.length_cons, List.length_replicate]
    rfl
  queryText := ""
  sh := Shuffle.id _
  now := 0

/-- One query on an empty server. -/
theorem centroid_directed_once :
    (Clustered.machine .default).Along (Clustered.Harmless .default) (.start (Redis.empty ℝ)) [planeQuery 1 0] ∧
      ∀ before after s, [planeQuery 1 0] = before ++ after →
        (Clustered.machine .default).exec (.start (Redis.empty ℝ)) before = some s → s.Directed := by
  have halong : (Clustered.machine .default).Along (Clustered.Harmless .default) (.start (Redis.empty ℝ))
      [planeQuery 1 0] := ⟨fun _ _ _ _ hms => (nomatch hms), fun _ _ => trivial⟩
  exact ⟨halong, (centroid_directed_iff .default (fun _ => TopicHash.WellFormed.empty) [planeQuery 1 0]).mpr halong⟩

/-! ### Three queries -/

section Plane

variable {n : ℕ} {a b : ℝ}

theorem dot_plane (a' b' : ℝ) : dot (plane n a b) (plane n a' b') = a * a' + b * b' := by
  simp [dot, plane]

theorem normalise_plane (h : a * a + b * b = 1) : normalise Real.sqrt (plane n a b) = plane n a b := by
  have hsum : ((plane n a b).map fun x => x * x).sum = 1 := by simp [plane, h]
  unfold normalise
  rw [hsum, Real.sqrt_one]
  simp [plane]

/-- Two members on either side of an axis. -/
theorem mergeCentroid_plane (ha : 0 < a) :
    mergeCentroid Real.sqrt (plane n a b) (plane n a (-b)) 1 = plane n 1 0 := by
  have hmean : List.zipWith (fun o s => (o * (1 : ℝ) + s) / ((1 : ℝ) + 1)) (plane n a b) (plane n a (-b)) =
      plane n a 0 := by
    have hhalf : (a + a) / (1 + 1) = a := by ring
    simp [plane, hhalf]
  have hsum : ((plane n a 0).map fun x => x * x).sum = a * a := by simp [plane]
  have hlen : ¬ (plane n a b).length ≠ (plane n a (-b)).length := by simp [plane]
  unfold mergeCentroid
  rw [if_neg hlen, if_neg (by decide)]
  simp only [Int.cast_one]
  rw [hmean]
  unfold normalise
  rw [hsum, Real.sqrt_mul_self ha.le]
  simp [plane, ha.ne']

end Plane

/-- What a call finds on a server whose registry is one topic. -/
theorem absorber_single {cfg : Tunables} {c : TopicQuery ℝ} {r : Redis ℝ} {e : TopicEntry ℝ}
    (hr : r.topics c.key = (∅ : TopicHash ℝ).insert e.id (some e)) (hsh : c.sh = Shuffle.id _)
    (hid : e.id ≠ "") (hcentroid : normalise Real.sqrt e.centroid = e.centroid)
    (hnear : (cfg.newTopicSim : ℝ) ≤ dot (c.unit Real.sqrt) e.centroid)
    (hpos : -1 < dot (c.unit Real.sqrt) e.centroid) : c.absorber cfg r = some e := by
  have hloaded : TopicField.entry Real.sqrt ⟨e.id, some e⟩ = some e := by
    unfold TopicField.entry
    simp only [Option.map_some, hcentroid, if_neg hid]
  have hentries : r.topicEntries Real.sqrt c.sh c.intent (normaliseRepo c.repo) = [e] := by
    unfold Redis.topicEntries
    rw [hsh, show r.topics (topicsKey c.intent (normaliseRepo c.repo)) = _ from hr, AList.entries_insert]
    show [(⟨e.id, some e⟩ : TopicField ℝ)].filterMap (TopicField.entry Real.sqrt) = [e]
    rw [List.filterMap_cons_some hloaded, List.filterMap_nil]
  unfold TopicQuery.absorber absorbedBy
  rw [hentries]
  have hnearest : nearest (c.unit Real.sqrt) [e] = (some e, dot (c.unit Real.sqrt) e.centroid) := if_pos hpos
  rw [hnearest, Option.filter_some, if_pos (decide_eq_true hnear)]

/-- The registry is one topic, with these members. -/
structure Alone (key : String) (s : Clustered) (e : TopicEntry ℝ) (ms : List (List ℝ)) : Prop where
  topics : s.redis.topics key = (∅ : TopicHash ℝ).insert e.id (some e)
  members : s.members key e.id = some ms
  id : e.id ≠ ""

section Alone

variable {cfg : Tunables} {s : Clustered} {c : TopicQuery ℝ} {e : TopicEntry ℝ} {ms : List (List ℝ)}

theorem Alone.write (hon : cfg.topicsEnabled = true) (hw : c.written Real.sqrt cfg s.redis = e)
    (htopics : (s.redis.topics c.key).insert e.id (some e) = (∅ : TopicHash ℝ).insert e.id (some e))
    (hjoined : s.joined cfg c = some ms) (hid : e.id ≠ "") : Alone c.key (s.next cfg c) e ms := by
  have hredis : (s.next cfg c).redis = s.redis.setTopic c.key e := by
    rw [← hw]
    exact congrArg Prod.snd (c.run_on Real.sqrt hon s.redis)
  refine ⟨?_, ?_, hid⟩
  · rw [hredis, Redis.setTopic_topics_self, htopics]
  · have hmembers : (s.next cfg c).members = Function.update s.members c.key
        (Function.update (s.members c.key) (c.written Real.sqrt cfg s.redis).id (s.joined cfg c)) := if_pos hon
    rw [hmembers, hw, Function.update_self, Function.update_self, hjoined]

theorem Alone.absorber (h : Alone c.key s e ms) (hsh : c.sh = Shuffle.id _)
    (hcentroid : normalise Real.sqrt e.centroid = e.centroid)
    (hnear : (cfg.newTopicSim : ℝ) ≤ dot (c.unit Real.sqrt) e.centroid)
    (hpos : -1 < dot (c.unit Real.sqrt) e.centroid) : c.absorber cfg s.redis = some e :=
  absorber_single h.topics hsh h.id hcentroid hnear hpos

theorem Alone.absorb (h : Alone c.key s e ms) (hon : cfg.topicsEnabled = true)
    (habs : c.absorber cfg s.redis = some e) :
    Alone c.key (s.next cfg c) (e.absorb Real.sqrt (c.unit Real.sqrt) c.queryText c.now)
      (ms ++ [c.unit Real.sqrt]) := by
  refine .write hon (Clustered.written_absorb habs) ?_ ?_ h.id
  · rw [h.topics]
    show ((∅ : TopicHash ℝ).insert e.id (some e)).insert e.id _ = _
    exact AList.insert_insert _
  · unfold Clustered.joined
    rw [habs]
    dsimp only
    rw [h.members]
    rfl

theorem Alone.fresh (hs : s.redis.topics c.key = ∅) (hon : cfg.topicsEnabled = true) (hsh : c.sh = Shuffle.id _)
    (hcap : 0 < cfg.maxTopics) :
    c.absorber cfg s.redis = none ∧
      Alone c.key (s.next cfg c) (.fresh (c.unit Real.sqrt) c.queryText c.now "t-0") [c.unit Real.sqrt] := by
  have hentries : s.redis.topicEntries Real.sqrt c.sh c.intent (normaliseRepo c.repo) = [] := by
    unfold Redis.topicEntries
    -- the hash is empty, so no entry absorbs the query and the first slot is free
    rw [hsh, show s.redis.topics (topicsKey c.intent (normaliseRepo c.repo)) = _ from hs]
    rfl
  have habs : c.absorber cfg s.redis = none := by
    unfold TopicQuery.absorber
    rw [hentries]
    rfl
  have hfull : ¬ ([] : List (TopicEntry ℝ)).length ≥ cfg.maxTopics := not_le.mpr hcap
  have hslot : slot cfg ([] : List (TopicEntry ℝ)) = "t-0" := by
    unfold slot
    rw [if_neg hfull]
    rfl
  have hwritten : c.written Real.sqrt cfg s.redis =
      .fresh (c.unit Real.sqrt) c.queryText c.now "t-0" := by
    rw [← hslot, ← hentries]
    exact resolveEntry_fresh Real.sqrt habs c.queryText c.now
  have hjoined : s.joined cfg c = some [c.unit Real.sqrt] := by
    unfold Clustered.joined
    rw [habs]
  have hid : ("t-0" : String) ≠ "" := by decide
  exact ⟨habs, .write hon hwritten (by rw [hs]) hjoined hid⟩

end Alone

/-- **Three queries.** The first two lie on either side of an axis, and their centroid on it; the third is absorbed and
does not lie on it. -/
theorem third_query_turns :
    ∃ s, (Clustered.machine .default).exec (.start (Redis.empty ℝ))
        [planeQuery (12 / 13) (5 / 13), planeQuery (12 / 13) (-(5 / 13)), planeQuery (4 / 5) (3 / 5)] = some s ∧
      ¬ s.Directed := by
  set q₁ := planeQuery (12 / 13) (5 / 13) with hq₁
  set q₂ := planeQuery (12 / 13) (-(5 / 13)) with hq₂
  set q₃ := planeQuery (4 / 5) (3 / 5) with hq₃
  have hu₁ : q₁.unit Real.sqrt = plane 766 (12 / 13) (5 / 13) := normalise_plane (by norm_num)
  have hu₂ : q₂.unit Real.sqrt = plane 766 (12 / 13) (-(5 / 13)) := normalise_plane (by norm_num)
  have hu₃ : q₃.unit Real.sqrt = plane 766 (4 / 5) (3 / 5) := normalise_plane (by norm_num)
  have hsim : ((Tunables.default.newTopicSim : ℚ) : ℝ) = 65 / 100 := by
    norm_num [Tunables.default]
  set s₀ := Clustered.start (Redis.empty ℝ)
  set s₁ := s₀.next .default q₁
  set s₂ := s₁.next .default q₂
  have hsound₀ : s₀.Sound := .start fun _ => TopicHash.WellFormed.empty
  -- the first query starts the topic, the other two are absorbed
  set e₁ := TopicEntry.fresh (q₁.unit Real.sqrt) q₁.queryText q₁.now "t-0"
  obtain ⟨hnone, h₁⟩ : q₁.absorber .default s₀.redis = none ∧ Alone q₁.key s₁ e₁ [q₁.unit Real.sqrt] :=
    Alone.fresh rfl rfl rfl (by decide)
  have habs₂ : q₂.absorber .default s₁.redis = some e₁ := by
    refine Alone.absorber (c := q₂) h₁ rfl (Clustered.unitVec_unit q₁).unit ?_ ?_
    · show _ ≤ dot (q₂.unit Real.sqrt) (q₁.unit Real.sqrt)
      rw [hsim, hu₁, hu₂, dot_plane]
      norm_num
    · show _ < dot (q₂.unit Real.sqrt) (q₁.unit Real.sqrt)
      rw [hu₁, hu₂, dot_plane]
      norm_num
  set e₂ := e₁.absorb Real.sqrt (q₂.unit Real.sqrt) q₂.queryText q₂.now
  have h₂ : Alone q₂.key s₂ e₂ ([q₁.unit Real.sqrt] ++ [q₂.unit Real.sqrt]) := Alone.absorb (c := q₂) h₁ rfl habs₂
  have hcentroid : e₂.centroid = plane 766 1 0 := by
    show mergeCentroid Real.sqrt (q₁.unit Real.sqrt) (q₂.unit Real.sqrt) 1 = _
    rw [hu₁, hu₂]
    exact mergeCentroid_plane (by norm_num)
  have habs₃ : q₃.absorber .default s₂.redis = some e₂ := by
    refine Alone.absorber (c := q₃) h₂ rfl ?_ ?_ ?_
    · rw [hcentroid]
      exact normalise_plane (by norm_num)
    · rw [hsim, hu₃, hcentroid, dot_plane]
      norm_num
    · rw [hu₃, hcentroid, dot_plane]
      norm_num
  -- two members are harmless
  have hdir₀ : s₀.Directed := fun _ _ _ _ hms => nomatch hms
  obtain ⟨hsound₁, hdir₁⟩ := hsound₀.next hdir₀ .default q₁
  have hdir₁ : s₁.Directed := hdir₁.mpr fun _ old _ hold => nomatch hnone.symm.trans hold
  obtain ⟨hsound₂, hdir₂⟩ := hsound₁.next hdir₁ .default q₂
  have hdir₂ : s₂.Directed := by
    refine hdir₂.mpr fun _ old ms hold hms _ => .inl ⟨q₁.unit Real.sqrt, fun m' hm' => ?_⟩
    obtain rfl := Option.some.inj (habs₂.symm.trans hold)
    obtain rfl := Option.some.inj (h₁.members.symm.trans hms)
    exact List.mem_singleton.mp hm'
  refine ⟨s₂.next .default q₃, rfl, fun hdir => ?_⟩
  have hsums : NoZeroSum topicEmbedFloatsExpected
      ([q₁.unit Real.sqrt] ++ [q₂.unit Real.sqrt] ++ [q₃.unit Real.sqrt]) := by
    rw [hu₁, hu₂, hu₃]
    refine noZeroSum_of_pos (by decide) fun m hm => ?_
    rcases List.mem_cons.mp hm with rfl | hm
    · norm_num [plane]
    · rcases List.mem_cons.mp hm with rfl | hm
      · norm_num [plane]
      · obtain rfl := List.mem_singleton.mp hm
        norm_num [plane]
  rcases (hsound₂.next hdir₂ .default q₃).2.mp hdir rfl e₂ _ habs₃ h₂.members hsums with ⟨m, hall⟩ | ⟨a, ha, -⟩
  · -- the first two differ
    have hsame : q₁.unit Real.sqrt = q₂.unit Real.sqrt :=
      (hall _ List.mem_cons_self).trans (hall _ (List.mem_cons_of_mem _ List.mem_cons_self)).symm
    rw [hu₁, hu₂] at hsame
    have hcoord := (List.cons.inj (List.cons.inj hsame).2).1
    norm_num at hcoord
  · -- the third is off the axis
    rw [hu₁, hu₂, hu₃] at ha
    have hcoord := congrArg (fun l : List ℝ => l.getD 1 0) ha
    rw [getD_map_sumVec (by decide)] at hcoord
    norm_num [plane] at hcoord

end Devrouter
