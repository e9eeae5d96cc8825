import Devrouter.Heuristics.Bandit
import Devrouter.Lib.FirstBy
import Devrouter.Lib.GoText

/-!
# The services of a query

Model of `extractServiceTokens` in `internal/router/router.go`: the words of a query that are, or are related to, a
top-level directory. A word names a directory when they agree in lower case; two are relatives when one is a prefix of
the other. The relatives are looked for in the order in which the map of directories is ranged over, which is another
one each time (`visits`).

`extractServiceTokens_right_iff` says for which queries and directories the result is what it is meant to be: at most
three directories, the same ones in every run, and of a word that names one no relative.
-/

namespace Devrouter

/-! ### The words of a query -/

def serviceStop : List String :=
  ["service", "server", "package", "module", "file", "files", "code", "logic", "where", "which", "what", "when"]

def isWordChar (c : Char) : Bool :=
  decide ('a' ≤ c ∧ c ≤ 'z') || decide ('A' ≤ c ∧ c ≤ 'Z') || decide ('0' ≤ c ∧ c ≤ '9')

section Tokens

variable (L : RuneLower)

def flushWord (cur : List Char) : List String := if cur = [] then [] else [L.lower (String.ofList cur.reverse)]

/-- The loop over the runes of a query; `cur` is the current word reversed. -/
def splitWords : List Char → List Char → List String
  | [], cur => flushWord L cur
  | c :: cs, cur => if isWordChar c then splitWords cs (c :: cur) else flushWord L cur ++ splitWords cs []

def queryWords (query : String) : List String := splitWords L query.toList []

def skipsWord (w : String) : Bool := decide (byteLen w < 4) || decide (w ∈ serviceStop)

/-- The words that are looked at. -/
def serviceWords (query : String) : List String := (queryWords L query).filter fun w => !skipsWord w

/-! ### The directories -/

/-- The map of directories, by their names in lower case: the last one of each name. -/
def dirSet (dirs : List String) : List String := dirs.reverse.firstBy L.lower []

/-- The directory of that name. -/
def named (dirs : List String) (w : String) : Option String := (dirSet L dirs).find? fun d => decide (L.lower d = w)

def relative (w d : String) : Bool := hasPrefix (L.lower d) w || hasPrefix w (L.lower d)

/-! ### The loop -/

/-- The tokens so far, which are also what was seen; how often the map was ranged over; and whether the loop
was left. -/
structure Scan where
  tokens : List String
  loops : ℕ
  stopped : Bool
  deriving DecidableEq, Repr

def Scan.start : Scan := ⟨[], 0, false⟩

/-- The search for a relative, and the cap behind it. -/
def Scan.rangeDirs (visits : ℕ → List String) (s : Scan) (w : String) : Scan :=
  let tokens := match (visits s.loops).find? fun canon => decide (canon ∉ s.tokens) && relative L w canon with
    | some canon => s.tokens ++ [canon]
    | none => s.tokens
  ⟨tokens, s.loops + 1, decide (3 ≤ tokens.length)⟩

/-- One round of the loop over the words. -/
def Scan.word (dirs : List String) (visits : ℕ → List String) (s : Scan) (w : String) : Scan :=
  if s.stopped then s
  else if skipsWord w then s
  else
    match named L dirs w with
    | some canon => if canon ∉ s.tokens then { s with tokens := s.tokens ++ [canon] } else s.rangeDirs L visits w
    | none => s.rangeDirs L visits w

/-- The loop over some words. -/
def scanWords (dirs : List String) (visits : ℕ → List String) (words : List String) : Scan :=
  words.foldl (Scan.word L dirs visits) .start

/-- `extractServiceTokens`; the `n`-th time the map is ranged over, its directories come as in `visits n`. -/
def extractServiceTokens (visits : ℕ → List String) (query : String) (dirs : List String) : List String :=
  if dirs = [] then [] else (scanWords L dirs visits (queryWords L query)).tokens

/-- Each time the map is ranged over, all directories come up once. -/
def Visits (dirs : List String) (visits : ℕ → List String) : Prop := ∀ n, (visits n).Perm (dirSet L dirs)

/-! ### What the result is meant to be -/

/-- **The tokens are right**: at most three different directories; the same ones in every run, and for the directories
in any order when their names differ in lower case; and a word that names a directory stands for it and no other, as
long as there are fewer than three. -/
structure ServiceTokensRight (query : String) (dirs : List String) : Prop where
  capped : ∀ visits, Visits L dirs visits → (extractServiceTokens L visits query dirs).length ≤ 3
  distinct : ∀ visits, Visits L dirs visits →
    (extractServiceTokens L visits query dirs).Nodup ∧ ∀ t ∈ extractServiceTokens L visits query dirs, t ∈ dirs
  same : ∀ visits visits' dirs', Visits L dirs visits → Visits L dirs' visits' → dirs'.Perm dirs →
    dirs' = dirs ∨ (dirs.map L.lower).Nodup →
      extractServiceTokens L visits' query dirs' = extractServiceTokens L visits query dirs
  names : ∀ visits, Visits L dirs visits → ∀ pre w post, serviceWords L query = pre ++ w :: post →
    (scanWords L dirs visits pre).tokens.length < 3 → ∀ d, named L dirs w = some d →
      d ∈ (scanWords L dirs visits (pre ++ [w])).tokens ∧
        ∀ t ∈ (scanWords L dirs visits (pre ++ [w])).tokens, t ∈ (scanWords L dirs visits pre).tokens ∨ t = d

/-- The directories a word stands for: the one it names, or else its relatives. -/
def claimed (dirs : List String) (w : String) : List String :=
  match named L dirs w with
  | some d => [d]
  | none => (dirSet L dirs).filter (relative L w)

/-- The directories that some words stand for. -/
def claimedBy (dirs words : List String) : List String :=
  (dirSet L dirs).filter fun d => words.any fun w => decide (d ∈ claimed L dirs w)

/-- Whether some words leave room for another directory. -/
def Looking (dirs words : List String) : Prop := (claimedBy L dirs words).length < 3

/-- Whether the last of some words names the third directory. -/
def JustFilled (dirs words : List String) : Prop :=
  ¬Looking L dirs words ∧ ∃ pre v, words = pre ++ [v] ∧ Looking L dirs pre ∧ (named L dirs v).isSome = true

/-- **Nothing to choose** for a word behind others: a word that names a directory the others stand for has no other
relatives but theirs, one that names none has at most one more, and one right behind the name of the third directory
has none. -/
structure NoChoice (dirs pre : List String) (w : String) : Prop where
  named_again : Looking L dirs pre → ∀ d, named L dirs w = some d → d ∈ claimedBy L dirs pre →
    ∀ r ∈ dirSet L dirs, relative L w r = true → r ∈ claimedBy L dirs pre
  one_relative : Looking L dirs pre → named L dirs w = none → ∀ r ∈ dirSet L dirs, ∀ r' ∈ dirSet L dirs,
    relative L w r = true → relative L w r' = true → r ∉ claimedBy L dirs pre → r' ∉ claimedBy L dirs pre → r = r'
  filled : JustFilled L dirs pre → ∀ r ∈ dirSet L dirs, relative L w r = true → r ∈ claimedBy L dirs pre

variable {L} {dirs : List String} {visits : ℕ → List String} {w d : String} {s : Scan} {pre : List String}

/-! ### The map -/

theorem dirSet_keys : ((dirSet L dirs).map L.lower).Nodup := List.nodup_map_firstBy

theorem dirSet_nodup : (dirSet L dirs).Nodup := dirSet_keys.of_map

theorem dirSet_subset : ∀ d ∈ dirSet L dirs, d ∈ dirs := fun _ hd =>
  List.mem_reverse.mp (List.firstBy_sublist.subset hd)

theorem named_eq_some_iff : named L dirs w = some d ↔ d ∈ dirSet L dirs ∧ L.lower d = w := by
  unfold named
  constructor
  · intro h
    have hkey := List.find?_some h
    exact ⟨List.mem_of_find?_eq_some h, of_decide_eq_true hkey⟩
  · rintro ⟨hd, rfl⟩
    have hsome : ((dirSet L dirs).find? fun e => decide (L.lower e = L.lower d)).isSome = true :=
      List.find?_isSome.mpr ⟨d, hd, decide_eq_true rfl⟩
    obtain ⟨e, he⟩ := Option.isSome_iff_exists.mp hsome
    have hkey := List.find?_some he
    -- the names differ in lower case
    have hsame : e = d := List.inj_on_of_nodup_map dirSet_keys (List.mem_of_find?_eq_some he) hd
      (of_decide_eq_true hkey)
    rw [he, hsame]

theorem relative_of_named (h : named L dirs w = some d) : relative L w d = true := by
  unfold relative hasPrefix
  rw [(named_eq_some_iff.mp h).2, List.isPrefixOf_iff_prefix.mpr (List.prefix_refl _)]
  rfl

/-- Directories in another order, with names that differ in lower case, make the same map. -/
theorem dirSet_perm {dirs' : List String} (hperm : dirs'.Perm dirs) (hnodup : (dirs.map L.lower).Nodup) :
    (dirSet L dirs').Perm (dirSet L dirs) := by
  have hall : ∀ {l : List String}, (l.map L.lower).Nodup → dirSet L l = l.reverse := by
    intro l hl
    refine List.firstBy_of_nodup ?_ fun _ _ => List.not_mem_nil
    rw [List.map_reverse]
    exact List.nodup_reverse.mpr hl
  rw [hall hnodup, hall ((hperm.map L.lower).nodup_iff.mpr hnodup)]
  exact (List.reverse_perm _).trans (hperm.trans (List.reverse_perm _).symm)

theorem named_perm {dirs' : List String} (hperm : (dirSet L dirs').Perm (dirSet L dirs)) :
    named L dirs' = named L dirs := by
  funext w
  refine Option.ext fun d => ?_
  rw [named_eq_some_iff, named_eq_some_iff, hperm.mem_iff]

/-! ### One round -/

theorem word_of_stopped (h : s.stopped = true) : s.word L dirs visits w = s := if_pos h

theorem word_of_skips (h : skipsWord w = true) : s.word L dirs visits w = s := by
  unfold Scan.word
  rw [if_pos h, ite_self]

theorem word_of_new (hrun : s.stopped = false) (hw : skipsWord w = false) (hd : named L dirs w = some d)
    (hnew : d ∉ s.tokens) : s.word L dirs visits w = { s with tokens := s.tokens ++ [d] } := by
  unfold Scan.word
  rw [hrun, hw, hd]
  exact if_pos hnew

/-- A word that names no directory that is new is a relative or nothing. -/
theorem word_of_old (hrun : s.stopped = false) (hw : skipsWord w = false)
    (hold : ∀ d, named L dirs w = some d → d ∈ s.tokens) : s.word L dirs visits w = s.rangeDirs L visits w := by
  unfold Scan.word
  rw [hrun, hw]
  cases hd : named L dirs w with
  | none => rfl
  | some d => exact if_neg (not_not.mpr (hold d hd))

/-- Without another relative nothing is added. -/
theorem rangeDirs_none (hvisits : Visits L dirs visits)
    (hnone : ∀ r ∈ dirSet L dirs, relative L w r = true → r ∈ s.tokens) :
    s.rangeDirs L visits w = ⟨s.tokens, s.loops + 1, decide (3 ≤ s.tokens.length)⟩ := by
  have hfind : ((visits s.loops).find? fun canon => decide (canon ∉ s.tokens) && relative L w canon) = none := by
    refine List.find?_eq_none.mpr fun r hr => ?_
    rw [Bool.and_eq_true, decide_eq_true_eq]
    exact fun h => h.1 (hnone r ((hvisits _).mem_iff.mp hr) h.2)
  unfold Scan.rangeDirs
  rw [hfind]

/-- With another relative one is added. -/
theorem rangeDirs_some (hvisits : Visits L dirs visits) {r : String} (hr : r ∈ dirSet L dirs)
    (hrel : relative L w r = true) (hnew : r ∉ s.tokens) :
    ∃ c ∈ dirSet L dirs, relative L w c = true ∧ c ∉ s.tokens ∧
      s.rangeDirs L visits w = ⟨s.tokens ++ [c], s.loops + 1, decide (3 ≤ (s.tokens ++ [c]).length)⟩ := by
  have hsome : ((visits s.loops).find? fun canon => decide (canon ∉ s.tokens) && relative L w canon).isSome = true := by
    refine List.find?_isSome.mpr ⟨r, (hvisits _).mem_iff.mpr hr, ?_⟩
    rw [decide_eq_true hnew, hrel]
    rfl
  obtain ⟨c, hc⟩ := Option.isSome_iff_exists.mp hsome
  have hpicked := List.find?_some hc
  rw [Bool.and_eq_true, decide_eq_true_eq] at hpicked
  refine ⟨c, (hvisits _).mem_iff.mp (List.mem_of_find?_eq_some hc), hpicked.2, hpicked.1, ?_⟩
  unfold Scan.rangeDirs
  rw [hc]

/-- The first relative is the one that is added. -/
theorem rangeDirs_first {rest : List String} (hrel : relative L w d = true) (hnew : d ∉ s.tokens) :
    (s.rangeDirs L (fun _ => d :: rest) w).tokens = s.tokens ++ [d] := by
  have hfirst : (decide (d ∉ s.tokens) && relative L w d) = true := by
    rw [hrel, decide_eq_true hnew]
    rfl
  have hfind : ((d :: rest).find? fun canon => decide (canon ∉ s.tokens) && relative L w canon) = some d :=
    List.find?_cons_of_pos hfirst
  unfold Scan.rangeDirs
  rw [hfind]

/-- **A round** adds a directory that is new, or nothing. -/
theorem word_tokens (hvisits : Visits L dirs visits) : (s.word L dirs visits w).tokens = s.tokens ∨
    ∃ c ∈ dirSet L dirs, c ∉ s.tokens ∧ (s.word L dirs visits w).tokens = s.tokens ++ [c] := by
  by_cases hstop : s.stopped = true
  · exact .inl (congrArg Scan.tokens (word_of_stopped hstop))
  by_cases hskip : skipsWord w = true
  · exact .inl (congrArg Scan.tokens (word_of_skips hskip))
  rw [Bool.not_eq_true] at hstop hskip
  by_cases hnew : ∃ d, named L dirs w = some d ∧ d ∉ s.tokens
  · obtain ⟨d, hd, hnew⟩ := hnew
    exact .inr ⟨d, (named_eq_some_iff.mp hd).1, hnew, congrArg Scan.tokens (word_of_new hstop hskip hd hnew)⟩
  · push Not at hnew
    rw [word_of_old hstop hskip hnew]
    by_cases hrel : ∀ r ∈ dirSet L dirs, relative L w r = true → r ∈ s.tokens
    · left
      rw [rangeDirs_none hvisits hrel]
    · push Not at hrel
      obtain ⟨r, hr, hrel, hnew⟩ := hrel
      obtain ⟨c, hc, -, hcnew, hround⟩ := rangeDirs_some hvisits hr hrel hnew
      exact .inr ⟨c, hc, hcnew, congrArg Scan.tokens hround⟩

/-! ### The loop -/

theorem scanWords_snoc : scanWords L dirs visits (pre ++ [w]) = (scanWords L dirs visits pre).word L dirs visits w :=
  List.foldl_append

/-- The tokens of the first words stay in front. -/
theorem scanWords_prefix (hvisits : Visits L dirs visits) (post : List String) :
    (scanWords L dirs visits pre).tokens <+: (scanWords L dirs visits (pre ++ post)).tokens := by
  induction post using List.reverseRecOn with
  | nil => exact ⟨[], by rw [List.append_nil, List.append_nil]⟩
  | append_singleton post w ih =>
    rw [← List.append_assoc, scanWords_snoc]
    obtain hsame | ⟨c, -, -, hadd⟩ := word_tokens (w := w) (s := scanWords L dirs visits (pre ++ post)) hvisits
    · rwa [hsame]
    · rw [hadd]
      exact ih.trans (List.prefix_append _ _)

/-- The tokens are different directories. -/
theorem scanWords_sound (hvisits : Visits L dirs visits) (words : List String) :
    (scanWords L dirs visits words).tokens.Nodup ∧ ∀ t ∈ (scanWords L dirs visits words).tokens, t ∈ dirSet L dirs := by
  induction words using List.reverseRecOn with
  | nil => exact ⟨List.nodup_nil, fun _ h => absurd h List.not_mem_nil⟩
  | append_singleton pre w ih =>
    rw [scanWords_snoc]
    obtain hsame | ⟨c, hc, hnew, hadd⟩ := word_tokens (w := w) (s := scanWords L dirs visits pre) hvisits
    · rwa [hsame]
    · rw [hadd]
      refine ⟨List.nodup_append.mpr ⟨ih.1, List.nodup_singleton c, ?_⟩, fun t ht => ?_⟩
      · intro a ha b hb hab
        rw [List.mem_singleton] at hb
        exact hnew (hb ▸ hab ▸ ha)
      · obtain ht | ht := List.mem_append.mp ht
        · exact ih.2 t ht
        · exact List.mem_singleton.mp ht ▸ hc

/-- The other words are passed over. -/
theorem scanWords_filter (words : List String) :
    scanWords L dirs visits words = scanWords L dirs visits (words.filter fun w => !skipsWord w) := by
  induction words using List.reverseRecOn with
  | nil => rfl
  | append_singleton words w ih =>
    rw [scanWords_snoc, List.filter_append, ih]
    cases hskip : skipsWord w with
    | true => rw [word_of_skips hskip, List.filter_cons_of_neg (by simp [hskip]), List.filter_nil, List.append_nil]
    | false => rw [List.filter_cons_of_pos (by simp [hskip]), List.filter_nil, scanWords_snoc]

theorem extractServiceTokens_eq (visits : ℕ → List String) (query : String) (dirs : List String)
    (hvisits : Visits L dirs visits) :
    extractServiceTokens L visits query dirs = (scanWords L dirs visits (serviceWords L query)).tokens := by
  unfold extractServiceTokens serviceWords
  rw [← scanWords_filter]
  split_ifs with hdirs
  · -- without directories there is nothing to add
    refine (List.eq_nil_iff_forall_not_mem.mpr fun t ht => ?_).symm
    have hmem := dirSet_subset t ((scanWords_sound hvisits _).2 t ht)
    rw [hdirs] at hmem
    exact absurd hmem List.not_mem_nil
  · rfl

/-! ### What words stand for -/

theorem claimed_subset (h : d ∈ claimed L dirs w) : d ∈ dirSet L dirs := by
  unfold claimed at h
  cases hw : named L dirs w with
  | none =>
    rw [hw] at h
    exact (List.mem_filter.mp h).1
  | some e =>
    rw [hw] at h
    exact List.mem_singleton.mp h ▸ (named_eq_some_iff.mp hw).1

theorem mem_claimedBy_snoc :
    d ∈ claimedBy L dirs (pre ++ [w]) ↔ d ∈ claimedBy L dirs pre ∨ d ∈ claimed L dirs w := by
  unfold claimedBy
  rw [List.mem_filter, List.mem_filter, List.any_append, Bool.or_eq_true, List.any_cons, List.any_nil, Bool.or_false,
    decide_eq_true_eq, and_or_left]
  exact or_congr_right ⟨fun h => h.2, fun h => ⟨claimed_subset h, h⟩⟩

theorem mem_claimedBy_named (hd : named L dirs w = some d) {e : String} :
    e ∈ claimedBy L dirs (pre ++ [w]) ↔ e ∈ claimedBy L dirs pre ∨ e = d := by
  rw [mem_claimedBy_snoc]
  unfold claimed
  rw [hd]
  exact or_congr_right List.mem_singleton

theorem mem_claimedBy_unnamed (hnone : named L dirs w = none) {e : String} :
    e ∈ claimedBy L dirs (pre ++ [w]) ↔ e ∈ claimedBy L dirs pre ∨ e ∈ dirSet L dirs ∧ relative L w e = true := by
  rw [mem_claimedBy_snoc]
  unfold claimed
  rw [hnone]
  exact or_congr_right List.mem_filter

theorem length_eq_claimedBy {tokens : List String} (hnodup : tokens.Nodup)
    (hmem : ∀ d, d ∈ tokens ↔ d ∈ claimedBy L dirs pre) : tokens.length = (claimedBy L dirs pre).length :=
  ((List.perm_ext_iff_of_nodup hnodup (dirSet_nodup.filter _)).mpr hmem).length_eq

/-- Room that is gone does not come back. -/
theorem not_looking_snoc (h : ¬Looking L dirs pre) : ¬Looking L dirs (pre ++ [w]) := by
  intro hlooking
  refine h (lt_of_le_of_lt ?_ hlooking)
  have hsub : (claimedBy L dirs pre).Subperm (claimedBy L dirs (pre ++ [w])) :=
    List.subperm_of_subset (dirSet_nodup.filter _) fun d hd => mem_claimedBy_snoc.mpr (.inl hd)
  exact hsub.length_le

theorem justFilled_snoc : JustFilled L dirs (pre ++ [w]) ↔
    ¬Looking L dirs (pre ++ [w]) ∧ Looking L dirs pre ∧ (named L dirs w).isSome = true := by
  constructor
  · rintro ⟨hfull, pre', v, heq, hpre, hv⟩
    obtain ⟨rfl, hlast⟩ := List.append_inj' heq rfl
    rw [← (List.cons.inj hlast).1] at hv
    exact ⟨hfull, hpre, hv⟩
  · rintro ⟨hfull, hpre, hw⟩
    exact ⟨hfull, pre, w, rfl, hpre, hw⟩

/-! ### All runs agree -/

/-- The loop goes on behind some words, and the tokens are what they stand for. -/
structure Live (L : RuneLower) (dirs pre tokens : List String) : Prop where
  running : ∀ visits, Visits L dirs visits → (scanWords L dirs visits pre).stopped = false
  claims : ∀ d, d ∈ tokens ↔ d ∈ claimedBy L dirs pre

/-- Behind some words all runs have the same tokens. They are fewer than three and the loop goes on; or three, and it
goes on when the last word names the third, and is left otherwise. -/
structure Agreed (L : RuneLower) (dirs pre tokens : List String) : Prop where
  tokens_eq : ∀ visits, Visits L dirs visits → (scanWords L dirs visits pre).tokens = tokens
  phase : Looking L dirs pre ∧ Live L dirs pre tokens ∨ ¬Looking L dirs pre ∧ tokens.length = 3 ∧
    (JustFilled L dirs pre ∧ Live L dirs pre tokens ∨
      ¬JustFilled L dirs pre ∧ ∀ visits, Visits L dirs visits → (scanWords L dirs visits pre).stopped = true)

theorem visits_dirSet : Visits L dirs fun _ => dirSet L dirs := fun _ => List.Perm.refl _

namespace Agreed

variable {tokens : List String}

theorem nodup (h : Agreed L dirs pre tokens) : tokens.Nodup := by
  rw [← h.tokens_eq _ visits_dirSet]
  exact (scanWords_sound visits_dirSet pre).1

theorem length_le (h : Agreed L dirs pre tokens) : tokens.length ≤ 3 := by
  obtain ⟨hlooking, hlive⟩ | ⟨-, hlen, -⟩ := h.phase
  · rw [length_eq_claimedBy h.nodup hlive.claims]
    exact le_of_lt hlooking
  · exact hlen.le

theorem nil : Agreed L dirs [] [] where
  tokens_eq _ _ := rfl
  phase := by
    have hnone : claimedBy L dirs [] = [] := List.filter_eq_nil_iff.mpr fun _ _ => by simp
    refine .inl ⟨?_, fun _ _ => rfl, fun d => ?_⟩
    · unfold Looking
      rw [hnone]
      decide
    · rw [hnone]

/-- The tokens stay when the words stand for no more directories, and the loop goes on. -/
theorem keep (h : Agreed L dirs pre tokens) (hlooking : Looking L dirs pre) (hlive : Live L dirs pre tokens)
    (hround : ∀ visits, Visits L dirs visits → scanWords L dirs visits (pre ++ [w]) =
      ⟨tokens, (scanWords L dirs visits pre).loops + 1, decide (3 ≤ tokens.length)⟩)
    (hclaims : ∀ e, e ∈ claimedBy L dirs (pre ++ [w]) ↔ e ∈ claimedBy L dirs pre) :
    Agreed L dirs (pre ++ [w]) tokens := by
  have hmem : ∀ d, d ∈ tokens ↔ d ∈ claimedBy L dirs (pre ++ [w]) := fun d => (hlive.claims d).trans (hclaims d).symm
  have hlen := length_eq_claimedBy h.nodup hlive.claims
  have hfew : tokens.length < 3 := hlen ▸ hlooking
  refine ⟨fun visits hvisits => congrArg Scan.tokens (hround visits hvisits), .inl ⟨?_, fun visits hvisits => ?_, hmem⟩⟩
  · exact (length_eq_claimedBy h.nodup hmem ▸ hfew :)
  · rw [hround visits hvisits]
    exact decide_eq_false (by omega)

/-- One more token, from a word that names it or from one that does not. -/
theorem add (h : Agreed L dirs pre tokens) (hlooking : Looking L dirs pre) (hlive : Live L dirs pre tokens)
    (hround : ∀ visits, Visits L dirs visits →
      (scanWords L dirs visits (pre ++ [w])).tokens = tokens ++ [d] ∧
        ((scanWords L dirs visits (pre ++ [w])).stopped =
          (decide (3 ≤ (tokens ++ [d]).length) && (named L dirs w).isNone)))
    (hclaims : ∀ e, e ∈ claimedBy L dirs (pre ++ [w]) ↔ e ∈ claimedBy L dirs pre ∨ e = d) :
    Agreed L dirs (pre ++ [w]) (tokens ++ [d]) := by
  have hmem : ∀ e, e ∈ tokens ++ [d] ↔ e ∈ claimedBy L dirs (pre ++ [w]) := by
    intro e
    rw [hclaims, List.mem_append, List.mem_singleton, hlive.claims]
  have hnodup : (tokens ++ [d]).Nodup := by
    rw [← (hround _ visits_dirSet).1]
    exact (scanWords_sound visits_dirSet _).1
  have hlen := length_eq_claimedBy hnodup hmem
  have hfew : tokens.length < 3 := length_eq_claimedBy h.nodup hlive.claims ▸ hlooking
  have hadd : (tokens ++ [d]).length = tokens.length + 1 := List.length_append
  refine ⟨fun visits hvisits => (hround visits hvisits).1, ?_⟩
  by_cases hmore : tokens.length + 1 < 3
  · have hlooking' : Looking L dirs (pre ++ [w]) := (hlen ▸ hadd ▸ hmore :)
    refine .inl ⟨hlooking', fun visits hvisits => ?_, hmem⟩
    rw [(hround visits hvisits).2, decide_eq_false (by omega), Bool.false_and]
  · have hfull : ¬Looking L dirs (pre ++ [w]) := by
      unfold Looking
      omega
    refine .inr ⟨hfull, by omega, ?_⟩
    -- the cap is looked at behind the search for relatives only
    cases hname : named L dirs w with
    | some e =>
      refine .inl ⟨justFilled_snoc.mpr ⟨hfull, hlooking, by rw [hname]; rfl⟩, fun visits hvisits => ?_, hmem⟩
      rw [(hround visits hvisits).2, hname]
      exact Bool.and_false _
    | none =>
      refine .inr ⟨fun hjust => ?_, fun visits hvisits => ?_⟩
      · have hsome := (justFilled_snoc.mp hjust).2.2
        rw [hname] at hsome
        exact absurd hsome (by decide)
      · rw [(hround visits hvisits).2, hname, decide_eq_true (by omega)]
        rfl

/-- A word that names a directory adds it, or nothing when the words before stand for it. -/
theorem snoc_named (h : Agreed L dirs pre tokens) (hlooking : Looking L dirs pre) (hlive : Live L dirs pre tokens)
    (hw : skipsWord w = false) (hname : named L dirs w = some d) (hclear : NoChoice L dirs pre w) :
    ∃ tokens', Agreed L dirs (pre ++ [w]) tokens' := by
  by_cases hnew : d ∈ tokens
  · -- the word names a directory again, and its relatives are there
    have hrel : ∀ r ∈ dirSet L dirs, relative L w r = true → r ∈ tokens := fun r hr hrel =>
      (hlive.claims r).mpr (hclear.named_again hlooking d hname ((hlive.claims d).mp hnew) r hr hrel)
    refine ⟨tokens, h.keep hlooking hlive (fun visits hvisits => ?_) fun e => ?_⟩
    · have htokens := h.tokens_eq visits hvisits
      rw [scanWords_snoc, word_of_old (hlive.running visits hvisits) hw fun e he => ?_,
        rangeDirs_none hvisits (htokens ▸ hrel), htokens]
      rw [htokens]
      exact Option.some.inj (hname.symm.trans he) ▸ hnew
    · rw [mem_claimedBy_named hname]
      exact or_iff_left_of_imp fun he => he ▸ (hlive.claims d).mp hnew
  · refine ⟨tokens ++ [d], h.add hlooking hlive (fun visits hvisits => ?_) fun e => mem_claimedBy_named hname⟩
    have htokens := h.tokens_eq visits hvisits
    rw [scanWords_snoc, word_of_new (hlive.running visits hvisits) hw hname (htokens ▸ hnew), hname, htokens]
    exact ⟨rfl, (hlive.running visits hvisits).trans (Bool.and_false _).symm⟩

/-- One that names none adds its one relative, if there is one. -/
theorem snoc_unnamed (h : Agreed L dirs pre tokens) (hlooking : Looking L dirs pre) (hlive : Live L dirs pre tokens)
    (hw : skipsWord w = false) (hname : named L dirs w = none) (hclear : NoChoice L dirs pre w) :
    ∃ tokens', Agreed L dirs (pre ++ [w]) tokens' := by
  have hold : ∀ visits, ∀ e, named L dirs w = some e → e ∈ (scanWords L dirs visits pre).tokens := by
    intro visits e he
    rw [hname] at he
    exact absurd he (by simp)
  by_cases hrel : ∀ r ∈ dirSet L dirs, relative L w r = true → r ∈ tokens
  · refine ⟨tokens, h.keep hlooking hlive (fun visits hvisits => ?_) fun e => ?_⟩
    · have htokens := h.tokens_eq visits hvisits
      rw [scanWords_snoc, word_of_old (hlive.running visits hvisits) hw (hold visits),
        rangeDirs_none hvisits (htokens ▸ hrel), htokens]
    · rw [mem_claimedBy_unnamed hname]
      exact or_iff_left_of_imp fun he => (hlive.claims e).mp (hrel e he.1 he.2)
  · push Not at hrel
    obtain ⟨r, hr, hrel, hnew⟩ := hrel
    -- whichever relative comes first, it is this one
    have honly : ∀ c ∈ dirSet L dirs, relative L w c = true → c ∉ tokens → c = r := fun c hc hcrel hcnew =>
      hclear.one_relative hlooking hname c hc r hr hcrel hrel (fun h => hcnew ((hlive.claims c).mpr h))
        fun h => hnew ((hlive.claims r).mpr h)
    refine ⟨tokens ++ [r], h.add hlooking hlive (fun visits hvisits => ?_) fun e => ?_⟩
    · have htokens := h.tokens_eq visits hvisits
      obtain ⟨c, hc, hcrel, hcnew, hround⟩ := rangeDirs_some hvisits hr hrel (htokens ▸ hnew)
      rw [htokens] at hcnew
      rw [scanWords_snoc, word_of_old (hlive.running visits hvisits) hw (hold visits), hround, htokens, hname,
        honly c hc hcrel hcnew]
      exact ⟨rfl, (Bool.and_true _).symm⟩
    · rw [mem_claimedBy_unnamed hname]
      constructor
      · rintro (he | ⟨he, herel⟩)
        · exact .inl he
        · by_cases hin : e ∈ tokens
          · exact .inl ((hlive.claims e).mp hin)
          · exact .inr (honly e he herel hin)
      · rintro (he | rfl)
        · exact .inl he
        · exact .inr ⟨hr, hrel⟩

/-- Behind the third directory nothing is added, and the loop is left. -/
theorem snoc_full (h : Agreed L dirs pre tokens) (hfull : ¬Looking L dirs pre) (hlen : tokens.length = 3)
    (hphase : JustFilled L dirs pre ∧ Live L dirs pre tokens ∨
      ¬JustFilled L dirs pre ∧ ∀ visits, Visits L dirs visits → (scanWords L dirs visits pre).stopped = true)
    (hw : skipsWord w = false) (hclear : NoChoice L dirs pre w) : Agreed L dirs (pre ++ [w]) tokens := by
  have hround : ∀ visits, Visits L dirs visits →
      (scanWords L dirs visits (pre ++ [w])).tokens = tokens ∧ (scanWords L dirs visits (pre ++ [w])).stopped = true := by
    intro visits hvisits
    have htokens := h.tokens_eq visits hvisits
    obtain ⟨hjust, hlive⟩ | ⟨-, hstopped⟩ := hphase
    · -- the word behind the third name has no new relative, so the cap is looked at
      have hrel : ∀ r ∈ dirSet L dirs, relative L w r = true → r ∈ tokens := fun r hr hrel =>
        (hlive.claims r).mpr (hclear.filled hjust r hr hrel)
      rw [scanWords_snoc, word_of_old (hlive.running visits hvisits) hw fun e he => ?_,
        rangeDirs_none hvisits (htokens ▸ hrel), htokens]
      · exact ⟨rfl, decide_eq_true hlen.ge⟩
      · rw [htokens]
        exact hrel e (named_eq_some_iff.mp he).1 (relative_of_named he)
    · rw [scanWords_snoc, word_of_stopped (hstopped visits hvisits)]
      exact ⟨htokens, hstopped visits hvisits⟩
  refine ⟨fun visits hvisits => (hround visits hvisits).1, .inr ⟨not_looking_snoc hfull, hlen, .inr ⟨?_, ?_⟩⟩⟩
  · intro hjust
    exact hfull (justFilled_snoc.mp hjust).2.1
  · intro visits hvisits
    exact (hround visits hvisits).2

/-- **A word without a choice** leaves all runs with the same tokens. -/
theorem snoc (h : Agreed L dirs pre tokens) (hw : skipsWord w = false) (hclear : NoChoice L dirs pre w) :
    ∃ tokens', Agreed L dirs (pre ++ [w]) tokens' := by
  obtain ⟨hlooking, hlive⟩ | ⟨hfull, hlen, hphase⟩ := h.phase
  · cases hname : named L dirs w with
    | some d => exact h.snoc_named hlooking hlive hw hname hclear
    | none => exact h.snoc_unnamed hlooking hlive hw hname hclear
  · exact ⟨tokens, h.snoc_full hfull hlen hphase hw hclear⟩

/-- What is added to the tokens stays, also in the result. -/
theorem prefix_of_round {query : String} {post : List String} (hpos : serviceWords L query = pre ++ w :: post)
    (hvisits : Visits L dirs visits) :
    (scanWords L dirs visits (pre ++ [w])).tokens <+: extractServiceTokens L visits query dirs := by
  have hprefix : (scanWords L dirs visits (pre ++ [w])).tokens <+:
      (scanWords L dirs visits (pre ++ [w] ++ post)).tokens :=
    scanWords_prefix hvisits post
  rw [List.append_assoc, List.singleton_append] at hprefix
  rwa [extractServiceTokens_eq visits query dirs hvisits, hpos]

/-- With room left the loop goes on. -/
theorem live (h : Agreed L dirs pre tokens) (hlooking : Looking L dirs pre) : Live L dirs pre tokens :=
  h.phase.elim (fun hphase => hphase.2) fun hphase => absurd hlooking hphase.1

/-- A word that names a directory again must not bring another. -/
theorem named_again (h : Agreed L dirs pre tokens) {query : String} {post : List String} (hw : skipsWord w = false)
    (hpos : serviceWords L query = pre ++ w :: post) (hright : ServiceTokensRight L query dirs)
    (hlooking : Looking L dirs pre) (hname : named L dirs w = some d) (hd : d ∈ claimedBy L dirs pre) :
    ∀ r ∈ dirSet L dirs, relative L w r = true → r ∈ claimedBy L dirs pre := by
  intro r hr hrel
  by_contra hnew
  have hstart := h.tokens_eq _ visits_dirSet
  -- before the cap is reached the words so far have added what they claim
  have hlive := h.live hlooking
  have hmem : d ∈ tokens := (hlive.claims d).mpr hd
  have hfew : tokens.length < 3 := length_eq_claimedBy h.nodup hlive.claims ▸ hlooking
  obtain ⟨-, hadded⟩ := hright.names _ visits_dirSet pre w post hpos (hstart ▸ hfew) d hname
  have hold : ∀ e, named L dirs w = some e → e ∈ (scanWords L dirs (fun _ => dirSet L dirs) pre).tokens := by
    intro e he
    rw [hstart]
    exact Option.some.inj (hname.symm.trans he) ▸ hmem
  -- the range adds a relative in some order, and this one was not asked for by name
  obtain ⟨c, -, -, hcnew, hround⟩ := rangeDirs_some (s := scanWords L dirs (fun _ => dirSet L dirs) pre)
    visits_dirSet hr hrel (hstart ▸ fun hin => hnew ((hlive.claims r).mp hin))
  rw [scanWords_snoc, word_of_old (hlive.running _ visits_dirSet) hw hold, hround] at hadded
  obtain hin | rfl := hadded c (List.mem_append_right _ (List.mem_singleton_self c))
  · exact hcnew hin
  · exact hcnew (hstart ▸ hmem)

/-- The map may come with any relative first. -/
theorem pick (h : Agreed L dirs pre tokens) (hw : skipsWord w = false) (hlooking : Looking L dirs pre)
    (hname : named L dirs w = none) (hd : d ∈ dirSet L dirs) (hrel : relative L w d = true)
    (hnew : d ∉ claimedBy L dirs pre) :
    ∃ visits, Visits L dirs visits ∧ (scanWords L dirs visits (pre ++ [w])).tokens = tokens ++ [d] := by
  have hlive := h.live hlooking
  have hvisits : Visits L dirs fun _ => d :: (dirSet L dirs).erase d := fun _ => (List.perm_cons_erase hd).symm
  have htokens := h.tokens_eq _ hvisits
  have hold : ∀ e, named L dirs w = some e →
      e ∈ (scanWords L dirs (fun _ => d :: (dirSet L dirs).erase d) pre).tokens := by
    intro e he
    rw [hname] at he
    exact absurd he (by simp)
  refine ⟨_, hvisits, ?_⟩
  rw [scanWords_snoc, word_of_old (hlive.running _ hvisits) hw hold,
    rangeDirs_first hrel (htokens ▸ fun hin => hnew ((hlive.claims d).mp hin)), htokens]

/-- A fourth token would stay. -/
theorem filled (h : Agreed L dirs pre tokens) {query : String} {post : List String} (hw : skipsWord w = false)
    (hpos : serviceWords L query = pre ++ w :: post) (hright : ServiceTokensRight L query dirs)
    (hjust : JustFilled L dirs pre) :
    ∀ r ∈ dirSet L dirs, relative L w r = true → r ∈ claimedBy L dirs pre := by
  intro r hr hrel
  -- the cap has just been reached: at most three tokens, so the word may add no fourth
  obtain ⟨hlooking, -⟩ | ⟨-, hlen, ⟨-, hlive⟩ | ⟨hnot, -⟩⟩ := h.phase
  · exact absurd hlooking hjust.1
  · -- a relative that is new would be a fourth token
    by_contra hnew
    have hstart := h.tokens_eq _ visits_dirSet
    have hmore : (scanWords L dirs (fun _ => dirSet L dirs) (pre ++ [w])).tokens.length = 3 + 1 := by
      rw [scanWords_snoc]
      -- the word names a new directory, or stands for one of its relatives
      by_cases hnamed : ∃ d, named L dirs w = some d ∧ d ∉ tokens
      · obtain ⟨d, hd, hdnew⟩ := hnamed
        rw [word_of_new (hlive.running _ visits_dirSet) hw hd (hstart ▸ hdnew), hstart, List.length_append, hlen]
        rfl
      · push Not at hnamed
        obtain ⟨c, -, -, -, hround⟩ := rangeDirs_some (s := scanWords L dirs (fun _ => dirSet L dirs) pre)
          visits_dirSet hr hrel (hstart ▸ fun hin => hnew ((hlive.claims r).mp hin))
        rw [word_of_old (hlive.running _ visits_dirSet) hw (hstart ▸ hnamed), hround, hstart, List.length_append, hlen]
        rfl
    have hcap := hright.capped _ visits_dirSet
    have hprefix : (scanWords L dirs (fun _ => dirSet L dirs) (pre ++ [w])).tokens <+: _ :=
      prefix_of_round hpos visits_dirSet
    -- the tokens of the prefix stay, so the result has four
    have hle := hprefix.length_le
    omega
  · exact absurd hjust hnot

/-- **Tokens that are right** leave no word a choice. -/
theorem noChoice (h : Agreed L dirs pre tokens) {query : String} {post : List String} (hw : skipsWord w = false)
    (hpos : serviceWords L query = pre ++ w :: post) (hright : ServiceTokensRight L query dirs) :
    NoChoice L dirs pre w := by
  refine ⟨fun hlooking d hname hd => h.named_again hw hpos hright hlooking hname hd,
    fun hlooking hname r hr r' hr' hrel hrel' hnew hnew' => ?_, h.filled hw hpos hright⟩
  obtain ⟨visits, hvisits, hround⟩ := h.pick hw hlooking hname hr hrel hnew
  obtain ⟨visits', hvisits', hround'⟩ := h.pick hw hlooking hname hr' hrel' hnew'
  -- both relatives end up at the same place of one result
  have hprefix := prefix_of_round hpos hvisits
  have hprefix' := prefix_of_round hpos hvisits'
  rw [hround] at hprefix
  rw [hround', hright.same visits visits' dirs hvisits hvisits' (List.Perm.refl _) (.inl rfl)] at hprefix'
  have hsame := List.IsPrefix.eq_of_length (List.prefix_of_prefix_length_le hprefix hprefix' (by simp)) (by simp)
  exact List.singleton_inj.mp (List.append_cancel_left hsame)

/-- The word that names a directory stands for it. -/
theorem names (h : Agreed L dirs pre tokens) (hw : skipsWord w = false) (hclear : NoChoice L dirs pre w)
    (hvisits : Visits L dirs visits) (hfew : tokens.length < 3) (hd : named L dirs w = some d) :
    d ∈ (scanWords L dirs visits (pre ++ [w])).tokens ∧
      ∀ t ∈ (scanWords L dirs visits (pre ++ [w])).tokens, t ∈ tokens ∨ t = d := by
  have htokens := h.tokens_eq visits hvisits
  obtain ⟨hlooking, hlive⟩ | ⟨-, hlen, -⟩ := h.phase
  · rw [scanWords_snoc]
    by_cases hin : d ∈ tokens
    · have hrel : ∀ r ∈ dirSet L dirs, relative L w r = true → r ∈ tokens := fun r hr hrel =>
        (hlive.claims r).mpr (hclear.named_again hlooking d hd ((hlive.claims d).mp hin) r hr hrel)
      rw [word_of_old (hlive.running visits hvisits) hw fun e he => ?_, rangeDirs_none hvisits (htokens ▸ hrel),
        htokens]
      · exact ⟨hin, fun t ht => .inl ht⟩
      · rw [htokens]
        exact Option.some.inj (hd.symm.trans he) ▸ hin
    · rw [word_of_new (hlive.running visits hvisits) hw hd (htokens ▸ hin), htokens]
      exact ⟨List.mem_append_right _ (List.mem_singleton_self d), fun t ht =>
        (List.mem_append.mp ht).imp_right List.mem_singleton.mp⟩
  · omega

end Agreed

theorem skips_of_mem {query : String} (hw : w ∈ serviceWords L query) : skipsWord w = false := by
  simpa using (List.mem_filter.mp hw).2

/-- Words without a choice, all the way. -/
theorem agreed_of_noChoice {query : String}
    (hclear : ∀ pre w post tokens, serviceWords L query = pre ++ w :: post → skipsWord w = false →
      Agreed L dirs pre tokens → NoChoice L dirs pre w) :
    ∀ pre, pre <+: serviceWords L query → ∃ tokens, Agreed L dirs pre tokens := by
  intro pre
  induction pre using List.reverseRecOn with
  | nil => exact fun _ => ⟨[], Agreed.nil⟩
  | append_singleton pre w ih =>
    rintro ⟨post, hpost⟩
    rw [List.append_assoc, List.singleton_append] at hpost
    obtain ⟨tokens, hagreed⟩ := ih ⟨w :: post, hpost⟩
    have hw : skipsWord w = false := skips_of_mem (hpost ▸ List.mem_append_right pre List.mem_cons_self)
    exact hagreed.snoc hw (hclear pre w post tokens hpost.symm hw hagreed)

/-- **The services of a query**, for any query and directories: the tokens are right exactly when no word has a
choice. -/
theorem extractServiceTokens_right_iff (L : RuneLower) (query : String) (dirs : List String) :
    ServiceTokensRight L query dirs ↔
      ∀ pre w post, serviceWords L query = pre ++ w :: post → NoChoice L dirs pre w := by
  constructor
  · intro hright pre w post hpos
    have hw : skipsWord w = false := skips_of_mem (hpos ▸ List.mem_append_right pre List.mem_cons_self)
    -- along the query's words the tokens are agreed on as long as no word leaves a choice
    obtain ⟨tokens, hagreed⟩ := agreed_of_noChoice (fun pre w post tokens hpos hw hagreed =>
      hagreed.noChoice hw hpos hright) pre ⟨w :: post, hpos.symm⟩
    exact hagreed.noChoice hw hpos hright
  · intro hclear
    have hagreed := agreed_of_noChoice fun pre w post tokens hpos _ _ => hclear pre w post hpos
    obtain ⟨tokens, hall⟩ := hagreed (serviceWords L query) (List.prefix_refl _)
    -- the tokens do not depend on the visits
    have hresult : ∀ visits, Visits L dirs visits →
        extractServiceTokens L visits query dirs = tokens := fun visits hvisits =>
      (extractServiceTokens_eq visits query dirs hvisits).trans (hall.tokens_eq visits hvisits)
    refine ⟨fun visits hvisits => ?_, fun visits hvisits => ?_,
      fun visits visits' dirs' hvisits hvisits' hperm hdirs => ?_,
      fun visits hvisits pre w post hpos hfew d hd => ?_⟩
    · rw [hresult visits hvisits]
      exact hall.length_le
    · rw [extractServiceTokens_eq visits query dirs hvisits]
      have hsound := scanWords_sound hvisits (serviceWords L query)
      exact ⟨hsound.1, fun t ht => dirSet_subset t (hsound.2 t ht)⟩
    · -- another order of the directories has the same set, and so the same scan
      obtain rfl | hnodup := hdirs
      · rw [hresult visits hvisits, hresult visits' hvisits']
      · have hmap := dirSet_perm hperm hnodup
        have hloop : scanWords L dirs' visits' = scanWords L dirs visits' := by
          unfold scanWords Scan.word
          rw [named_perm hmap]
        rw [extractServiceTokens_eq visits' query dirs' hvisits', hloop,
          hall.tokens_eq visits' fun n => (hvisits' n).trans hmap, hresult visits hvisits]
    · -- a word that is reached with room adds the directory that it names
      obtain ⟨before, hbefore⟩ := hagreed pre ⟨w :: post, hpos.symm⟩
      have htokens := hbefore.tokens_eq visits hvisits
      rw [htokens] at hfew ⊢
      exact hbefore.names (skips_of_mem (hpos ▸ List.mem_append_right pre List.mem_cons_self))
        (hclear pre w post hpos) hvisits hfew hd

end Tokens

/-! ### Four names -/

/-- A question about four services, and where they are. -/
theorem four_services :
    ¬ServiceTokensRight asciiRunes "where do oscar, weaver, kosmos and pixel start" ["kosmos", "oscar", "pixel", "weaver"] := by
  intro h
  have hcap := h.capped (fun _ => dirSet asciiRunes ["kosmos", "oscar", "pixel", "weaver"]) visits_dirSet
  exact absurd hcap (by decide +kernel)

end Devrouter
