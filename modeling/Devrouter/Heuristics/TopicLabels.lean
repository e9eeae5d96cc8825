import Mathlib.Data.String.Basic
import Devrouter.Lib.FirstSeen
import Devrouter.Heuristics.Topics

/-!
# Topic labels

What `ExtractTopicLabel` of `internal/heuristics/topics.go` makes of a query. The words of a query are the runs of its
letters and digits, lower-cased, that are no short runs, stop words or numbers, each where it is first seen
(`labelWords`). The label is supposed to be the longest prefix of the words that fits, and to cut no word but a first
one that is too long (`WholeTokens`).

A label that is too long is cut at the last hyphen within the limit. The hyphen behind the first two words is not
looked at when it is the character behind the limit, and then the second word is lost: `whole_tokens_iff`.
-/

namespace Devrouter

/-! ### Words -/

/-- A run of letters and digits that is kept. -/
def survives (tok : List Char) : Bool :=
  !(tok.length < 3 || topicLabelStopwords.contains (String.ofList tok) || tok.all Char.isDigit)

/-- The runs of a query that are kept. -/
def survivingTokens (query : String) : List String :=
  (((query.toList.map lowerRune).splitOnP fun c => !isLabelChar c).filter survives).map String.ofList

/-- The distinct tokens of a query, in the order in which they are first seen. -/
def labelWords (query : String) : List String := (survivingTokens query).eraseDups

theorem flushToken_eq (cur : List Char) :
    flushToken cur = ([cur.reverse].filter survives).map String.ofList := by
  have hkept : survives cur.reverse = !(cur.length < 3 ||
      topicLabelStopwords.contains (String.ofList cur.reverse) || cur.all Char.isDigit) := by
    unfold survives
    rw [List.length_reverse, List.all_reverse]
  unfold flushToken
  dsimp only
  rw [List.filter_singleton, hkept]
  split_ifs with h
  · rw [h]
    rfl
  · rw [Bool.eq_false_iff.mpr h]
    rfl

/-- The loop yields the runs; the first one begins with the token so far. -/
theorem labelTokens_eq (cs cur : List Char) : labelTokens cs cur =
    (((cs.splitOnP fun c => !isLabelChar c).modifyHead (cur.reverse ++ ·)).filter survives).map String.ofList := by
  induction cs generalizing cur with
  | nil =>
    rw [labelTokens, List.splitOnP_nil, List.modifyHead_cons, List.append_nil]
    exact flushToken_eq cur
  | cons c cs ih =>
    rw [labelTokens, List.splitOnP_cons_eq_if_modifyHead]
    obtain ⟨run, runs, hruns⟩ := List.exists_cons_of_ne_nil (List.splitOnP_ne_nil (fun c => !isLabelChar c) cs)
    cases hc : isLabelChar c with
    | true =>
      rw [if_pos rfl, if_neg (by decide), ih, hruns]
      simp only [List.modifyHead_cons, List.reverse_cons, List.append_assoc, List.singleton_append]
    | false =>
      rw [if_neg (by decide), if_pos (by decide), ih, hruns]
      simp only [List.modifyHead_cons, List.reverse_nil, List.nil_append, List.append_nil]
      rw [flushToken_eq, ← List.map_append, ← List.filter_append]
      rfl

theorem tokenizeForLabel_eq (query : String) : tokenizeForLabel query = survivingTokens query := by
  unfold tokenizeForLabel survivingTokens
  rw [labelTokens_eq]
  obtain ⟨run, runs, hruns⟩ := List.exists_cons_of_ne_nil
    (List.splitOnP_ne_nil (fun c => !isLabelChar c) (query.toList.map lowerRune))
  rw [hruns]
  rfl

/-- **The tokens that are picked** are the first words. -/
theorem picked_eq (query : String) :
    ((tokenizeForLabel query).reverse.dedup.reverse).take topicLabelMaxTokens =
      (labelWords query).take topicLabelMaxTokens := by
  rw [tokenizeForLabel_eq, List.reverse_dedup_reverse]
  rfl

/-! ### Sizes -/

/-- A word of a label: it is not empty, and has the characters of tokens. -/
structure IsWord (w : String) : Prop where
  nonempty : w ≠ ""
  chars : ∀ c ∈ w.toList, isLabelChar c = true

theorem isWord_of_mem {query w : String} (h : w ∈ labelWords query) : IsWord w := by
  obtain ⟨run, hrun, rfl⟩ := List.mem_map.mp ((List.eraseDups_sublist _).subset h)
  obtain ⟨hrun, hkept⟩ := List.mem_filter.mp hrun
  refine ⟨?_, fun c hc => ?_⟩
  · rintro hempty
    have hnil : run = [] := String.ofList_injective (hempty.trans String.ofList_nil.symm)
    rw [hnil] at hkept
    exact absurd hkept (by decide)
  · rw [String.toList_ofList] at hc
    have hsep := List.not_of_mem_splitOnP hrun c hc
    rwa [Bool.not_eq_false'] at hsep

theorem ne_hyphen {c : Char} (h : isLabelChar c = true) : c ≠ '-' := by
  rintro rfl
  exact absurd h (by decide)

/-- The size of some words, joined by hyphens. -/
def joinSize (ws : List String) : ℕ := ("-".intercalate ws).utf8ByteSize

@[simp] theorem joinSize_singleton (w : String) : joinSize [w] = w.utf8ByteSize := by
  rw [joinSize, String.intercalate_singleton]

theorem joinSize_cons_cons (w w' : String) (ws : List String) :
    joinSize (w :: w' :: ws) = w.utf8ByteSize + 1 + joinSize (w' :: ws) := by
  unfold joinSize
  rw [String.intercalate_cons_cons, String.utf8ByteSize_append, String.utf8ByteSize_append]
  rfl

theorem joinSize_mono {ws ws' : List String} (h : ws <+: ws') : joinSize ws ≤ joinSize ws' := by
  induction ws generalizing ws' with
  | nil => exact Nat.zero_le _
  | cons w ws ih =>
    obtain ⟨t, rfl⟩ := h
    cases ws with
    | nil =>
      cases t with
      | nil => exact le_rfl
      | cons v t =>
        rw [List.singleton_append, joinSize_singleton, joinSize_cons_cons]
        omega
    | cons w' ws =>
      have htail := ih (List.prefix_append (w' :: ws) t)
      rw [List.cons_append, List.cons_append, joinSize_cons_cons, joinSize_cons_cons]
      rw [List.cons_append] at htail
      omega

/-- A character of a token takes one byte. -/
theorem utf8Size_of_isLabelChar {c : Char} (h : isLabelChar c = true) : c.utf8Size = 1 := by
  unfold isLabelChar at h
  rw [Bool.or_eq_true, decide_eq_true_eq, decide_eq_true_eq] at h
  have hval : c.val ≤ 0x7f := by
    rcases h with ⟨-, h⟩ | ⟨-, h⟩
    · have hz : c.val ≤ 'z'.val := h
      exact UInt32.le_trans hz (by decide)
    · have hnine : c.val ≤ '9'.val := h
      exact UInt32.le_trans hnine (by decide)
  exact if_pos hval

theorem utf8Len_eq_length {l : List Char} (h : ∀ c ∈ l, isLabelChar c = true) : String.utf8Len l = l.length := by
  induction l with
  | nil => rfl
  | cons c l ih =>
    rw [String.utf8Len_cons, ih fun c' hc' => h c' (List.mem_cons_of_mem c hc'),
      utf8Size_of_isLabelChar (h c List.mem_cons_self), List.length_cons]

theorem IsWord.size {w : String} (h : IsWord w) : w.utf8ByteSize = w.toList.length := by
  rw [← utf8Len_eq_length h.chars, ← String.utf8ByteSize_ofList, String.ofList_toList]

/-! ### The cut -/

theorem cutLabel_of_le {l : List Char} (h : l.length ≤ topicLabelMaxLen) : cutLabel l = l := by
  unfold cutLabel
  rw [if_neg (not_lt.mpr h)]

/-- A label without a hyphen within the limit is cut there. -/
theorem cutLabel_plain {l : List Char} (h : topicLabelMaxLen < l.length) (hno : '-' ∉ l.take topicLabelMaxLen) :
    cutLabel l = l.take topicLabelMaxLen := by
  have hnone : ((l.take topicLabelMaxLen).reverse.dropWhile (· ≠ '-')) = [] := by
    rw [List.dropWhile_eq_nil_iff]
    intro c hc
    refine decide_eq_true ?_
    rintro rfl
    exact hno (List.mem_reverse.mp hc)
  unfold cutLabel
  rw [if_pos h]
  dsimp only
  rw [hnone]
  rfl

/-- A label is cut at the last hyphen within the limit. -/
theorem cutLabel_hyphen {x y : List Char} (hx : x ≠ []) (h : topicLabelMaxLen < (x ++ '-' :: y).length)
    (hin : x.length < topicLabelMaxLen) (hlast : '-' ∉ y.take (topicLabelMaxLen - x.length - 1)) :
    cutLabel (x ++ '-' :: y) = x := by
  have hhead : (x ++ '-' :: y).take topicLabelMaxLen = x ++ '-' :: y.take (topicLabelMaxLen - x.length - 1) := by
    obtain ⟨n, hn⟩ : ∃ n, topicLabelMaxLen - x.length = n + 1 := ⟨topicLabelMaxLen - x.length - 1, by omega⟩
    rw [List.take_append, List.take_of_length_le hin.le, hn, List.take_succ_cons, Nat.add_sub_cancel]
  have hskip : (((y.take (topicLabelMaxLen - x.length - 1)).reverse ++ '-' :: x.reverse).dropWhile (· ≠ '-')) =
      '-' :: x.reverse := by
    rw [List.dropWhile_append_of_pos]
    · rfl
    · intro c hc
      refine decide_eq_true ?_
      rintro rfl
      exact hlast (List.mem_reverse.mp hc)
  unfold cutLabel
  rw [if_pos h]
  dsimp only
  rw [hhead, List.reverse_append, List.reverse_cons, List.append_assoc, List.singleton_append, hskip, List.tail_cons,
    List.reverse_reverse, if_neg (by simpa using hx)]

/-! ### Labels -/

/-- Words fit a label. -/
structure Fits (ws : List String) : Prop where
  count : ws.length ≤ topicLabelMaxTokens
  size : joinSize ws ≤ topicLabelMaxLen

/-- The longest prefix of the words that fits. -/
structure LongestFitting (words p : List String) : Prop where
  isPrefix : p <+: words
  fits : Fits p
  longest : ∀ p', p' <+: words → Fits p' → p'.length ≤ p.length

/-- A label of whole words: empty when there is no word, else the longest prefix that fits; a first word that does not
fit by itself is cut. -/
structure WholeTokens (words : List String) (label : String) : Prop where
  empty : label = "" ↔ words = []
  whole : ∀ first rest, words = first :: rest → first.utf8ByteSize ≤ topicLabelMaxLen →
    ∃ p, LongestFitting words p ∧ label = "-".intercalate p
  cut : ∀ first rest, words = first :: rest → topicLabelMaxLen < first.utf8ByteSize →
    label = String.ofList (first.toList.take topicLabelMaxLen)

/-- There is a third word, and the first two fill the label. -/
def Filled (words : List String) : Prop :=
  ∃ first second third rest, words = first :: second :: third :: rest ∧ joinSize [first, second] = topicLabelMaxLen

/-- The label that is made of some words. -/
def labelOf (words : List String) : String :=
  String.ofList (cutLabel ("-".intercalate (words.take topicLabelMaxTokens)).toList)

/-- A prefix is the longest that fits when one word more does not. -/
theorem LongestFitting.of_next {words p : List String} (hpre : p <+: words) (hfits : Fits p)
    (hnext : ∀ w, p ++ [w] <+: words → p.length < topicLabelMaxTokens → topicLabelMaxLen < joinSize (p ++ [w])) :
    LongestFitting words p := by
  refine ⟨hpre, hfits, fun p' hpre' hfits' => not_lt.mp fun hlt => ?_⟩
  obtain ⟨t, rfl⟩ := List.prefix_of_prefix_length_le hpre hpre' hlt.le
  cases t with
  | nil =>
    rw [List.append_nil] at hlt
    exact lt_irrefl _ hlt
  | cons w t =>
    have hmore : p ++ [w] <+: p ++ w :: t := ⟨t, by rw [List.append_assoc, List.singleton_append]⟩
    have hsize := hnext w (hmore.trans hpre') (hlt.trans_le hfits'.count)
    exact absurd ((joinSize_mono hmore).trans hfits'.size) (not_le.mpr hsize)

/-! ### What is made of the words -/

section LabelOf

variable {words p t : List String} {w : String}

theorem toList_intercalate_append (hp : p ≠ []) : ("-".intercalate (p ++ w :: t)).toList =
    ("-".intercalate p).toList ++ '-' :: ("-".intercalate (w :: t)).toList := by
  rw [String.intercalate_append_of_ne_nil hp (List.cons_ne_nil w t), String.toList_append, String.toList_append,
    List.append_assoc]
  rfl

theorem toList_intercalate_cons (w : String) (t : List String) :
    ∃ tail, ("-".intercalate (w :: t)).toList = w.toList ++ tail := by
  cases t with
  | nil => exact ⟨[], by rw [String.intercalate_singleton, List.append_nil]⟩
  | cons v t => exact ⟨_, by rw [String.intercalate_cons_cons, String.append_assoc, String.toList_append]⟩

/-- The size of words is the number of their characters. -/
theorem joinSize_eq_length (h : ∀ v ∈ p, IsWord v) : joinSize p = ("-".intercalate p).toList.length := by
  induction p with
  | nil => rfl
  | cons v p ih =>
    have hv := (h v List.mem_cons_self).size
    cases p with
    | nil => rw [joinSize_singleton, String.intercalate_singleton, hv]
    | cons v' p =>
      have htail := ih fun u hu => h u (List.mem_cons_of_mem v hu)
      rw [joinSize_cons_cons, htail, hv, String.intercalate_cons_cons, String.toList_append, String.toList_append,
        List.length_append, List.length_append]
      rfl

theorem labelOf_fits (hwords : ∀ v ∈ words, IsWord v)
    (h : joinSize (words.take topicLabelMaxTokens) ≤ topicLabelMaxLen) :
    labelOf words = "-".intercalate (words.take topicLabelMaxTokens) := by
  rw [joinSize_eq_length fun v hv => hwords v (List.mem_of_mem_take hv)] at h
  unfold labelOf
  rw [cutLabel_of_le h, String.ofList_toList]

/-- A first word that is at the limit or over it. -/
theorem labelOf_first (hw : IsWord w) (hsize : topicLabelMaxLen ≤ w.utf8ByteSize)
    (hlong : topicLabelMaxLen < joinSize ((w :: t).take topicLabelMaxTokens)) (hwords : ∀ v ∈ t, IsWord v) :
    labelOf (w :: t) = String.ofList (w.toList.take topicLabelMaxLen) := by
  have htake : (w :: t).take topicLabelMaxTokens = w :: t.take 2 := rfl
  have hall : ∀ v ∈ w :: t.take 2, IsWord v := by
    intro v hv
    rcases List.mem_cons.mp hv with rfl | hv
    · exact hw
    · exact hwords v (List.mem_of_mem_take hv)
  unfold labelOf
  rw [htake] at hlong ⊢
  rw [joinSize_eq_length hall] at hlong
  -- the first word alone is longer than the limit, so the cut falls into it
  obtain ⟨tail, htail⟩ := toList_intercalate_cons w (t.take 2)
  rw [htail] at hlong ⊢
  rw [hw.size] at hsize
  have hhead : (w.toList ++ tail).take topicLabelMaxLen = w.toList.take topicLabelMaxLen :=
    List.take_append_of_le_length hsize
  rw [cutLabel_plain hlong, hhead]
  rw [hhead]
  -- a word has no hyphen that the trim would take off
  intro hmem
  exact ne_hyphen (hw.chars _ (List.mem_of_mem_take hmem)) rfl

/-- The last hyphen within the limit is the one behind `p`. -/
theorem labelOf_cut (hwords : ∀ v ∈ words, IsWord v) (hp : p ≠ [])
    (htake : words.take topicLabelMaxTokens = p ++ w :: t) (hsize : joinSize p < topicLabelMaxLen)
    (hnext : topicLabelMaxLen ≤ joinSize (p ++ [w])) (hlong : topicLabelMaxLen < joinSize (p ++ w :: t)) :
    labelOf words = "-".intercalate p := by
  have hall : ∀ v ∈ p ++ w :: t, IsWord v := fun v hv => hwords v (List.mem_of_mem_take (htake ▸ hv))
  have hallp : ∀ v ∈ p, IsWord v := fun v hv => hall v (List.mem_append_left _ hv)
  have hw : IsWord w := hall w (List.mem_append_right _ List.mem_cons_self)
  have hallpw : ∀ v ∈ p ++ [w], IsWord v := by
    intro v hv
    rcases List.mem_append.mp hv with hv | hv
    · exact hallp v hv
    · exact List.mem_singleton.mp hv ▸ hw
  rw [joinSize_eq_length hallp] at hsize
  rw [joinSize_eq_length hall, toList_intercalate_append hp] at hlong
  rw [joinSize_eq_length hallpw, toList_intercalate_append hp, String.intercalate_singleton, List.length_append,
    List.length_cons] at hnext
  obtain ⟨tail, htail⟩ := toList_intercalate_cons w t
  have hne : ("-".intercalate p).toList ≠ [] := by
    obtain ⟨v, p, rfl⟩ := List.exists_cons_of_ne_nil hp
    obtain ⟨tail', htail'⟩ := toList_intercalate_cons v p
    rw [htail']
    refine List.append_ne_nil_of_left_ne_nil (fun hnil => (hallp v List.mem_cons_self).nonempty ?_) tail'
    exact String.toList_eq_nil_iff.mp hnil
  unfold labelOf
  rw [htake, toList_intercalate_append hp, cutLabel_hyphen hne hlong hsize, String.ofList_toList]
  -- the rest of the limit lies within the next word
  rw [htail, List.take_append_of_le_length (by omega)]
  exact fun hmem => ne_hyphen (hw.chars _ (List.mem_of_mem_take hmem)) rfl

end LabelOf

/-- No prefix that fits is longer. -/
theorem LongestFitting.length_le {words p p' : List String} (h : LongestFitting words p) (hpre : p' <+: words)
    (hfits : Fits p') : joinSize p' ≤ joinSize p :=
  joinSize_mono (List.prefix_of_prefix_length_le hpre h.isPrefix (h.longest p' hpre hfits))

theorem IsWord.size_pos {w : String} (h : IsWord w) : 0 < w.utf8ByteSize := by
  rw [h.size, List.length_pos_iff]
  exact fun hnil => h.nonempty (String.toList_eq_nil_iff.mp hnil)

/-- The label when the first word fits and the label is not filled by two words. -/
theorem exists_longest {first : String} {rest : List String} (hwords : ∀ v ∈ first :: rest, IsWord v)
    (hfirst : first.utf8ByteSize ≤ topicLabelMaxLen) (hfilled : ¬ Filled (first :: rest)) :
    ∃ p, LongestFitting (first :: rest) p ∧ labelOf (first :: rest) = "-".intercalate p := by
  have hpre : (first :: rest).take topicLabelMaxTokens <+: first :: rest := List.take_prefix _ _
  by_cases hlong : joinSize ((first :: rest).take topicLabelMaxTokens) ≤ topicLabelMaxLen
  · refine ⟨_, .of_next hpre ⟨List.length_take_le _ _, hlong⟩ fun w hw hcount => ?_, labelOf_fits hwords hlong⟩
    -- then these are all the words
    have hlen := hw.length_le
    rw [List.length_append, List.length_singleton, List.length_take] at hlen
    rw [List.length_take] at hcount
    omega
  rw [not_le] at hlong
  have htake : (first :: rest).take topicLabelMaxTokens = first :: rest.take 2 := rfl
  cases rest with
  | nil =>
    rw [htake, List.take_nil, joinSize_singleton] at hlong
    exact absurd hfirst (not_le.mpr hlong)
  | cons second rest =>
    by_cases htwo : joinSize [first, second] ≤ topicLabelMaxLen
    · cases rest with
      | nil => exact absurd htwo (not_le.mpr hlong)
      | cons third rest =>
        have hsize : joinSize [first, second] < topicLabelMaxLen :=
          lt_of_le_of_ne htwo fun heq => hfilled ⟨first, second, third, rest, rfl, heq⟩
        refine ⟨[first, second], .of_next ⟨third :: rest, rfl⟩ ⟨Nat.le_succ 2, htwo⟩ fun w hw _ => ?_, ?_⟩
        · obtain ⟨t, ht⟩ := hw
          obtain rfl : w = third := Option.some.inj (congrArg (fun l : List String => l[2]?) ht)
          exact hlong
        · exact labelOf_cut hwords (List.cons_ne_nil _ _) rfl hsize hlong.le hlong
    · rw [not_le] at htwo
      refine ⟨[first], .of_next ⟨second :: rest, rfl⟩ ⟨Nat.le_add_left 1 2, ?_⟩ fun w hw _ => ?_, ?_⟩
      · rwa [joinSize_singleton]
      · obtain ⟨t, ht⟩ := hw
        obtain rfl : w = second := Option.some.inj (congrArg (fun l : List String => l[1]?) ht)
        exact htwo
      · rcases hfirst.lt_or_eq with hlt | heq
        · exact labelOf_cut hwords (List.cons_ne_nil _ _) rfl (by rwa [joinSize_singleton]) htwo.le hlong
        · have hw := hwords first List.mem_cons_self
          rw [labelOf_first hw heq.ge hlong fun v hv => hwords v (List.mem_cons_of_mem _ hv),
            String.intercalate_singleton, ← heq, hw.size, List.take_length, String.ofList_toList]

theorem labelOf_nil : labelOf [] = "" := rfl

/-- A label that two words fill loses the second. -/
theorem labelOf_filled {first second third : String} {rest : List String}
    (hwords : ∀ v ∈ first :: second :: third :: rest, IsWord v)
    (hsize : joinSize [first, second] = topicLabelMaxLen) : labelOf (first :: second :: third :: rest) = first := by
  have hfirst : joinSize [first] < topicLabelMaxLen := by
    rw [joinSize_cons_cons] at hsize
    rw [joinSize_singleton]
    omega
  have hlong : topicLabelMaxLen < joinSize ([first] ++ second :: [third]) := by
    show topicLabelMaxLen < joinSize (first :: second :: [third])
    rw [joinSize_cons_cons, joinSize_singleton] at hsize
    rw [joinSize_cons_cons, joinSize_cons_cons]
    omega
  rw [labelOf_cut hwords (List.cons_ne_nil first []) rfl hfirst hsize.ge hlong, String.intercalate_singleton]

/-- **The label of words** is one of whole words, unless two words fill it and there is a third. -/
theorem labelOf_whole_iff {words : List String} (hwords : ∀ v ∈ words, IsWord v) :
    WholeTokens words (labelOf words) ↔ ¬ Filled words := by
  constructor
  · rintro hwhole ⟨first, second, third, rest, rfl, hsize⟩
    have hfits : Fits [first, second] := ⟨Nat.le_succ 2, hsize.le⟩
    have hle : first.utf8ByteSize ≤ topicLabelMaxLen := by
      rw [joinSize_cons_cons] at hsize
      omega
    -- the longest prefix has the second word, the label has not
    obtain ⟨p, hp, hlabel⟩ := hwhole.whole first (second :: third :: rest) rfl hle
    have hlonger := hp.length_le ⟨third :: rest, rfl⟩ hfits
    rw [labelOf_filled hwords hsize] at hlabel
    have hp' : joinSize p = first.utf8ByteSize := by rw [joinSize, ← hlabel]
    rw [hp', joinSize_cons_cons] at hlonger
    omega
  · intro hfilled
    cases words with
    | nil => exact ⟨iff_of_true labelOf_nil rfl, nofun, nofun⟩
    | cons first rest =>
      have hw := hwords first List.mem_cons_self
      have hne : first :: rest ≠ [] := List.cons_ne_nil first rest
      rcases le_or_gt first.utf8ByteSize topicLabelMaxLen with hle | hgt
      · obtain ⟨p, hp, hlabel⟩ := exists_longest hwords hle hfilled
        have hsize : joinSize [first] ≤ joinSize p :=
          hp.length_le ⟨rest, rfl⟩ ⟨Nat.le_add_left 1 2, by rwa [joinSize_singleton]⟩
        refine ⟨iff_of_false (fun hempty => ?_) hne, ?_, ?_⟩
        · have hzero : joinSize p = 0 := by rw [joinSize, ← hlabel, hempty, String.utf8ByteSize_empty]
          rw [joinSize_singleton, hzero] at hsize
          exact absurd hw.size_pos (not_lt.mpr hsize)
        · rintro first' rest' heq -
          obtain ⟨rfl, rfl⟩ := List.cons.inj heq
          exact ⟨p, hp, hlabel⟩
        · rintro first' rest' heq hgt
          obtain ⟨rfl, rfl⟩ := List.cons.inj heq
          exact absurd hle (not_le.mpr hgt)
      · have hlong : topicLabelMaxLen < joinSize ((first :: rest).take topicLabelMaxTokens) := by
          refine hgt.trans_le ?_
          rw [← joinSize_singleton]
          exact joinSize_mono ⟨rest.take 2, rfl⟩
        have hcut := labelOf_first hw hgt.le hlong fun v hv => hwords v (List.mem_cons_of_mem _ hv)
        refine ⟨iff_of_false (fun hempty => ?_) hne, ?_, ?_⟩
        · have hchars : first.toList.take topicLabelMaxLen = [] := by
            rw [← String.toList_ofList (l := first.toList.take topicLabelMaxLen), ← hcut, hempty]
            rfl
          have hlen := congrArg List.length hchars
          rw [List.length_take, ← hw.size, min_eq_left hgt.le] at hlen
          exact absurd hlen (by decide)
        · rintro first' rest' heq hle
          obtain ⟨rfl, rfl⟩ := List.cons.inj heq
          exact absurd hle (not_le.mpr hgt)
        · rintro first' rest' heq -
          obtain ⟨rfl, rfl⟩ := List.cons.inj heq
          exact hcut

/-- **Topic labels.** For every query, the label is made of whole words, and of the longest prefix of them that fits,
exactly when it is not the case that there is a third word while the first two fill the limit. -/
theorem whole_tokens_iff (query : String) :
    WholeTokens (labelWords query) (extractTopicLabel query) ↔ ¬ Filled (labelWords query) := by
  have hlabel : extractTopicLabel query = labelOf (labelWords query) := by
    unfold extractTopicLabel labelOf
    rw [picked_eq]
  rw [hlabel]
  exact labelOf_whole_iff fun v hv => isWord_of_mem hv

/-- **A word is lost.** The first two words have 20 and 19 letters, and with their hyphen fill the limit of 40. -/
theorem second_word_lost :
    extractTopicLabel "internationalization configurationloader parser" = "internationalization" ∧
      ¬ WholeTokens (labelWords "internationalization configurationloader parser")
        (extractTopicLabel "internationalization configurationloader parser") := by
  have hwords : labelWords "internationalization configurationloader parser" =
      ["internationalization", "configurationloader", "parser"] := by decide +kernel
  have hlabel : extractTopicLabel "internationalization configurationloader parser" = "internationalization" := by
    decide +kernel
  refine ⟨hlabel, fun hwhole => ?_⟩
  rw [hwords, hlabel] at hwhole
  obtain ⟨p, hp, heq⟩ := hwhole.whole _ _ rfl (by decide)
  have hlonger : joinSize ["internationalization", "configurationloader"] ≤ joinSize p :=
    hp.length_le ⟨["parser"], rfl⟩ ⟨by decide, by decide +kernel⟩
  rw [joinSize, joinSize, ← heq] at hlonger
  exact absurd hlonger (by decide +kernel)

end Devrouter
