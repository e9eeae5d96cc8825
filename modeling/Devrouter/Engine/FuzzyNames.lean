import Devrouter.Engine.Tables
import Devrouter.Lib.EditDistance
import Mathlib.Algebra.Order.Field.Basic
import Mathlib.Algebra.Order.Field.Rat
import Mathlib.Data.List.Sort
import Mathlib.Tactic.Common
import Mathlib.Tactic.NormNum
import Mathlib.Tactic.Positivity

/-!
# The fuzzy fallback of the search

Model of `boundedEditDistance` in `codegraph/src/search/query-parser.ts` and of `searchNodesFuzzy` in
`codegraph/src/db/queries.ts`. The distance is computed row by row of the usual table, and given up at the first row
that is too far off. `rows_spec` is the invariant of the rows, and `boundedEditDistance_spec` what comes of it.

Texts are compared by the code units of their lower-case forms, which `fold` gives.
-/

namespace Devrouter.Engine

open EditDistance

/-! ### The table -/

section Table

variable {α : Type} [DecidableEq α]

/-- The cells of a row behind its first, from the row before. -/
def rowFrom (x : α) : ℕ → List ℕ → List α → List ℕ
  | left, diag :: up :: ups, y :: ys =>
    let cell := min (min (left + 1) (up + 1)) (diag + if x = y then 0 else 1)
    cell :: rowFrom x cell (up :: ups) ys
  | _, _, _ => []

/-- The rows that are left, when `prev` is the last one. -/
def rows (b : List α) (maxDist : ℕ) : ℕ → List ℕ → List α → ℕ
  | _, prev, [] => prev.getD b.length 0
  | i, prev, x :: xs =>
    let cur := i :: rowFrom x i prev b
    let rowMin := cur.foldl min i
    if maxDist < rowMin then maxDist + 1 else rows b maxDist (i + 1) cur xs

def boundedEditDistance (a b : List α) (maxDist : ℕ) : ℕ :=
  if a = b then 0
  else if maxDist < (a.length - b.length) + (b.length - a.length) then maxDist + 1
  else if a = [] then b.length
  else if b = [] then a.length
  else rows b maxDist 1 (List.range (b.length + 1)) a

/-- The distances of `a` from `b` and from what follows it. -/
noncomputable def cells (a b : List α) : List α → List ℕ
  | [] => [dist a b]
  | y :: ys => dist a b :: cells a (b ++ [y]) ys

theorem cells_eq_cons (a b ys : List α) : cells a b ys = dist a b :: (cells a b ys).tail := by
  cases ys <;> rfl

theorem cells_nil (b ys : List α) : cells [] b ys = (List.range (ys.length + 1)).map (b.length + ·) := by
  induction ys generalizing b with
  | nil => exact congrArg (· :: []) (dist_nil_left b)
  | cons y ys ih =>
    have hshift : ∀ k, (b ++ [y]).length + k = b.length + (k + 1) := by
      intro k
      rw [List.length_append, List.length_singleton]
      omega
    rw [cells, dist_nil_left, ih, List.length_cons, List.range_succ_eq_map (n := ys.length + 1), List.map_cons,
      List.map_map]
    exact congrArg _ (List.map_congr_left fun k _ => hshift k)

theorem getD_cells (a b ys : List α) : (cells a b ys).getD ys.length 0 = dist a (b ++ ys) := by
  induction ys generalizing b with
  | nil => rw [List.append_nil]; rfl
  | cons y ys ih => exact (ih (b ++ [y])).trans (by rw [← List.append_cons])

theorem dist_mem_cells (a b : List α) {ys : List α} {j : ℕ} (h : j ≤ ys.length) :
    dist a (b ++ ys.take j) ∈ cells a b ys := by
  induction ys generalizing b j with
  | nil => rw [List.take_nil, List.append_nil]; exact List.mem_singleton_self _
  | cons y ys ih =>
    cases j with
    | zero => rw [List.take_zero, List.append_nil]; exact List.mem_cons_self
    | succ j =>
      rw [List.take_succ_cons, List.append_cons]
      exact List.mem_cons_of_mem _ (ih (b ++ [y]) (Nat.le_of_succ_le_succ h))

/-- **A row from the row before.** -/
theorem rowFrom_cells (a b : List α) (x : α) (ys : List α) :
    dist (a ++ [x]) b :: rowFrom x (dist (a ++ [x]) b) (cells a b ys) ys = cells (a ++ [x]) b ys := by
  induction ys generalizing b with
  | nil => rfl
  | cons y ys ih =>
    have hcell := dist_snoc a b x y
    rw [cells, cells, ← ih (b ++ [y]), cells_eq_cons a (b ++ [y]) ys, rowFrom, ← hcell]

theorem foldl_min_le {l : List ℕ} {m k : ℕ} (h : k ∈ l) : l.foldl min m ≤ k := by
  have hle : ∀ (l : List ℕ) (m : ℕ), l.foldl min m ≤ m := fun l m =>
    List.foldlRecOn (motive := (· ≤ m)) l min le_rfl fun _ hb _ _ => (min_le_left _ _).trans hb
  induction l generalizing m with
  | nil => exact absurd h List.not_mem_nil
  | cons c l ih =>
    obtain rfl | h := List.mem_cons.mp h
    · exact (hle l _).trans (min_le_right m k)
    · exact ih h

/-- **The loop over the rows** ends with the distance, or it gives up on two texts that are too far apart. -/
theorem rows_spec (a b xs : List α) (maxDist : ℕ) :
    rows b maxDist (a.length + 1) (cells a [] b) xs = dist (a ++ xs) b ∨
      maxDist < dist (a ++ xs) b ∧ rows b maxDist (a.length + 1) (cells a [] b) xs = maxDist + 1 := by
  induction xs generalizing a with
  | nil =>
    left
    rw [rows, getD_cells, List.nil_append, List.append_nil]
  | cons x xs ih =>
    have hfirst : dist (a ++ [x]) [] = a.length + 1 := by
      rw [dist_nil_right, List.length_append, List.length_singleton]
    have hcur : (a.length + 1) :: rowFrom x (a.length + 1) (cells a [] b) b = cells (a ++ [x]) [] b := by
      rw [← rowFrom_cells a [] x b, hfirst]
    have hsnoc : a ++ x :: xs = a ++ [x] ++ xs := List.append_cons a x xs
    rw [rows, hcur, hsnoc]
    split
    · -- every front of the second text is too far from this front of the first
      rename_i hfar
      obtain ⟨j, hj, hle⟩ := exists_dist_take_le (a ++ [x] ++ xs) b (a ++ [x]).length
      rw [List.take_left] at hle
      have hcell := foldl_min_le (m := a.length + 1) (dist_mem_cells (a ++ [x]) [] hj)
      exact .inr ⟨hfar.trans_le (hcell.trans hle), rfl⟩
    · have hlen : a.length + 1 + 1 = (a ++ [x]).length + 1 := by rw [List.length_append, List.length_singleton]
      rw [hlen]
      exact ih (a ++ [x])

/-- **The bounded distance is the edit distance**, but where that exceeds the bound it may be the bound and one. -/
theorem boundedEditDistance_spec (a b : List α) (maxDist : ℕ) :
    boundedEditDistance a b maxDist = dist a b ∨
      maxDist < dist a b ∧ boundedEditDistance a b maxDist = maxDist + 1 := by
  unfold boundedEditDistance
  split
  · rename_i heq
    rw [heq]
    exact .inl (dist_self b).symm
  split
  · rename_i hfar
    obtain ⟨hab, hba⟩ := length_le_dist a b
    exact .inr ⟨by omega, rfl⟩
  split
  · rename_i hnil
    rw [hnil]
    exact .inl (dist_nil_left b).symm
  split
  · rename_i hnil
    rw [hnil]
    exact .inl (dist_nil_right a).symm
  · have hfirst : List.range (b.length + 1) = cells [] [] b := by
      rw [cells_nil, List.length_nil]
      simp
    rw [hfirst]
    exact rows_spec [] b a maxDist

theorem boundedEditDistance_le_iff {a b : List α} {maxDist : ℕ} :
    boundedEditDistance a b maxDist ≤ maxDist ↔ Within maxDist a b := by
  rw [← dist_le_iff]
  obtain h | ⟨hfar, h⟩ := boundedEditDistance_spec a b maxDist
  · rw [h]
  · exact iff_of_false (by omega) (not_le.mpr hfar)

theorem boundedEditDistance_of_le {a b : List α} {maxDist : ℕ} (h : boundedEditDistance a b maxDist ≤ maxDist) :
    boundedEditDistance a b maxDist = dist a b := by
  obtain heq | ⟨-, heq⟩ := boundedEditDistance_spec a b maxDist
  · exact heq
  · omega

end Table

/-! ### The search -/

/-- The distinct names, in no order that matters. -/
def Tables.getAllNodeNames (t : Tables) : List String := (t.nodes.map (·.name)).dedup

structure SearchResult where
  node : Node
  score : ℚ
  deriving DecidableEq

namespace Fuzzy

structure Candidate where
  name : String
  dist : ℕ
  deriving DecidableEq

/-- The filters of a search; an empty list lets everything through. -/
structure Options where
  kinds : List String := []
  languages : List String := []
  limit : ℕ

variable (fold : String → List UInt16) (t : Tables) (text : String) (opts : Options)

def maxDist : ℕ := if (fold text).length ≤ 4 then 1 else 2

def candidates : List Candidate :=
  (t.getAllNodeNames.filterMap fun name =>
    let dist := boundedEditDistance (fold name) (fold text) (maxDist fold text)
    if dist ≤ maxDist fold text then some ⟨name, dist⟩ else none).insertionSort (·.dist ≤ ·.dist)

def followupCap : ℕ := max (opts.limit * 2) 50

def Options.Allows (r : NodeRow) : Prop :=
  (opts.kinds = [] ∨ r.kind ∈ opts.kinds) ∧ (opts.languages = [] ∨ r.language ∈ opts.languages)

instance (r : NodeRow) : Decidable (opts.Allows r) := inferInstanceAs (Decidable (_ ∧ _))

/-- The rows of a name that pass the filters. -/
def rowsNamed (name : String) : List NodeRow := t.nodes.filter fun r => r.name = name ∧ opts.Allows r

def result (dist : ℕ) (row : NodeRow) : SearchResult := ⟨rowToNode row, 1 / (1 + dist)⟩

/-- The loop over the rows of a name; `found` are the results so far, and `seen` their ids. -/
def addRows (limit dist : ℕ) : List NodeRow → List SearchResult → List String → List SearchResult × List String
  | [], found, seen => (found, seen)
  | row :: rows, found, seen =>
    if row.id ∈ seen then addRows limit dist rows found seen
    else
      let found' := found ++ [result dist row]
      if limit ≤ found'.length then (found', seen ++ [row.id]) else addRows limit dist rows found' (seen ++ [row.id])

/-- The loop over the names. -/
def followUp : List Candidate → List SearchResult → List String → List SearchResult
  | [], found, _ => found
  | c :: cs, found, seen =>
    if opts.limit ≤ found.length then found
    else
      let r := addRows opts.limit c.dist ((rowsNamed t opts c.name).take 5) found seen
      followUp cs r.1 r.2

def searchNodesFuzzy : List SearchResult :=
  followUp t opts ((candidates fold t text).take (followupCap opts)) [] []

/-! ### What it finds -/

variable {fold t text opts}

theorem mem_candidates {c : Candidate} : c ∈ candidates fold t text ↔
    c.name ∈ t.getAllNodeNames ∧ Within (maxDist fold text) (fold c.name) (fold text) ∧
      c.dist = dist (fold c.name) (fold text) := by
  unfold candidates
  rw [List.mem_insertionSort, List.mem_filterMap]
  constructor
  · rintro ⟨name, hname, hc⟩
    dsimp only at hc
    split at hc
    · rename_i hle
      obtain rfl := Option.some.inj hc
      exact ⟨hname, boundedEditDistance_le_iff.mp hle, boundedEditDistance_of_le hle⟩
    · exact absurd hc nofun
  · rintro ⟨hname, hwithin, hdist⟩
    have hle := boundedEditDistance_le_iff.mpr hwithin
    refine ⟨c.name, hname, ?_⟩
    dsimp only
    rw [if_pos hle, boundedEditDistance_of_le hle, ← hdist]

theorem candidates_sorted : (candidates fold t text).Pairwise (·.dist ≤ ·.dist) :=
  List.pairwise_insertionSort _ _

theorem candidates_names : ((candidates fold t text).map (·.name)).Nodup := by
  have hnames : (t.getAllNodeNames.filterMap fun name =>
      let dist := boundedEditDistance (fold name) (fold text) (maxDist fold text)
      if dist ≤ maxDist fold text then some (⟨name, dist⟩ : Candidate) else none).map (·.name) =
        t.getAllNodeNames.filter fun name =>
          boundedEditDistance (fold name) (fold text) (maxDist fold text) ≤ maxDist fold text := by
    rw [List.map_filterMap, ← List.filterMap_eq_filter]
    refine List.filterMap_congr fun name _ => ?_
    dsimp only
    split
    · rename_i hle
      simp [Option.guard, hle]
    · rename_i hle
      simp [Option.guard, hle]
  have hperm := (List.perm_insertionSort (·.dist ≤ ·.dist) (t.getAllNodeNames.filterMap fun name =>
    let dist := boundedEditDistance (fold name) (fold text) (maxDist fold text)
    if dist ≤ maxDist fold text then some (⟨name, dist⟩ : Candidate) else none)).map (·.name)
  exact hperm.nodup_iff.mpr (hnames ▸ (List.nodup_dedup _).filter _)

/-- Rows whose ids are new are all taken, up to the limit. -/
theorem addRows_eq (dist : ℕ) {limit : ℕ} {rows : List NodeRow} {found : List SearchResult} {seen : List String}
    (hlen : found.length < limit) (hrows : (rows.map (·.id)).Nodup) (hnew : ∀ r ∈ rows, r.id ∉ seen) :
    (addRows limit dist rows found seen).1 = (found ++ rows.map (result dist)).take limit ∧
      ∃ k, (addRows limit dist rows found seen).2 = seen ++ (rows.map (·.id)).take k := by
  induction rows generalizing found seen with
  | nil =>
    rw [addRows, List.map_nil, List.append_nil, List.take_of_length_le hlen.le]
    exact ⟨rfl, 0, by rw [List.take_zero, List.append_nil]⟩
  | cons row rows ih =>
    obtain ⟨hrow, hrows⟩ := List.nodup_cons.mp hrows
    have hsnoc : (found ++ [result dist row]).length = found.length + 1 := List.length_append
    have hmap : found ++ (row :: rows).map (result dist) = found ++ [result dist row] ++ rows.map (result dist) := by
      rw [List.map_cons, List.append_cons]
    rw [addRows, if_neg (hnew row List.mem_cons_self)]
    dsimp only
    rw [hmap]
    split
    · rename_i hfull
      have heq : (found ++ [result dist row]).length = limit := by omega
      rw [← heq, List.take_left]
      exact ⟨rfl, 1, rfl⟩
    · rename_i hroom
      have hnew' : ∀ r ∈ rows, r.id ∉ seen ++ [row.id] := by
        intro r hr hmem
        obtain hmem | hmem := List.mem_append.mp hmem
        · exact hnew r (List.mem_cons_of_mem row hr) hmem
        · exact hrow (List.mem_map.mpr ⟨r, hr, List.mem_singleton.mp hmem⟩)
      obtain ⟨hfound, k, hseen⟩ := ih (not_le.mp hroom) hrows hnew'
      refine ⟨hfound, k + 1, ?_⟩
      rw [hseen, List.map_cons, List.take_succ_cons, List.append_assoc, List.singleton_append]

theorem nodup_rowsNamed (h : t.ids.Nodup) (name : String) : (((rowsNamed t opts name).take 5).map (·.id)).Nodup :=
  (h.sublist (List.filter_sublist.map _)).sublist ((List.take_sublist 5 _).map _)

theorem name_of_mem_rowsNamed {name : String} {r : NodeRow} (h : r ∈ (rowsNamed t opts name).take 5) :
    r ∈ t.nodes ∧ r.name = name ∧ opts.Allows r := by
  obtain ⟨hr, hp⟩ := List.mem_filter.mp (List.mem_of_mem_take h)
  exact ⟨hr, of_decide_eq_true hp⟩

/-- Two rows with one id are the same row. -/
theorem eq_of_id (h : t.ids.Nodup) {r s : NodeRow} (hr : r ∈ t.nodes) (hs : s ∈ t.nodes) (heq : r.id = s.id) : r = s :=
  List.inj_on_of_nodup_map h hr hs heq

/-- The results that the names give, before the limit. -/
def offered (t : Tables) (opts : Options) (cs : List Candidate) : List SearchResult :=
  cs.flatMap fun c => ((rowsNamed t opts c.name).take 5).map (result c.dist)

theorem take_take_append {β : Type} (l m : List β) (n : ℕ) : (l.take n ++ m).take n = (l ++ m).take n := by
  rw [List.take_append, List.take_append, List.take_take, min_self, List.length_take]
  congr 2
  omega

theorem followUp_eq (h : t.ids.Nodup) {cs : List Candidate} {found : List SearchResult} {seen : List String}
    (hlen : found.length ≤ opts.limit) (hnames : (cs.map (·.name)).Nodup)
    (hnew : ∀ c ∈ cs, ∀ r ∈ (rowsNamed t opts c.name).take 5, r.id ∉ seen) :
    followUp t opts cs found seen = (found ++ offered t opts cs).take opts.limit := by
  induction cs generalizing found seen with
  | nil =>
    rw [followUp, offered, List.flatMap_nil, List.append_nil, List.take_of_length_le hlen]
  | cons c cs ih =>
    obtain ⟨hc, hnames⟩ := List.nodup_cons.mp hnames
    have hoffered : offered t opts (c :: cs) =
        ((rowsNamed t opts c.name).take 5).map (result c.dist) ++ offered t opts cs := List.flatMap_cons
    rw [followUp, hoffered]
    split
    · rename_i hfull
      rw [List.take_append_of_le_length hfull, List.take_of_length_le hlen]
    · rename_i hroom
      obtain ⟨hfound, k, hseen⟩ := addRows_eq c.dist (not_le.mp hroom) (nodup_rowsNamed h c.name)
        (hnew c List.mem_cons_self)
      dsimp only
      rw [hfound, hseen, ih (List.length_take_le _ _) hnames fun d hd r hr hmem => ?_]
      · rw [take_take_append, List.append_assoc]
      · obtain ⟨hr', hname, -⟩ := name_of_mem_rowsNamed hr
        obtain hmem | hmem := List.mem_append.mp hmem
        · exact hnew d (List.mem_cons_of_mem c hd) r hr hmem
        · -- its name is that of another candidate
          obtain ⟨s, hs, heq⟩ := List.mem_map.mp (List.mem_of_mem_take hmem)
          obtain ⟨hs', hname', -⟩ := name_of_mem_rowsNamed hs
          obtain rfl := eq_of_id h hs' hr' heq
          exact hc (List.mem_map.mpr ⟨d, hd, hname.symm.trans hname'⟩)

theorem searchNodesFuzzy_eq (h : t.ids.Nodup) : searchNodesFuzzy fold t text opts =
    (offered t opts ((candidates fold t text).take (followupCap opts))).take opts.limit :=
  followUp_eq h (Nat.zero_le _) (candidates_names.sublist ((List.take_sublist _ _).map _))
    fun _ _ _ _ => List.not_mem_nil

theorem mem_offered {cs : List Candidate} {r : SearchResult} :
    r ∈ offered t opts cs ↔ ∃ c ∈ cs, ∃ row ∈ (rowsNamed t opts c.name).take 5, r = result c.dist row := by
  simp only [offered, List.mem_flatMap, List.mem_map, eq_comm]

theorem offered_sorted {cs : List Candidate} (h : cs.Pairwise (·.dist ≤ ·.dist)) :
    (offered t opts cs).Pairwise fun r s => s.score ≤ r.score := by
  refine List.pairwise_flatMap.mpr ⟨fun c _ => ?_, h.imp fun {c d} hle r hr s hs => ?_⟩
  · refine List.pairwise_map.mpr (List.pairwise_of_forall fun _ _ => le_rfl)
  · obtain ⟨row, -, rfl⟩ := List.mem_map.mp hr
    obtain ⟨row', -, rfl⟩ := List.mem_map.mp hs
    have hcast : (1 + (c.dist : ℚ)) ≤ 1 + (d.dist : ℚ) := by exact_mod_cast Nat.add_le_add_left hle 1
    exact one_div_le_one_div_of_le (by positivity) hcast

theorem offered_ids (h : t.ids.Nodup) {cs : List Candidate} (hcs : (cs.map (·.name)).Nodup) :
    ((offered t opts cs).map (·.node.id)).Nodup := by
  have hflat : (offered t opts cs).map (·.node.id) =
      cs.flatMap fun c => ((rowsNamed t opts c.name).take 5).map (·.id) := by
    rw [offered, List.map_flatMap]
    exact congrArg (fun f => cs.flatMap f) (funext fun c => List.map_map)
  rw [hflat]
  refine List.nodup_flatMap.mpr ⟨fun c _ => nodup_rowsNamed h c.name, ?_⟩
  refine (List.pairwise_map.mp hcs).imp fun {c d} hne => ?_
  refine fun id hc hd => hne ?_
  obtain ⟨r, hr, rfl⟩ := List.mem_map.mp hc
  obtain ⟨s, hs, heq⟩ := List.mem_map.mp hd
  obtain ⟨hr', hname, -⟩ := name_of_mem_rowsNamed hr
  obtain ⟨hs', hname', -⟩ := name_of_mem_rowsNamed hs
  rw [← hname, ← hname', eq_of_id h hs' hr' heq]

/-- **What the fuzzy fallback finds.** Only symbols that pass the filters and whose names are near, each once, the
nearest first. And it finds them all, when they are fewer than the limit, few names are near, and none of these names
has more than five rows. -/
theorem searchNodesFuzzy_spec (h : t.Consistent) :
    (∀ r ∈ searchNodesFuzzy fold t text opts, ∃ row ∈ t.nodes, r.node = rowToNode row ∧ opts.Allows row ∧
      Within (maxDist fold text) (fold row.name) (fold text) ∧ r.score = 1 / (1 + dist (fold row.name) (fold text))) ∧
    (searchNodesFuzzy fold t text opts).Pairwise (fun r s => s.score ≤ r.score) ∧
    ((searchNodesFuzzy fold t text opts).map (·.node.id)).Nodup ∧
    (searchNodesFuzzy fold t text opts).length ≤ opts.limit ∧
    ((searchNodesFuzzy fold t text opts).length < opts.limit →
      (∀ names : List String, names.Nodup →
        (∀ name ∈ names, name ∈ t.getAllNodeNames ∧ Within (maxDist fold text) (fold name) (fold text)) →
        names.length ≤ max (opts.limit * 2) 50) →
      ∀ row ∈ t.nodes, opts.Allows row → Within (maxDist fold text) (fold row.name) (fold text) →
        (rowsNamed t opts row.name).length ≤ 5 →
        ∃ r ∈ searchNodesFuzzy fold t text opts, r.node = rowToNode row) := by
  have hids : t.ids.Nodup := h.nodup_ids
  rw [searchNodesFuzzy_eq hids]
  set cs := (candidates fold t text).take (followupCap opts)
  have hcs : (cs.map (·.name)).Nodup := candidates_names.sublist ((List.take_sublist _ _).map _)
  have hsub := List.take_sublist opts.limit (offered t opts cs)
  refine ⟨fun r hr => ?_, ?_, ?_, List.length_take_le _ _, fun hfew hnear row hrow hallows hwithin hfive => ?_⟩
  · obtain ⟨c, hc, row, hrow, rfl⟩ := mem_offered.mp (List.mem_of_mem_take hr)
    obtain ⟨-, hwithin, hdist⟩ := mem_candidates.mp (List.mem_of_mem_take hc)
    obtain ⟨hmem, hname, hallows⟩ := name_of_mem_rowsNamed hrow
    refine ⟨row, hmem, rfl, hallows, hname ▸ hwithin, ?_⟩
    rw [hname, ← hdist]
    rfl
  · exact (offered_sorted (candidates_sorted.sublist (List.take_sublist _ _))).sublist hsub
  · exact (offered_ids hids hcs).sublist (hsub.map _)
  · -- no name is cut off, and no result is
    have hlen : (offered t opts cs).length < opts.limit := by
      rw [List.length_take] at hfew
      omega
    have hall : cs = candidates fold t text := by
      refine List.take_of_length_le ?_
      have hle := hnear ((candidates fold t text).map (·.name)) candidates_names fun name hname => ?_
      · rwa [List.length_map] at hle
      · obtain ⟨c, hc, rfl⟩ := List.mem_map.mp hname
        obtain ⟨hmem, hwithin, -⟩ := mem_candidates.mp hc
        exact ⟨hmem, hwithin⟩
    have hname : row.name ∈ t.getAllNodeNames := List.mem_dedup.mpr (List.mem_map.mpr ⟨row, hrow, rfl⟩)
    refine ⟨result (dist (fold row.name) (fold text)) row, ?_, rfl⟩
    rw [List.take_of_length_le hlen.le, hall]
    refine mem_offered.mpr ⟨⟨row.name, dist (fold row.name) (fold text)⟩, ?_, row, ?_, rfl⟩
    · exact mem_candidates.mpr ⟨hname, hwithin, rfl⟩
    · rw [List.take_of_length_le hfive]
      exact List.mem_filter.mpr ⟨hrow, decide_eq_true ⟨rfl, hallows⟩⟩

/-- The lower-case form of a text in ASCII. -/
def asciiFold (s : String) : List UInt16 := s.toList.map fun c => UInt16.ofNat c.toLower.toNat

/-- Two functions. -/
def twoFunctions : Tables where
  nodes := [nodeToRow ⟨"1", "function", "getUser", "getUser", "a.ts", "typescript", 0, 0, 0, 0, none, none, none, none,
      none, none, none, none, none, none, 0⟩,
    nodeToRow ⟨"2", "function", "parse", "parse", "a.ts", "typescript", 0, 0, 0, 0, none, none, none, none, none, none,
      none, none, none, none, 0⟩]

theorem searchNodesFuzzy_spec_typo :
    ∃ r ∈ searchNodesFuzzy asciiFold twoFunctions "getUssr" { limit := 10 }, r.node.name = "getUser" := by
  have hcons : twoFunctions.Consistent :=
    { nodup_ids := by decide, valid := by decide, source_mem := nofun, target_mem := nofun, fromNode_mem := nofun
      nodup_paths := List.nodup_nil }
  obtain ⟨-, -, -, -, hall⟩ :=
    @searchNodesFuzzy_spec asciiFold twoFunctions "getUssr" { limit := 10 } hcons
  have hfew : (searchNodesFuzzy asciiFold twoFunctions "getUssr" { limit := 10 }).length < 10 := by decide +kernel
  have hnames : ∀ names : List String, names.Nodup →
      (∀ name ∈ names, name ∈ twoFunctions.getAllNodeNames ∧
        Within (maxDist asciiFold "getUssr") (asciiFold name) (asciiFold "getUssr")) → names.length ≤ 50 := by
    intro names hnodup hmem
    have hle := (hnodup.subperm fun name hname => (hmem name hname).1).length_le
    exact hle.trans (by decide)
  have hwithin : Within (maxDist asciiFold "getUssr") (asciiFold "getUser") (asciiFold "getUssr") :=
    boundedEditDistance_le_iff.mp (by decide +kernel)
  obtain ⟨r, hr, hnode⟩ := hall hfew hnames _ List.mem_cons_self ⟨.inl rfl, .inl rfl⟩ hwithin (by decide)
  exact ⟨r, hr, congrArg Node.name hnode⟩

end Fuzzy

end Devrouter.Engine
