import Devrouter.Lib.SlashPath

/-!
# Paths under a root

A path names a directory or a file as seen from the working directory: its segments are walked from there, or from the
root of the machine when it is absolute (`resolved`). It lies inside another path when the walk of that one is the start
of its own. Joining and normalising change no walk (`resolved_normalize`, `resolved_join`).

A relative path first leaves some directories upwards and then goes down by names. Joined to a root it lies inside
exactly when its names begin with the directories it left (`inside_join_iff`).
-/

namespace SlashPath

/-- Where segments lead to from a directory. -/
def walk (dir segs : List Segment) : List Segment := segs.foldl (push true) dir

/-- What a path names, the last segment first. -/
def resolved (cwd p : List Char) : List Segment :=
  walk (if absolute p then [] else walk [] (cwd.splitOn '/')) (p.splitOn '/')

/-- A path **lies inside** a root. -/
def Inside (cwd base p : List Char) : Prop := resolved cwd base <:+ resolved cwd p

/-- How many directories are left upwards. -/
def climbs (p : List Char) : ℕ := (kept false (p.splitOn '/')).count ['.', '.']

/-- The names a path goes down by, the last one first. -/
def names (p : List Char) : List Segment := (kept false (p.splitOn '/')).filter (· ≠ ['.', '.'])

variable {dir stack segs : List Segment} {cwd base p : List Char}

@[simp] theorem walk_nil : walk dir [] = dir := rfl

@[simp] theorem walk_append (segs' : List Segment) : walk dir (segs ++ segs') = walk (walk dir segs) segs' :=
  List.foldl_append

@[simp] theorem walk_singleton (seg : Segment) : walk dir [seg] = push true dir seg := rfl

@[simp] theorem push_empty (abs : Bool) (stack : List Segment) : push abs stack [] = stack := if_pos (.inl rfl)

theorem notMem_splitOn : ∀ s ∈ p.splitOn '/', '/' ∉ s := fun _ hs => List.notMem_of_mem_splitOn hs

/-- Nothing is above the root of the machine. -/
theorem Settled.not_dots (h : Settled true stack) : ∀ s ∈ stack, s ≠ ['.', '.'] := by
  induction stack with
  | nil => exact fun s hs => absurd hs List.not_mem_nil
  | cons seg stack ih =>
    intro s hs heq
    obtain rfl | hs := List.mem_cons.mp hs
    · exact absurd (h.2.1 heq).1 (by simp)
    · exact ih h.tail s hs heq

theorem settled_walk (h : Settled true dir) (hsegs : ∀ s ∈ segs, '/' ∉ s) : Settled true (walk dir segs) :=
  h.foldl_push hsegs

/-- What a path names is settled. -/
theorem settled_resolved (cwd p : List Char) : Settled true (resolved cwd p) := by
  refine settled_walk ?_ notMem_splitOn
  split_ifs
  · exact trivial
  · exact settled_walk trivial notMem_splitOn

/-! ### Walking a normal form -/

/-- Pushing on a relative stack is pushing on its walk. -/
theorem walk_push (hs : Settled false stack) (seg : Segment) :
    walk dir (push false stack seg).reverse = push true (walk dir stack.reverse) seg := by
  have hcons : ∀ seg stack, walk dir (seg :: stack).reverse = push true (walk dir stack.reverse) seg := by
    intro seg stack
    rw [List.reverse_cons, walk_append, walk_singleton]
  by_cases hskip : seg = [] ∨ seg = ['.']
  · rw [push, push, if_pos hskip, if_pos hskip]
  by_cases hdots : seg = ['.', '.']
  · subst hdots
    cases stack with
    | nil => rfl
    | cons last rest =>
      obtain ⟨⟨hne, hdot, -⟩, -⟩ := hs
      by_cases hlast : last = ['.', '.']
      · -- a `..` is pushed on one that nothing can take back
        have hup : push false (last :: rest) ['.', '.'] = ['.', '.'] :: last :: rest := by
          rw [push, if_neg hskip, if_pos rfl, up, if_pos hlast]
        rw [hup, hcons]
      · -- the name is taken back on both sides
        have hup : push false (last :: rest) ['.', '.'] = rest := by
          rw [push, if_neg hskip, if_pos rfl, up, if_neg hlast]
        have hname : push true (walk dir rest.reverse) last = last :: walk dir rest.reverse := by
          rw [push, if_neg (by simp [hne, hdot]), if_neg hlast]
        rw [hup, hcons, hname, push, if_neg hskip, if_pos rfl, up, if_neg hlast]
  · -- a name is pushed on both sides
    rw [push, if_neg hskip, if_neg hdots, hcons]

/-- A relative path is walked as its normal form is. -/
theorem walk_kept (hsegs : ∀ s ∈ segs, '/' ∉ s) : walk dir (kept false segs).reverse = walk dir segs := by
  induction segs using List.reverseRecOn with
  | nil => rfl
  | append_singleton segs seg ih =>
    have hinit : ∀ s ∈ segs, '/' ∉ s := fun s hs => hsegs s (List.mem_append_left _ hs)
    have hkept : kept false (segs ++ [seg]) = push false (kept false segs) seg := List.foldl_append
    rw [hkept, walk_push (settled_kept hinit), ih hinit, walk_append, walk_singleton]

/-- From the root of the machine every path is. -/
theorem walk_kept_absolute (hsegs : ∀ s ∈ segs, '/' ∉ s) : walk [] (kept true segs).reverse = walk [] segs :=
  kept_reverse (settled_kept hsegs)

/-- The slashes at the ends of a normal form do not count. -/
theorem walk_root_body {abs : Bool} (hs : Settled abs stack) (hne : stack ≠ []) (slash : Bool) :
    walk dir ((root abs ++ body stack ++ if slash then ['/'] else []).splitOn '/') = walk dir stack.reverse := by
  have hbody : walk dir ((root abs ++ body stack).splitOn '/') = walk dir stack.reverse := by
    cases abs with
    | false =>
      have hsplit : (root false ++ body stack).splitOn '/' = stack.reverse := splitOn_body hs hne
      rw [hsplit]
    | true =>
      have hsplit : (root true ++ body stack).splitOn '/' = [] :: stack.reverse := by
        rw [← splitOn_body hs hne]
        exact splitOn_slash _
      rw [hsplit]
      rfl
  cases slash with
  | false => rw [← hbody]; simp
  | true =>
    have hsplit : (root abs ++ body stack ++ ['/']).splitOn '/' = (root abs ++ body stack).splitOn '/' ++ [[]] :=
      List.splitOn_append_cons_self (root abs ++ body stack) []
    rw [if_pos rfl, hsplit, walk_append, hbody, walk_singleton, push_empty]

/-- The normal form of a path of which nothing is left. -/
theorem normalize_of_nil (hp : p ≠ []) (hnil : kept (absolute p) (p.splitOn '/') = []) :
    normalize p = if absolute p then ['/'] else if trailing p then ['.', '/'] else ['.'] := by
  rw [normalize, if_neg hp]
  dsimp only
  rw [hnil]
  exact if_pos rfl

theorem normalize_of_ne (hp : p ≠ []) (hne : kept (absolute p) (p.splitOn '/') ≠ []) :
    normalize p =
      root (absolute p) ++ body (kept (absolute p) (p.splitOn '/')) ++ if trailing p then ['/'] else [] := by
  rw [normalize, if_neg hp]
  exact if_neg (body_ne_nil (settled_kept notMem_splitOn) hne)

theorem absolute_normalize (p : List Char) : absolute (normalize p) = absolute p := by
  by_cases hp : p = []
  · subst hp
    rfl
  by_cases hnil : kept (absolute p) (p.splitOn '/') = []
  · rw [normalize_of_nil hp hnil]
    cases habs : absolute p with
    | true => rfl
    | false => cases trailing p <;> rfl
  · have hsettled : Settled (absolute p) (kept (absolute p) (p.splitOn '/')) := settled_kept notMem_splitOn
    have hbody : root (absolute p) ++ body (kept (absolute p) (p.splitOn '/')) ≠ [] :=
      List.append_ne_nil_of_right_ne_nil _ (body_ne_nil hsettled hnil)
    rw [normalize_of_ne hp hnil, absolute, List.head?_append_of_ne_nil _ hbody]
    exact absolute_root_body hsettled hnil

/-- **Normalising** a path changes nothing of what it names. -/
theorem resolved_normalize (cwd p : List Char) : resolved cwd (normalize p) = resolved cwd p := by
  have hfrom : ∀ dir, (absolute p = true → dir = []) →
      walk dir ((normalize p).splitOn '/') = walk dir (p.splitOn '/') := by
    intro dir hdir
    -- what is left of the path is settled, so it can be walked as it was written
    have hsettled : Settled (absolute p) (kept (absolute p) (p.splitOn '/')) := settled_kept notMem_splitOn
    have hwalk : walk dir (kept (absolute p) (p.splitOn '/')).reverse = walk dir (p.splitOn '/') := by
      cases habs : absolute p with
      | false => exact walk_kept notMem_splitOn
      | true =>
        rw [hdir habs]
        exact walk_kept_absolute notMem_splitOn
    rw [← hwalk]
    by_cases hp : p = []
    · subst hp
      rfl
    by_cases hnil : kept (absolute p) (p.splitOn '/') = []
    · -- nothing is left, and the walk stays where it is
      rw [normalize_of_nil hp hnil, hnil]
      cases absolute p with
      | true => rfl
      | false => cases trailing p <;> rfl
    · rw [normalize_of_ne hp hnil]
      exact walk_root_body hsettled hnil (trailing p)
  unfold resolved
  rw [absolute_normalize]
  refine hfrom _ fun habs => ?_
  rw [if_pos habs]

/-- **Joining** a relative path to a base walks on from there. -/
theorem resolved_join (cwd : List Char) (hbase : base ≠ []) :
    resolved cwd (join [base, p]) = walk (resolved cwd base) (p.splitOn '/') := by
  rw [join, resolved_normalize]
  by_cases hp : p = []
  · subst hp
    have hglue : glue [base, []] = base := by
      rw [glue]
      simp [hbase, List.intercalate_singleton]
    rw [hglue]
    rfl
  · have hglue : glue [base, p] = base ++ '/' :: p := by
      rw [glue]
      simp [hbase, hp, List.intercalate_cons_cons]
    unfold resolved
    rw [hglue, absolute_slash hbase, List.splitOn_append_cons_self, walk_append]

/-! ### Climbing -/

/-- A settled stack is walked by leaving directories and then going down. -/
theorem walk_reverse (hs : Settled false stack) (hdir : Settled true dir) :
    walk dir stack.reverse = stack.filter (· ≠ ['.', '.']) ++ dir.drop (stack.count ['.', '.']) := by
  induction stack with
  | nil => rfl
  | cons seg rest ih =>
    obtain ⟨⟨hne, hdot, -⟩, hdots, hrest⟩ := hs
    rw [List.reverse_cons, walk_append, ih hrest, walk_singleton]
    by_cases hseg : seg = ['.', '.']
    · -- below a `..` there are only more of them, so no name has been walked yet
      have hfilter : rest.filter (· ≠ ['.', '.']) = [] := by
        rw [List.filter_eq_nil_iff]
        intro s hs
        simpa using (hdots hseg).2 s hs
      have hup : ∀ n, push true (dir.drop n) ['.', '.'] = dir.drop (n + 1) := by
        intro n
        rw [push, if_neg (by decide), if_pos rfl, ← List.tail_drop]
        cases hdrop : dir.drop n with
        | nil => rfl
        | cons d ds =>
          have hd : d ≠ ['.', '.'] := hdir.not_dots d (List.mem_of_mem_drop (hdrop ▸ List.mem_cons_self))
          rw [up, if_neg hd]
          rfl
      subst hseg
      rw [hfilter, List.nil_append, hup, List.count_cons_self, List.filter_cons_of_neg (by simp), hfilter,
        List.nil_append]
    · -- a name is kept on top of the others
      rw [push, if_neg (by simp [hne, hdot]), if_neg hseg, List.filter_cons_of_pos (by simpa using hseg),
        List.count_cons_of_ne (fun h => hseg h), List.cons_append]

/-- **A relative path** stays under the root it is joined to exactly when it goes back down through the directories it
has left. -/
theorem inside_join_iff (cwd : List Char) (hbase : base ≠ []) :
    Inside cwd base (join [base, p]) ↔ (resolved cwd base).take (climbs p) <:+ names p := by
  have hsettled : Settled false (kept false (p.splitOn '/')) := settled_kept notMem_splitOn
  have hwalk : resolved cwd (join [base, p]) = names p ++ (resolved cwd base).drop (climbs p) := by
    rw [resolved_join cwd hbase, ← walk_kept notMem_splitOn, walk_reverse hsettled (settled_resolved cwd base)]
    rfl
  unfold Inside
  rw [hwalk]
  conv_lhs => lhs; rw [← List.take_append_drop (climbs p) (resolved cwd base)]
  constructor
  · rintro ⟨u, hu⟩
    rw [← List.append_assoc] at hu
    exact ⟨u, List.append_cancel_right hu⟩
  · rintro ⟨u, hu⟩
    exact ⟨u, by rw [← List.append_assoc, hu]⟩

end SlashPath
