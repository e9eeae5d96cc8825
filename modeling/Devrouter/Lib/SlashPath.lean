import Mathlib.Data.List.Basic
import Devrouter.Lib.Trim

/-!
# Paths with slashes

Joining and normalising paths as POSIX programs do: a path is split at its slashes, empty segments and `.` are
dropped, and `..` takes back the segment before it. The segments kept so far are a stack, the last one first.

A stack that is `Settled` is what its own path is read as (`kept_reverse`), and pushing keeps a stack settled
(`Settled.push`).
-/

namespace SlashPath

abbrev Segment := List Char

/-- `..`. Nothing is above the root; above a relative path there may be something. -/
def up (absolute : Bool) : List Segment → List Segment
  | [] => if absolute then [] else [['.', '.']]
  | last :: rest => if last = ['.', '.'] then ['.', '.'] :: last :: rest else rest

/-- One segment. -/
def push (absolute : Bool) (kept : List Segment) (seg : Segment) : List Segment :=
  if seg = [] ∨ seg = ['.'] then kept else if seg = ['.', '.'] then up absolute kept else seg :: kept

/-- The segments of a path that are kept, the last one first. -/
def kept (absolute : Bool) (segs : List Segment) : List Segment := segs.foldl (push absolute) []

def absolute (p : List Char) : Bool := p.head? == some '/'

def trailing (p : List Char) : Bool := p.getLast? == some '/'

def root (absolute : Bool) : List Char := if absolute then ['/'] else []

/-- The segments of a stack with slashes between them. -/
def body (segs : List Segment) : List Char := ['/'].intercalate segs.reverse

/-- The normal form of a path. A slash at its end stays. -/
def normalize (p : List Char) : List Char :=
  if p = [] then ['.']
  else
    let segs := kept (absolute p) (p.splitOn '/')
    if body segs = [] then
      if absolute p then ['/'] else if trailing p then ['.', '/'] else ['.']
    else root (absolute p) ++ body segs ++ if trailing p then ['/'] else []

/-- The normal form without a slash at its end. -/
def clean (p : List Char) : List Char :=
  let segs := kept (absolute p) (p.splitOn '/')
  if body segs = [] then if absolute p then ['/'] else ['.'] else root (absolute p) ++ body segs

/-- The parts that are not empty, with slashes between them. -/
def glue (parts : List (List Char)) : List Char := ['/'].intercalate (parts.filter (· ≠ []))

def join (parts : List (List Char)) : List Char := normalize (glue parts)

/-! ### Stacks -/

/-- Names over `..`, and those only above a relative path. -/
def Settled (absolute : Bool) : List Segment → Prop
  | [] => True
  | seg :: rest => (seg ≠ [] ∧ seg ≠ ['.'] ∧ '/' ∉ seg) ∧
      (seg = ['.', '.'] → absolute = false ∧ ∀ s ∈ rest, s = ['.', '.']) ∧ Settled absolute rest

variable {abs : Bool} {seg : Segment} {stack : List Segment}

theorem Settled.tail (h : Settled abs (seg :: stack)) : Settled abs stack := h.2.2

theorem Settled.of_mem (h : Settled abs stack) : ∀ s ∈ stack, s ≠ [] ∧ '/' ∉ s := by
  induction stack with
  | nil => exact fun s hs => absurd hs List.not_mem_nil
  | cons seg stack ih =>
    intro s hs
    cases List.mem_cons.mp hs with
    | inl heq => exact heq ▸ ⟨h.1.1, h.1.2.2⟩
    | inr hmem => exact ih h.tail s hmem

/-- The top of a settled stack was pushed on the rest. -/
theorem Settled.push_top (h : Settled abs (seg :: stack)) : SlashPath.push abs stack seg = seg :: stack := by
  obtain ⟨⟨hne, hdot, -⟩, hdots, -⟩ := h
  rw [SlashPath.push, if_neg (by simp [hne, hdot])]
  by_cases heq : seg = ['.', '.']
  · obtain ⟨habs, hall⟩ := hdots heq
    rw [if_pos heq, heq]
    cases stack with
    | nil => simp [up, habs]
    | cons last rest => simp [up, hall last List.mem_cons_self]
  · rw [if_neg heq]

/-- Taking a segment back keeps a stack settled. -/
theorem Settled.up (h : Settled abs stack) : Settled abs (SlashPath.up abs stack) := by
  have hname : (['.', '.'] : Segment) ≠ [] ∧ (['.', '.'] : Segment) ≠ ['.'] ∧ '/' ∉ (['.', '.'] : Segment) := by
    decide
  cases stack with
  | nil =>
    cases abs with
    | true => exact trivial
    | false => exact ⟨hname, fun _ => ⟨rfl, fun s hs => absurd hs List.not_mem_nil⟩, trivial⟩
  | cons last rest =>
    show Settled abs (if last = ['.', '.'] then ['.', '.'] :: last :: rest else rest)
    by_cases hlast : last = ['.', '.']
    · rw [if_pos hlast]
      -- below a `..` there are only more of them
      obtain ⟨habs, hall⟩ := h.2.1 hlast
      refine ⟨hname, fun _ => ⟨habs, fun s hs => ?_⟩, h⟩
      cases List.mem_cons.mp hs with
      | inl heq => exact heq.trans hlast
      | inr hmem => exact hall s hmem
    · rw [if_neg hlast]
      exact h.tail

/-- Pushing keeps a stack settled. -/
theorem Settled.push (h : Settled abs stack) (hseg : '/' ∉ seg) : Settled abs (SlashPath.push abs stack seg) := by
  rw [SlashPath.push]
  by_cases hskip : seg = [] ∨ seg = ['.']
  · rw [if_pos hskip]
    exact h
  rw [if_neg hskip]
  by_cases hdots : seg = ['.', '.']
  · rw [if_pos hdots]
    exact h.up
  · rw [if_neg hdots]
    exact ⟨⟨fun he => hskip (.inl he), fun he => hskip (.inr he), hseg⟩, fun heq => absurd heq hdots, h⟩

/-- Segments are pushed one after the other. -/
theorem Settled.foldl_push {segs : List Segment} (h : Settled abs stack) (hsegs : ∀ s ∈ segs, '/' ∉ s) :
    Settled abs (segs.foldl (SlashPath.push abs) stack) := by
  induction segs generalizing stack with
  | nil => exact h
  | cons seg segs ih =>
    exact ih (h.push (hsegs seg List.mem_cons_self)) fun s hmem => hsegs s (List.mem_cons_of_mem _ hmem)

theorem settled_kept {segs : List Segment} (h : ∀ s ∈ segs, '/' ∉ s) : Settled abs (kept abs segs) := by
  have hnil : Settled abs [] := trivial
  exact hnil.foldl_push h

/-- A settled stack is what its segments are read as. -/
theorem kept_reverse (h : Settled abs stack) : kept abs stack.reverse = stack := by
  induction stack with
  | nil => rfl
  | cons seg stack ih =>
    rw [kept, List.reverse_cons, List.foldl_append]
    show push abs (kept abs stack.reverse) seg = seg :: stack
    rw [ih h.tail, h.push_top]

/-! ### Paths -/

variable {p b c : List Char}

theorem splitOn_body (hs : Settled abs stack) (hne : stack ≠ []) : (body stack).splitOn '/' = stack.reverse :=
  List.splitOn_intercalate '/' (fun s hs' => (hs.of_mem s (List.mem_reverse.mp hs')).2) (by simpa using hne)

theorem body_ne_nil (hs : Settled abs stack) (hne : stack ≠ []) : body stack ≠ [] := by
  intro hbody
  have hsplit := splitOn_body hs hne
  rw [hbody] at hsplit
  -- the path without characters has one segment, which is empty
  have hmem : [] ∈ stack := by
    rw [← List.mem_reverse, ← hsplit]
    exact List.mem_cons_self
  exact (hs.of_mem [] hmem).1 rfl

theorem splitOn_slash (l : List Char) : ('/' :: l).splitOn '/' = [] :: l.splitOn '/' := by
  have happend := List.splitOn_append_cons_self (a := '/') [] l
  rwa [List.nil_append, List.splitOn_nil, List.singleton_append] at happend

/-- A settled path does not start with a slash. -/
theorem absolute_body (hs : Settled abs stack) (hne : stack ≠ []) : absolute (body stack) = false := by
  cases hb : body stack with
  | nil => rfl
  | cons a l =>
    rw [absolute, List.head?_cons, beq_eq_false_iff_ne, ne_eq, Option.some.injEq]
    rintro rfl
    -- its first segment would be empty
    have hmem : [] ∈ stack := by
      rw [← List.mem_reverse, ← splitOn_body hs hne, hb, splitOn_slash]
      exact List.mem_cons_self
    exact (hs.of_mem [] hmem).1 rfl

/-- The root and the segments of a path, read again. -/
theorem absolute_root_body (hs : Settled abs stack) (hne : stack ≠ []) : absolute (root abs ++ body stack) = abs := by
  cases abs with
  | true => rfl
  | false => exact absolute_body hs hne

theorem absolute_slash (hp : p ≠ []) : absolute (p ++ '/' :: c) = absolute p := by
  rw [absolute, List.head?_append_of_ne_nil _ hp, absolute]

theorem normalize_ne_nil (p : List Char) : normalize p ≠ [] := by
  rw [normalize]
  split
  · exact List.cons_ne_nil _ _
  · simp only
    split
    · split <;> [skip; split] <;> exact List.cons_ne_nil _ _
    · next hbody => simp [hbody]

/-- A joined path is not empty. -/
theorem join_ne_nil (parts : List (List Char)) : join parts ≠ [] := normalize_ne_nil _

end SlashPath
