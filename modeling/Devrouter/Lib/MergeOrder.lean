import Mathlib.Tactic.Common
import Devrouter.Lib.FirstBy

/-!
# The order of a merge

Lists `f p` are appended one after the other, an entry whose key has been seen is skipped, and what the test
`keep` rejects is taken out at the end. `merged` is the result as a function of the order of the lists.

`merged_perm_iff` says when the order does not matter: of any two lists one leads the other, that is, shows
the first entries of what the other shows, and has none of the keys of what the other shows after them.
-/

namespace List

variable {α β κ : Type} [DecidableEq κ]

section Merge

variable (key : β → κ) (keep : β → Bool) (f : α → List β) (seen : List κ)

/-- What a merge in the order `ps` shows. -/
def merged (ps : List α) : List β := ((ps.flatMap f).firstBy key seen).filter keep

/-- The list of `p` shows the first entries of what the list of `q` shows. -/
def Leads (p q : α) : Prop :=
  ∃ rest, merged key keep f seen [q] = merged key keep f seen [p] ++ rest ∧ ∀ b ∈ rest, key b ∉ (f p).map key

end Merge

variable {key : β → κ} {keep : β → Bool} {f : α → List β} {seen : List κ}

theorem merged_congr {seen' : List κ} (ps : List α) (h : ∀ b ∈ ps.flatMap f, key b ∈ seen ↔ key b ∈ seen') :
    merged key keep f seen ps = merged key keep f seen' ps := by
  unfold merged
  rw [firstBy_congr h]

theorem merged_append (key : β → κ) (keep : β → Bool) (f : α → List β) (seen : List κ) (ps qs : List α) :
    merged key keep f seen (ps ++ qs) =
      merged key keep f seen ps ++ merged key keep f ((ps.flatMap f).map key ++ seen) qs := by
  unfold merged
  rw [flatMap_append, firstBy_append, filter_append]

theorem merged_append_seen (s : List κ) (ps : List α) :
    merged key keep f (s ++ seen) ps = (merged key keep f seen ps).filter fun b => decide (key b ∉ s) := by
  unfold merged
  rw [firstBy_append_seen, filter_filter, filter_filter]
  refine filter_congr fun b _ => ?_
  rw [Bool.and_comm]

/-- Of the second list, the entries with keys that the first has not. -/
theorem merged_pair (p q : α) :
    merged key keep f seen [p, q] =
      merged key keep f seen [p] ++ (merged key keep f seen [q]).filter fun b => decide (key b ∉ (f p).map key) := by
  have hsplit := merged_append key keep f seen [p] [q]
  rw [flatMap_singleton, merged_append_seen] at hsplit
  exact hsplit

theorem mem_of_mem_merged {p : α} {b : β} (h : b ∈ merged key keep f seen [p]) : b ∈ f p := by
  unfold merged at h
  rw [flatMap_singleton] at h
  exact firstBy_sublist.subset (mem_filter.mp h).1

/-- A list that leads shows nothing that the other does not. -/
theorem Leads.filter_eq_nil {p q : α} (h : Leads key keep f seen p q) :
    (merged key keep f seen [p]).filter (fun b => decide (key b ∉ (f q).map key)) = [] := by
  obtain ⟨rest, hq, -⟩ := h
  refine filter_eq_nil_iff.mpr fun b hb => ?_
  have hbq : b ∈ f q := mem_of_mem_merged (hq ▸ mem_append_left rest hb)
  simpa using ⟨b, hbq, rfl⟩

/-- Two lists may be exchanged if one leads the other. -/
theorem Leads.swap {p q : α} (h : Leads key keep f seen p q) :
    merged key keep f seen [p, q] = merged key keep f seen [q, p] := by
  rw [merged_pair, merged_pair, h.filter_eq_nil, append_nil]
  obtain ⟨rest, hq, hrest⟩ := h
  have hself : (merged key keep f seen [p]).filter (fun b => decide (key b ∉ (f p).map key)) = [] := by
    refine filter_eq_nil_iff.mpr fun b hb => ?_
    simpa using ⟨b, mem_of_mem_merged hb, rfl⟩
  have hkept : rest.filter (fun b => decide (key b ∉ (f p).map key)) = rest :=
    filter_eq_self.mpr fun b hb => decide_eq_true (hrest b hb)
  rw [hq, filter_append, hself, hkept, nil_append]

/-- The shorter of two lists that may be exchanged leads. -/
theorem leads_of_swap {p q : α} (h : merged key keep f seen [p, q] = merged key keep f seen [q, p])
    (hlen : (merged key keep f seen [p]).length ≤ (merged key keep f seen [q]).length) :
    Leads key keep f seen p q := by
  rw [merged_pair, merged_pair] at h
  obtain ⟨rest, hq⟩ : merged key keep f seen [p] <+: merged key keep f seen [q] :=
    prefix_of_prefix_length_le (h ▸ prefix_append _ _) (prefix_append _ _) hlen
  refine ⟨rest, hq.symm, fun b hb => ?_⟩
  -- the entries of the second list that the first leaves are all of `rest`, by their number
  have hnum := congrArg length h
  have hself : (merged key keep f seen [p]).filter (fun b => decide (key b ∉ (f p).map key)) = [] := by
    refine filter_eq_nil_iff.mpr fun b hb => ?_
    simpa using ⟨b, mem_of_mem_merged hb, rfl⟩
  rw [← hq, filter_append, hself, nil_append, length_append, length_append, length_append] at hnum
  have hle := length_filter_le (fun b => decide (key b ∉ (f p).map key)) rest
  have hall : (rest.filter fun b => decide (key b ∉ (f p).map key)).length = rest.length := by omega
  exact of_decide_eq_true (length_filter_eq_length_iff.mp hall b hb)

theorem swap_iff {p q : α} : merged key keep f seen [p, q] = merged key keep f seen [q, p] ↔
    Leads key keep f seen p q ∨ Leads key keep f seen q p := by
  constructor
  · intro h
    rcases Nat.le_total (merged key keep f seen [p]).length (merged key keep f seen [q]).length with hle | hle
    · exact .inl (leads_of_swap h hle)
    · exact .inr (leads_of_swap h.symm hle)
  · rintro (h | h)
    · exact h.swap
    · exact h.swap.symm

/-- Exchanges stay possible when more keys have been seen. -/
theorem swap_append_seen {p q : α} (s : List κ)
    (h : merged key keep f seen [p, q] = merged key keep f seen [q, p]) :
    merged key keep f (s ++ seen) [p, q] = merged key keep f (s ++ seen) [q, p] := by
  rw [merged_append_seen, merged_append_seen, h]

theorem merged_swap_cons {p q : α} (ps : List α) :
    merged key keep f seen (p :: q :: ps) = merged key keep f seen (q :: p :: ps) ↔
      merged key keep f seen [p, q] = merged key keep f seen [q, p] := by
  have hpq := merged_append key keep f seen [p, q] ps
  have hqp := merged_append key keep f seen [q, p] ps
  have hrest : merged key keep f (([p, q].flatMap f).map key ++ seen) ps =
      merged key keep f (([q, p].flatMap f).map key ++ seen) ps := by
    refine merged_congr ps fun b _ => ?_
    simp only [flatMap_cons, flatMap_nil, append_nil, map_append, mem_append]
    tauto
  rw [cons_append, cons_append, nil_append] at hpq hqp
  rw [hpq, hqp, hrest]
  exact append_left_inj _

/-- **When the order of a merge does not matter.** -/
theorem merged_perm_iff (ps : List α) :
    (∀ qs, qs.Perm ps → merged key keep f seen qs = merged key keep f seen ps) ↔
      ∀ p ∈ ps, ∀ q ∈ ps, Leads key keep f seen p q ∨ Leads key keep f seen q p := by
  constructor
  · intro h p hp q hq
    rcases eq_or_ne p q with rfl | hne
    · exact .inl ⟨[], (append_nil _).symm, fun b hb => absurd hb not_mem_nil⟩
    · -- the two orders that start with `p` and `q`
      have hfront : ∀ {r} {rs : List α}, r ∈ rs → ∃ us, (r :: us).Perm rs := by
        intro r rs hr
        obtain ⟨s, t, rfl⟩ := append_of_mem hr
        exact ⟨s ++ t, perm_middle.symm⟩
      obtain ⟨us, hus⟩ := hfront hp
      obtain ⟨vs, hvs⟩ := hfront ((mem_cons.mp (hus.mem_iff.mpr hq)).resolve_left hne.symm)
      have hpq : (p :: q :: vs).Perm ps := (hvs.cons p).trans hus
      have hqp : (q :: p :: vs).Perm ps := (Perm.swap p q _).trans hpq
      exact swap_iff.mp ((merged_swap_cons _).mp ((h _ hpq).trans (h _ hqp).symm))
  · intro h qs hperm
    -- neighbours may change places, and the induction is on the permutation
    have htied : ∀ p ∈ qs, ∀ q ∈ qs, merged key keep f seen [p, q] = merged key keep f seen [q, p] :=
      fun p hp q hq => swap_iff.mpr (h p (hperm.mem_iff.mp hp) q (hperm.mem_iff.mp hq))
    clear h
    induction hperm generalizing seen with
    | nil => rfl
    | @cons p qs ps _ ih =>
      have hhead : ∀ rs : List α, merged key keep f seen (p :: rs) =
          merged key keep f seen [p] ++ merged key keep f ((f p).map key ++ seen) rs := by
        intro rs
        have hsplit := merged_append key keep f seen [p] rs
        rwa [flatMap_singleton] at hsplit
      -- the first part is the same, and the rest is merged with it as seen
      rw [hhead qs, hhead ps]
      refine congrArg _ (ih fun q hq r hr => swap_append_seen _ ?_)
      exact htied q (mem_cons_of_mem p hq) r (mem_cons_of_mem p hr)
    | swap p q rs => exact (merged_swap_cons rs).mpr (htied q mem_cons_self p (mem_cons_of_mem q mem_cons_self))
    | trans hfirst _ ihfirst ihlast =>
      refine (ihfirst htied).trans (ihlast fun p hp q hq => ?_)
      exact htied p (hfirst.mem_iff.mpr hp) q (hfirst.mem_iff.mpr hq)

end List
