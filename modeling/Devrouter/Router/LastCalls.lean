import Devrouter.Lib.Recency
import Devrouter.Router.Submit

/-!
# The last-call LRU, with its list and its map

Model of `LastCallLRU` in `internal/heuristics/lru.go`: a linked list of elements and a map from the ids of the calls to
their elements, which every operation updates in step. `LastCallLRU` of `Router/Submit.lean` is the list alone; it is
what this one does to its entries (`toCalls_push`).

An element of the list has an identity, its `ref`: a map that still has an element that has left the list, or lost one
that is in it, is told from one that is right. `Indexed` is the invariant of the two structures. Every operation is one
of taking an element away (`Indexed.take_away`) and putting a new one in front (`Indexed.pushFront`).

After any calls of `Push`, the list holds the calls that were recorded most recently, of each id the last one
(`represents_run`). A call with an empty id is not recorded (`empty_id_not_recorded`).
-/

namespace Devrouter.Linked

/-- A call, with its time in nanoseconds since the zero time. -/
abbrev Call := LastCallEntry × ℤ

def callID (e : Call) : String := e.1.queryID

/-- `list.Element`. -/
structure Element where
  ref : ℕ
  value : Call
  deriving DecidableEq, Repr

def Element.queryID (x : Element) : String := callID x.value

structure LastCallLRU where
  capacity : ℤ
  ttl : ℤ
  order : List Element
  index : String → Option ℕ
  /-- The elements that were ever made. -/
  made : ℕ

/-! ### Time -/

def maxDuration : ℤ := 2 ^ 63 - 1

def minDuration : ℤ := -2 ^ 63

/-- `time.Since`: the age, or the longest duration that is nearest to it. -/
def timeSince (now t : ℤ) : ℤ := max minDuration (min maxDuration (now - t))

/-- A `time.Time` that is zero is replaced. -/
def stamp (e : Call) (now : ℤ) : Call := if e.2 = 0 then (e.1, now) else e

@[simp] theorem callID_stamp (e : Call) (now : ℤ) : callID (stamp e now) = callID e := by
  rw [stamp]
  split_ifs <;> rfl

/-- Below the longest duration, an age is compared as it is. -/
theorem timeSince_le_iff {now t ttl : ℤ} (hmin : minDuration ≤ ttl) (hmax : ttl < maxDuration) :
    timeSince now t ≤ ttl ↔ now - t ≤ ttl := by
  unfold timeSince
  omega

/-! ### Operations -/

namespace LastCallLRU

/-- `NewLastCallLRU`. -/
def new (capacity ttl : ℤ) : LastCallLRU where
  capacity := if capacity ≤ 0 then 16 else capacity
  ttl := if ttl ≤ 0 then 10 * 60 * 10 ^ 9 else ttl
  order := []
  index := fun _ => none
  made := 0

/-- `List.Remove`. -/
def remove (order : List Element) (ref : ℕ) : List Element := order.filter fun x => x.ref ≠ ref

theorem length_remove_lt {order : List Element} {x : Element} (hx : x ∈ order) :
    (remove order x.ref).length < order.length :=
  List.length_filter_lt_length_iff_exists.mpr ⟨x, hx, by simp⟩

/-- The element that the id has already goes, from the list and from the map. -/
def discard (l : LastCallLRU) (id : String) : LastCallLRU :=
  match l.index id with
  | some existing => { l with order := remove l.order existing, index := Function.update l.index id none }
  | none => l

/-- `List.PushFront`, and the new element in the map. -/
def pushFront (l : LastCallLRU) (e : Call) : LastCallLRU :=
  { l with
    order := ⟨l.made, e⟩ :: l.order
    index := Function.update l.index (callID e) (some l.made)
    made := l.made + 1 }

/-- The loop of `Push`: the last element goes, as long as there are more than the capacity. -/
def evict (l : LastCallLRU) : LastCallLRU :=
  if l.capacity < l.order.length then
    match _h : l.order.getLast? with
    | none => l
    | some back =>
      evict { l with
        order := remove l.order back.ref
        index := Function.update l.index back.queryID none }
  else l
termination_by l.order.length
decreasing_by exact length_remove_lt (List.mem_of_getLast? _h)

def push (l : LastCallLRU) (e : Call) (now : ℤ) : LastCallLRU :=
  if callID e = "" then l
  else ((l.discard (callID e)).pushFront (stamp e now)).evict

def mostRecent (l : LastCallLRU) (now : ℤ) : Option Call :=
  match l.order.head? with
  | none => none
  | some front => if l.ttl < timeSince now front.value.2 then none else some front.value

/-! ### The list and the map -/

/-- The map has the elements of the list, each under its id. -/
structure Indexed (l : LastCallLRU) : Prop where
  index_iff : ∀ id ref, l.index id = some ref ↔ ∃ x ∈ l.order, x.ref = ref ∧ x.queryID = id
  queryIDs : (l.order.map Element.queryID).Nodup
  refs : (l.order.map Element.ref).Nodup
  fresh : ∀ x ∈ l.order, x.ref < l.made

variable {l : LastCallLRU} {x : Element} {e : Call} {now : ℤ}

theorem indexed_new (capacity ttl : ℤ) : (new capacity ttl).Indexed where
  index_iff _ _ := ⟨nofun, fun ⟨_, hx, _⟩ => absurd hx List.not_mem_nil⟩
  queryIDs := List.nodup_nil
  refs := List.nodup_nil
  fresh _ hx := absurd hx List.not_mem_nil

theorem Indexed.eq_of_queryID (h : l.Indexed) {y : Element} (hx : x ∈ l.order) (hy : y ∈ l.order)
    (hid : x.queryID = y.queryID) : x = y :=
  List.inj_on_of_nodup_map h.queryIDs hx hy hid

theorem Indexed.eq_of_ref (h : l.Indexed) {y : Element} (hx : x ∈ l.order) (hy : y ∈ l.order)
    (href : x.ref = y.ref) : x = y :=
  List.inj_on_of_nodup_map h.refs hx hy href

/-- Taking an element away by its identity takes away what has its id. -/
theorem Indexed.remove_eq (h : l.Indexed) (hx : x ∈ l.order) :
    remove l.order x.ref = l.order.filter fun y => decide (y.queryID ≠ x.queryID) := by
  refine List.filter_congr fun y hy => decide_eq_decide.mpr (not_congr ?_)
  constructor
  · intro href
    rw [h.eq_of_ref hy hx href]
  · intro hid
    rw [h.eq_of_queryID hy hx hid]

/-- An element that leaves the list together with its id leaves the two structures in step. -/
theorem Indexed.take_away (h : l.Indexed) (hx : x ∈ l.order) :
    Indexed { l with order := remove l.order x.ref, index := Function.update l.index x.queryID none } where
  index_iff id ref := by
    change Function.update l.index x.queryID none id = some ref ↔ ∃ y ∈ remove l.order x.ref, y.ref = ref ∧ y.queryID = id
    simp only [h.remove_eq hx, List.mem_filter, decide_eq_true_eq]
    by_cases hid : id = x.queryID
    · subst hid
      rw [Function.update_self]
      exact ⟨nofun, fun ⟨y, ⟨_, hne⟩, _, heq⟩ => absurd heq hne⟩
    · rw [Function.update_of_ne hid, h.index_iff]
      constructor
      · rintro ⟨y, hy, href, rfl⟩
        exact ⟨y, ⟨hy, hid⟩, href, rfl⟩
      · rintro ⟨y, ⟨hy, -⟩, href, hyid⟩
        exact ⟨y, hy, href, hyid⟩
  queryIDs := h.queryIDs.sublist (List.filter_sublist.map _)
  refs := h.refs.sublist (List.filter_sublist.map _)
  fresh y hy := h.fresh y (List.mem_filter.mp hy).1

theorem Indexed.discard (h : l.Indexed) (id : String) : (l.discard id).Indexed ∧
    (l.discard id).order = l.order.filter fun y => decide (y.queryID ≠ id) := by
  rw [LastCallLRU.discard]
  cases hindex : l.index id with
  | some existing =>
    obtain ⟨x, hx, rfl, rfl⟩ := (h.index_iff id existing).mp hindex
    exact ⟨h.take_away hx, h.remove_eq hx⟩
  | none =>
    have hall : ∀ y ∈ l.order, y.queryID ≠ id := by
      intro y hy hid
      -- the map would have it
      have hsome := (h.index_iff id y.ref).mpr ⟨y, hy, rfl, hid⟩
      exact absurd (hindex.symm.trans hsome) nofun
    exact ⟨h, (List.filter_eq_self.mpr fun y hy => decide_eq_true (hall y hy)).symm⟩

theorem Indexed.pushFront (h : l.Indexed) (hnew : ∀ y ∈ l.order, y.queryID ≠ callID e) : (l.pushFront e).Indexed where
  index_iff id ref := by
    change Function.update l.index (callID e) (some l.made) id = some ref ↔
      ∃ y ∈ (⟨l.made, e⟩ : Element) :: l.order, y.ref = ref ∧ y.queryID = id
    simp only [List.mem_cons, exists_eq_or_imp]
    -- the new call's id points to the element in front, and every other id where it pointed
    by_cases hid : id = callID e
    · subst hid
      rw [Function.update_self, Option.some_inj]
      constructor
      · exact fun href => .inl ⟨href, rfl⟩
      · rintro (⟨href, -⟩ | ⟨y, hy, -, hyid⟩)
        · exact href
        · exact absurd hyid (hnew y hy)
    · rw [Function.update_of_ne hid, h.index_iff]
      constructor
      · exact .inr
      · rintro (⟨-, heq⟩ | hy)
        · exact absurd heq.symm hid
        · exact hy
  queryIDs := List.nodup_cons.mpr ⟨fun hmem => by
    obtain ⟨y, hy, hyid⟩ := List.mem_map.mp hmem
    exact hnew y hy hyid, h.queryIDs⟩
  -- the reference is new, as all others were made before
  refs := List.nodup_cons.mpr ⟨fun hmem => by
    obtain ⟨y, hy, href⟩ := List.mem_map.mp hmem
    exact absurd href (h.fresh y hy).ne, h.refs⟩
  fresh y hy := by
    obtain rfl | hy := List.mem_cons.mp hy
    · exact Nat.lt_succ_self _
    · exact (h.fresh y hy).trans (Nat.lt_succ_self _)

/-- The last element is taken away by its identity. -/
theorem Indexed.remove_getLast (h : l.Indexed) {back : Element} (hback : l.order.getLast? = some back) :
    remove l.order back.ref = l.order.dropLast := by
  have hsplit : l.order = l.order.dropLast ++ [back] := by
    have hne : l.order ≠ [] := by
      rintro hnil
      rw [hnil] at hback
      exact absurd hback nofun
    rw [List.getLast?_eq_some_getLast hne] at hback
    rw [← Option.some.inj hback, List.dropLast_append_getLast]
  have hrefs := h.refs
  rw [hsplit, List.map_append, List.nodup_append] at hrefs
  conv_lhs => rw [hsplit]
  rw [remove, List.filter_append, List.filter_eq_self.mpr, List.filter_cons_of_neg (by simp), List.filter_nil,
    List.append_nil]
  intro y hy
  refine decide_eq_true fun href => ?_
  exact hrefs.2.2 y.ref (List.mem_map_of_mem hy) back.ref (by simp) href

/-- What stays after the loop are the first elements, up to the capacity. -/
theorem Indexed.evict (h : l.Indexed) (hcap : 0 ≤ l.capacity) : l.evict.Indexed ∧
    l.evict.order = l.order.take l.capacity.toNat ∧ l.evict.capacity = l.capacity ∧ l.evict.ttl = l.ttl := by
  induction l using LastCallLRU.evict.induct with
  | case1 l hover hlast =>
    -- an empty list is not over the capacity
    rw [List.getLast?_eq_none_iff.mp hlast, List.length_nil] at hover
    exact absurd hover (not_lt.mpr hcap)
  | case2 l hover back hlast ih =>
    obtain ⟨hindexed, horder, hcapacity, httl⟩ := ih (h.take_away (List.mem_of_getLast? hlast)) hcap
    have hstep : l.evict = LastCallLRU.evict { l with
        order := remove l.order back.ref, index := Function.update l.index back.queryID none } := by
      rw [LastCallLRU.evict, if_pos hover]
      split
      · next hnone => exact absurd (hlast.symm.trans hnone) nofun
      · next hsome =>
        obtain rfl := Option.some.inj (hlast.symm.trans hsome)
        rfl
    have hle : l.capacity.toNat ≤ l.order.length - 1 := by omega
    rw [hstep]
    refine ⟨hindexed, horder.trans ?_, hcapacity, httl⟩
    show (remove l.order back.ref).take l.capacity.toNat = l.order.take l.capacity.toNat
    rw [h.remove_getLast hlast, List.dropLast_eq_take, List.take_take, Nat.min_eq_left hle]
  | case3 l hfits =>
    rw [LastCallLRU.evict, if_neg hfits, List.take_of_length_le (by omega)]
    exact ⟨h, rfl, rfl, rfl⟩

/-- **One push.** The two structures stay in step; the call moves to the front, and the last one over the capacity
goes. -/
theorem Indexed.push (h : l.Indexed) (hcap : 0 ≤ l.capacity) (hid : callID e ≠ "") (now : ℤ) : (l.push e now).Indexed ∧
    (l.push e now).order.map Element.value = (stamp e now ::
      (l.order.map Element.value).filter fun v => decide (callID v ≠ callID e)).take l.capacity.toNat ∧
    (l.push e now).capacity = l.capacity ∧ (l.push e now).ttl = l.ttl := by
  obtain ⟨hdiscard, horder⟩ := h.discard (callID e)
  have hkeeps : (l.discard (callID e)).capacity = l.capacity ∧ (l.discard (callID e)).ttl = l.ttl := by
    rw [LastCallLRU.discard]
    cases l.index (callID e) <;> exact ⟨rfl, rfl⟩
  -- the old call with the same id is gone before the new one is put in front
  have hnew : ∀ y ∈ (l.discard (callID e)).order, y.queryID ≠ callID (stamp e now) := by
    intro y hy
    rw [horder] at hy
    rw [callID_stamp]
    exact of_decide_eq_true (List.mem_filter.mp hy).2
  obtain ⟨hindexed, hevict, hcapacity, httl⟩ := (hdiscard.pushFront hnew).evict (hkeeps.1.symm ▸ hcap)
  rw [LastCallLRU.push, if_neg hid]
  refine ⟨hindexed, ?_, hcapacity.trans hkeeps.1, httl.trans hkeeps.2⟩
  have hvalues : (l.order.filter fun y => decide (y.queryID ≠ callID e)).map Element.value =
      (l.order.map Element.value).filter fun v => decide (callID v ≠ callID e) := by
    rw [List.filter_map]
    rfl
  -- the list is cut from behind until it fits
  calc ((l.discard (callID e)).pushFront (stamp e now)).evict.order.map Element.value
      = (((l.discard (callID e)).pushFront (stamp e now)).order.take l.capacity.toNat).map Element.value := by
        rw [hevict]
        exact congrArg _ (congrArg (fun n : ℤ => List.take n.toNat _) hkeeps.1)
    _ = (stamp e now :: (l.discard (callID e)).order.map Element.value).take l.capacity.toNat := List.map_take
    _ = _ := by rw [horder, hvalues]

/-! ### The list alone -/

/-- The list, without its elements' identities. -/
def toCalls (l : LastCallLRU) : Devrouter.LastCallLRU where
  capacity := l.capacity.toNat
  ttl := l.ttl
  entries := l.order.map Element.value

theorem stamp_fst (e : Call) (now : ℤ) : (stamp e now).1 = e.1 := by
  rw [stamp]
  split_ifs <;> rfl

/-- **Refinement.** A push is one of the list alone, with the time that it is stamped with. -/
theorem Indexed.toCalls_push (h : l.Indexed) (hcap : 0 ≤ l.capacity) (e : Call) (now : ℤ) :
    (l.push e now).toCalls = l.toCalls.push e.1 (stamp e now).2 := by
  by_cases hid : e.1.queryID = ""
  · have hpush : l.push e now = l := if_pos hid
    rw [hpush, Devrouter.LastCallLRU.push, if_pos hid]
  · obtain ⟨-, horder, hcapacity, httl⟩ := h.push hcap hid now
    have hentry : stamp e now = (e.1, (stamp e now).2) := Prod.ext (stamp_fst e now) rfl
    rw [Devrouter.LastCallLRU.push, if_neg hid, toCalls, hcapacity, httl, horder, hentry]
    rfl

theorem toCalls_mostRecent (l : LastCallLRU) (now : ℤ) (hmin : minDuration ≤ l.ttl) (hmax : l.ttl < maxDuration) :
    l.toCalls.mostRecent now = (l.mostRecent now).map Prod.fst := by
  rw [Devrouter.LastCallLRU.mostRecent, mostRecent, toCalls]
  cases l.order with
  | nil => rfl
  | cons front rest =>
    have hage : l.ttl < timeSince now front.value.2 ↔ l.ttl < now - front.value.2 := by
      rw [← not_le, timeSince_le_iff hmin hmax, not_le]
    by_cases hold : l.ttl < now - front.value.2
    · simp [hold, hage.mpr hold]
    · simp [hold, mt hage.mp hold]

end LastCallLRU

/-! ### Runs -/

/-- A call of `Push`, and the time that `time.Now` would return in it. -/
abbrev Push := Call × ℤ

def run (l : LastCallLRU) (pushes : List Push) : LastCallLRU := pushes.foldl (fun l p => l.push p.1 p.2) l

/-- What a call of `Push` records, unless it is ignored. -/
def record (p : Push) : Option Call := if callID p.1 = "" then none else some (stamp p.1 p.2)

/-- The recorded calls, newest first. -/
def recorded (pushes : List Push) : List Call := (pushes.filterMap record).reverse

/-- The list and the map are in step, and the list has the most recent calls. -/
structure Holds (l : LastCallLRU) (calls : List Call) : Prop where
  indexed : l.Indexed
  entries : l.order.map Element.value = calls.recent callID l.capacity.toNat

section Runs

variable {l : LastCallLRU} {calls : List Call}

theorem Holds.push (h : Holds l calls) (hcap : 0 ≤ l.capacity) (p : Push) :
    Holds (l.push p.1 p.2) ((record p).toList ++ calls) ∧ (l.push p.1 p.2).capacity = l.capacity ∧
      (l.push p.1 p.2).ttl = l.ttl := by
  by_cases hid : callID p.1 = ""
  · rw [LastCallLRU.push, if_pos hid, record, if_pos hid]
    exact ⟨h, rfl, rfl⟩
  · obtain ⟨hindexed, horder, hcapacity, httl⟩ := h.indexed.push hcap hid p.2
    refine ⟨⟨hindexed, ?_⟩, hcapacity, httl⟩
    rw [horder, h.entries, hcapacity, record, if_neg hid, ← callID_stamp p.1 p.2]
    exact List.recent_cons _ _

theorem Holds.run (h : Holds l calls) (hcap : 0 ≤ l.capacity) (pushes : List Push) :
    Holds (run l pushes) (recorded pushes ++ calls) ∧ (run l pushes).capacity = l.capacity ∧
      (run l pushes).ttl = l.ttl := by
  induction pushes generalizing l calls with
  | nil => exact ⟨h, rfl, rfl⟩
  | cons p pushes ih =>
    obtain ⟨hpush, hcapacity, httl⟩ := h.push hcap p
    obtain ⟨hrun, hcapacity', httl'⟩ := ih hpush (hcapacity.symm ▸ hcap)
    have hcalls : recorded (p :: pushes) ++ calls = recorded pushes ++ ((record p).toList ++ calls) := by
      rw [recorded, recorded, ← List.append_assoc]
      cases hrecord : record p with
      | none => rw [List.filterMap_cons_none hrecord, Option.toList_none, List.append_nil]
      | some e => rw [List.filterMap_cons_some hrecord, List.reverse_cons, Option.toList_some]
    rw [hcalls]
    exact ⟨hrun, hcapacity'.trans hcapacity, httl'.trans httl⟩

/-- What the two structures are to hold after some calls, the newest first. -/
structure Represents (l : LastCallLRU) (calls : List Call) : Prop where
  /-- The map has exactly the ids of the list, each with its element. -/
  index_iff : ∀ id ref, l.index id = some ref ↔ ∃ x ∈ l.order, x.ref = ref ∧ x.queryID = id
  refs : (l.order.map Element.ref).Nodup
  queryIDs : (l.order.map Element.queryID).Nodup
  length_le : (l.order.length : ℤ) ≤ l.capacity
  /-- The id of an element in front of another one was recorded after that one's. -/
  ordered : l.order.Pairwise fun x y => (calls.map callID).idxOf x.queryID < (calls.map callID).idxOf y.queryID
  /-- An id is present when fewer different ids than the capacity were recorded since. -/
  present : ∀ id, (∃ x ∈ l.order, x.queryID = id) ↔ ∃ newer older, calls.map callID = newer ++ id :: older ∧ id ∉ newer ∧
    (newer.eraseDups.length : ℤ) < l.capacity
  /-- An element has the call that was recorded last with its id. -/
  newest : ∀ x ∈ l.order, calls.find? (fun e => decide (callID e = x.queryID)) = some x.value

theorem Holds.represents (h : Holds l calls) (hcap : 0 ≤ l.capacity) : Represents l calls where
  index_iff := h.indexed.index_iff
  refs := h.indexed.refs
  queryIDs := h.indexed.queryIDs
  length_le := by
    have hlen := congrArg List.length h.entries
    have hle : (calls.recent callID l.capacity.toNat).length ≤ l.capacity.toNat := List.length_recent_le
    rw [List.length_map] at hlen
    omega
  ordered := by
    have hpairs : (calls.recent callID l.capacity.toNat).Pairwise fun a b =>
        (calls.map callID).idxOf (callID a) < (calls.map callID).idxOf (callID b) := List.pairwise_recent
    rw [← h.entries, List.pairwise_map] at hpairs
    exact hpairs
  present id := by
    have hkeys : (∃ x ∈ l.order, x.queryID = id) ↔ id ∈ (calls.recent callID l.capacity.toNat).map callID := by
      rw [← h.entries, List.map_map, List.mem_map]
      rfl
    rw [hkeys, List.mem_map_recent_iff]
    refine exists_congr fun newer => exists_congr fun older => and_congr_right fun _ => and_congr_right fun _ => ?_
    omega
  newest x hx := by
    refine List.find?_of_mem_recent (n := l.capacity.toNat) ?_
    rw [← h.entries]
    exact List.mem_map_of_mem hx

theorem Holds.mostRecent (h : Holds l calls) (hcap : 0 < l.capacity) (now : ℤ) :
    l.mostRecent now = calls.head?.filter fun e => decide (timeSince now e.2 ≤ l.ttl) := by
  have hhead : l.order.head?.map Element.value = calls.head? := by
    rw [← List.head?_map, h.entries, List.head?_recent (by omega)]
  rw [LastCallLRU.mostRecent, ← hhead]
  cases l.order.head? with
  | none => rfl
  | some front =>
    rw [Option.map_some, Option.filter_some]
    by_cases hold : l.ttl < timeSince now front.value.2
    · simp [hold]
    · simp [hold, not_lt.mp hold]

/-- **The last calls.** After any calls of `Push`, the list and the map represent the recorded calls, and the most
recent call is the last one that was recorded, unless it is older than the TTL. -/
theorem represents_run (capacity ttl : ℤ) (pushes : List Push) (now : ℤ) :
    Represents (run (.new capacity ttl) pushes) (recorded pushes) ∧
      (run (.new capacity ttl) pushes).capacity = (if capacity ≤ 0 then 16 else capacity) ∧
      (run (.new capacity ttl) pushes).mostRecent now =
        (recorded pushes).head?.filter fun e =>
          decide (timeSince now e.2 ≤ if ttl ≤ 0 then 10 * 60 * 10 ^ 9 else ttl) := by
  have hnew : Holds (.new capacity ttl) [] := ⟨LastCallLRU.indexed_new capacity ttl, List.recent_nil.symm⟩
  have hpos : 0 < (LastCallLRU.new capacity ttl).capacity := by
    show 0 < if capacity ≤ 0 then 16 else capacity
    split_ifs with hcap
    · decide
    · exact not_le.mp hcap
  obtain ⟨hholds, hcapacity, httl⟩ := hnew.run hpos.le pushes
  rw [List.append_nil] at hholds
  refine ⟨hholds.represents (hcapacity.symm ▸ hpos.le), hcapacity, ?_⟩
  rw [hholds.mostRecent (hcapacity.symm ▸ hpos), httl]
  rfl

/-- A call without an id. -/
def namelessCall : Call := (⟨"", "debug", "p", "r", "t-0"⟩, 5)

/-- The last call that was pushed is not older than the TTL, and it is not there. -/
theorem empty_id_not_recorded :
    let l := run (.new 16 600000000000) [(namelessCall, 5)]
    timeSince 5 namelessCall.2 ≤ l.ttl ∧ l.mostRecent 5 ≠ some namelessCall ∧
      ¬ ∃ x ∈ l.order, x.queryID = callID namelessCall := by
  decide

end Runs

end Devrouter.Linked
