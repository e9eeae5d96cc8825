import Devrouter.Lib.Vectors
import Devrouter.Memory.Keyspace

/-!
# Centroids of false positives

Runs of `RecordFalsePositive` in exact arithmetic, on a server that answers every command. `HoldsMean` is what the
record of a memory is: the number of the queries recorded for it and the mean of their embeddings. One call keeps it
(`HoldsMean.record`), and so it holds after any calls (`holdsMean_run`).

A centroid is written as the bytes of its `float32`s and read back from them; `bytesToFloat32_float32ToBytes` says
that nothing is lost in between. The count is written in decimal and read back with `Sscanf`.
-/

open Prog

namespace Devrouter.Memory

/-! ### The bytes of a centroid -/

/-- The four bytes of a `float32`, lowest first. -/
def leBytes (w : BitVec 32) : List (BitVec 8) :=
  [w.setWidth 8, (w >>> 8).setWidth 8, (w >>> 16).setWidth 8, (w >>> 24).setWidth 8]

/-- `Float32ToBytes`, on the bit patterns of the scalars. -/
def float32ToBytes (v : List (BitVec 32)) : List (BitVec 8) := v.flatMap leBytes

/-- The loop of `bytesToFloat32`. -/
def readWords : List (BitVec 8) → List (BitVec 32)
  | a :: b :: c :: d :: rest => (d ++ c ++ b ++ a : BitVec 32) :: readWords rest
  | _ => []

/-- `bytesToFloat32`. -/
def bytesToFloat32 (b : List (BitVec 8)) : Option (List (BitVec 32)) :=
  if b.length % 4 ≠ 0 then none else some (readWords b)

theorem length_float32ToBytes (v : List (BitVec 32)) : (float32ToBytes v).length = 4 * v.length := by
  unfold float32ToBytes
  induction v with
  | nil => rfl
  | cons w v ih =>
    rw [List.flatMap_cons, List.length_append, ih, List.length_cons]
    change 4 + 4 * v.length = 4 * (v.length + 1)
    omega

theorem readWords_float32ToBytes (v : List (BitVec 32)) : readWords (float32ToBytes v) = v := by
  induction v with
  | nil => rfl
  | cons w v ih =>
    have hword : ((w >>> 24).setWidth 8 ++ (w >>> 16).setWidth 8 ++ (w >>> 8).setWidth 8 ++ w.setWidth 8
        : BitVec 32) = w := by
      -- bit by bit: each byte has the bits of its place
      ext i hi
      simp only [BitVec.getElem_append, BitVec.getElem_setWidth, BitVec.getLsbD_ushiftRight]
      split_ifs
      · rfl
      · rw [← BitVec.getLsbD_eq_getElem]
        congr 1
        omega
      · rw [← BitVec.getLsbD_eq_getElem]
        congr 1
        omega
      · rw [← BitVec.getLsbD_eq_getElem]
        congr 1
        omega
    change _ :: readWords (float32ToBytes v) = w :: v
    rw [ih, hword]

/-- **The bytes of a centroid give it back.** -/
theorem bytesToFloat32_float32ToBytes (v : List (BitVec 32)) : bytesToFloat32 (float32ToBytes v) = some v := by
  unfold bytesToFloat32
  rw [if_neg (by rw [length_float32ToBytes]; omega), readWords_float32ToBytes]

/-! ### The text of a count -/

/-- A digit is no space and no sign. -/
theorem not_space_of_isDigit {c : Char} (hc : c.isDigit = true) :
    goIsSpace c = false ∧ (c == '-' || c == '+') = false := by
  have hrange : 48 ≤ c.toNat ∧ c.toNat ≤ 57 := by
    simp only [Char.isDigit, ge_iff_le, Bool.and_eq_true, decide_eq_true_eq] at hc
    exact hc
  constructor
  · rw [goIsSpace, Bool.or_eq_false_iff]
    refine ⟨decide_eq_false fun hmem => ?_, decide_eq_false (by omega)⟩
    simp only [List.mem_cons, List.not_mem_nil, or_false] at hmem
    omega
  · simp only [Bool.or_eq_false_iff, beq_eq_false_iff_ne]
    constructor
    · rintro rfl
      exact absurd hrange (by decide)
    · rintro rfl
      exact absurd hrange (by decide)

/-- A count that was printed is scanned again. -/
theorem scanInt_toString (n : ℕ) : scanInt (toString (n : ℤ)) = n := by
  have hlist : (toString (n : ℤ)).toList = Nat.toDigits 10 n := Nat.toList_repr
  have hdigit : ∀ c ∈ Nat.toDigits 10 n, c.isDigit = true := fun c hc =>
    Nat.isDigit_of_mem_toDigits (by decide) (by decide) hc
  cases hds : Nat.toDigits 10 n with
  | nil => exact absurd hds Nat.toDigits_ne_nil
  | cons c cs =>
    rw [hds] at hlist hdigit
    obtain ⟨hspace, hsign⟩ := not_space_of_isDigit (hdigit c List.mem_cons_self)
    -- nothing is skipped, and all of it is digits
    have hdrop : (c :: cs).dropWhile (fun c => goIsSpace c && c != '\n') = c :: cs := by
      rw [List.dropWhile_cons_of_neg (by simp [hspace])]
    have htake : (c :: cs).takeWhile (fun c => c == '-' || c == '+') = [] := by
      rw [List.takeWhile_cons_of_neg (by simp [hsign])]
    have hall : (c :: cs).takeWhile Char.isDigit = c :: cs := List.takeWhile_eq_self_iff.mpr hdigit
    unfold scanInt
    simp only [hlist, hdrop, htake, List.length_nil, List.drop_zero, hall, List.nil_append]
    rw [if_neg (by decide), ← hlist, String.ofList_toList, parseInt_int]
    rfl

theorem parseIntField_toString (n : ℕ) : parseIntField (toString (n : ℤ)) = n := by
  have hne : toString (n : ℤ) ≠ "" := by
    intro h
    have hlist : (toString (n : ℤ)).toList = Nat.toDigits 10 n := Nat.toList_repr
    rw [h] at hlist
    exact Nat.toDigits_ne_nil hlist.symm
  unfold parseIntField
  rw [if_neg hne, scanInt_toString]

/-! ### One call -/

variable {F : Type}

/-- A call that is carried out reads the record and writes it back with the query. -/
theorem recordFalsePositive_run (mean : ℤ → F → F → F) {memKey : String} (hkey : memKey ≠ "") {emb : List F}
    (hdim : emb.length = embedDim) {s : Server F} {h : Hash F} (hs : s.hashAt (fpKey memKey) = some h) :
    ((recordFalsePositive mean memKey emb).run s).2 =
      s.putHash (fpKey memKey) (hsetFields h
        [("cent", .vec (incrementalMean mean (((h "cent").map Value.floats).getD []) (parseIntField (h.text "count"))
            emb)),
          ("count", .int (parseIntField (h.text "count") + 1))]) := by
  have hget : (getFP (fpKey memKey)).run s =
      (some (((h "cent").map Value.floats).getD [], parseIntField (h.text "count")), s) := by
    change (Option.map _ (s.hashAt (fpKey memKey)), s) = _
    rw [hs]
    rfl
  unfold recordFalsePositive
  rw [if_neg hkey, if_neg (not_not.mpr hdim), run_bind, hget]
  simp only [run_bind, run_pure, Mdb.hset_run, hs]

/-- A call that is refused does nothing. -/
theorem recordFalsePositive_refused (mean : ℤ → F → F → F) {memKey : String} {emb : List F}
    (h : memKey = "" ∨ emb.length ≠ embedDim) (s : Server F) :
    ((recordFalsePositive mean memKey emb).run s).2 = s := by
  unfold recordFalsePositive
  rcases h with rfl | hdim
  · rfl
  · rw [if_pos hdim]
    split_ifs <;> rfl

/-! ### The running mean -/

section Mean

variable [Field F]

/-- A coordinate of the running mean, in exact arithmetic. -/
def exactMean (c : ℤ) (x y : F) : F := ((c : F) * x + y) / ((c : F) + 1)

/-- **What a record is**: the number of the embeddings and their mean, and no record without one. -/
def HoldsMean (s : Server F) (memKey : String) (vs : List (List F)) : Prop :=
  if vs = [] then s.keys.lookup (fpKey memKey) = none
  else ∃ h : Hash F, s.keys.lookup (fpKey memKey) = some (.hash h) ∧ h "count" = some (.int vs.length) ∧
    h "cent" = some (.vec (List.meanVec embedDim vs))

/-- A record after the first calls: what is read from it. -/
theorem HoldsMean.hashAt {s : Server F} {memKey : String} {vs : List (List F)} (h : HoldsMean s memKey vs) :
    ∃ fields : Hash F, s.hashAt (fpKey memKey) = some fields ∧
      parseIntField (fields.text "count") = vs.length ∧
      (vs ≠ [] → fields "cent" = some (.vec (List.meanVec embedDim vs))) := by
  unfold HoldsMean at h
  unfold Server.hashAt
  split_ifs at h with hvs
  · rw [h]
    exact ⟨_, rfl, by rw [hvs]; rfl, fun hne => absurd hvs hne⟩
  · obtain ⟨fields, hlookup, hcount, hcent⟩ := h
    rw [hlookup]
    refine ⟨fields, rfl, ?_, fun _ => hcent⟩
    have htext : fields.text "count" = toString ((vs.length : ℕ) : ℤ) := by
      unfold Hash.text
      rw [hcount]
      rfl
    rw [htext, parseIntField_toString]

/-- **One more call.** -/
theorem HoldsMean.record [CharZero F] {s : Server F} {memKey : String} {vs : List (List F)}
    (h : HoldsMean s memKey vs) (hkey : memKey ≠ "") {emb : List F} (hdim : emb.length = embedDim) :
    HoldsMean ((recordFalsePositive exactMean memKey emb).run s).2 memKey (vs ++ [emb]) := by
  obtain ⟨fields, hfields, hcount, hcent⟩ := h.hashAt
  -- the centroid that is written
  have hmean : incrementalMean exactMean (((fields "cent").map Value.floats).getD [])
      (parseIntField (fields.text "count")) emb = List.meanVec embedDim (vs ++ [emb]) := by
    unfold incrementalMean
    rw [hcount]
    by_cases hvs : vs = []
    · rw [hvs, List.nil_append, List.meanVec_singleton hdim]
      exact if_pos (by simp)
    · have hlen : (vs.length : ℤ) ≠ 0 := Int.natCast_ne_zero.mpr (List.length_pos_iff.mpr hvs).ne'
      rw [hcent hvs, List.meanVec_append hvs hdim, Option.map_some, Option.getD_some, Value.floats_vec]
      have hcond : ¬ (decide ((List.meanVec embedDim vs).length ≠ emb.length) || decide ((vs.length : ℤ) = 0))
          = true := by
        rw [List.length_meanVec, hdim, Bool.or_eq_true, decide_eq_true_iff, decide_eq_true_iff]
        exact fun hor => hor.elim (fun hne => hne rfl) hlen
      rw [if_neg hcond]
      unfold exactMean
      simp only [Int.cast_natCast]
  rw [recordFalsePositive_run exactMean hkey hdim hfields, hmean, hcount]
  unfold HoldsMean
  rw [if_neg (by simp)]
  refine ⟨_, s.lookup_putHash_self _, ?_, ?_⟩
  · rw [List.length_append, List.length_singleton, Nat.cast_add, Nat.cast_one]
    exact hsetFields_of_mem (p := ("count", _)) (by simp) (by simp) fields
  · exact hsetFields_of_mem (p := ("cent", _)) (by simp) (by simp) fields

/-- A call on another memory, or one that is refused. -/
theorem HoldsMean.other {s : Server F} {memKey : String} {vs : List (List F)} (h : HoldsMean s memKey vs)
    {memKey' : String} {emb : List F} (hother : memKey' ≠ memKey ∨ memKey' = "" ∨ emb.length ≠ embedDim) :
    HoldsMean ((recordFalsePositive exactMean memKey' emb).run s).2 memKey vs := by
  by_cases hrefused : memKey' = "" ∨ emb.length ≠ embedDim
  · rw [recordFalsePositive_refused exactMean hrefused]
    exact h
  · have hne : fpKey memKey ≠ fpKey memKey' := fun heq => (hother.resolve_right hrefused) (fpKey_inj.mp heq).symm
    have hsame : ((recordFalsePositive exactMean memKey' emb).run s).2.keys.lookup (fpKey memKey) =
        s.keys.lookup (fpKey memKey) := by
      have hwithin : (recordFalsePositive exactMean memKey' emb).Within (Spares (· = fpKey memKey')) :=
        recordFalsePositive_spares exactMean (.inr (.inr rfl))
      exact run_of_wp (hwithin s) _ hne
    unfold HoldsMean
    rw [hsame]
    exact h

/-! ### Any calls -/

/-- The server after calls of `RecordFalsePositive`. -/
def afterRecords (s : Server F) (calls : List (String × List F)) : Server F :=
  calls.foldl (fun s c => ((recordFalsePositive exactMean c.1 c.2).run s).2) s

/-- The embeddings of the calls on a memory that are accepted, in their order. -/
def acceptedOn (memKey : String) (calls : List (String × List F)) : List (List F) :=
  (calls.filter fun c => c.1 = memKey ∧ c.2.length = embedDim).map Prod.snd

theorem holdsMean_records [CharZero F] {memKey : String} (hkey : memKey ≠ "") {s : Server F} {vs : List (List F)}
    (h : HoldsMean s memKey vs) (calls : List (String × List F)) :
    HoldsMean (afterRecords s calls) memKey (vs ++ acceptedOn memKey calls) := by
  induction calls generalizing s vs with
  | nil =>
    rw [acceptedOn, List.filter_nil, List.map_nil, List.append_nil]
    exact h
  | cons c calls ih =>
    have hrest : afterRecords s (c :: calls) = afterRecords ((recordFalsePositive exactMean c.1 c.2).run s).2 calls := rfl
    rw [hrest]
    by_cases hacc : c.1 = memKey ∧ c.2.length = embedDim
    · -- the call is accepted, and its embedding joins the mean
      have haccepted : acceptedOn memKey (c :: calls) = c.2 :: acceptedOn memKey calls := by
        unfold acceptedOn
        rw [List.filter_cons_of_pos (by simpa using hacc), List.map_cons]
      obtain ⟨rfl, hdim⟩ := hacc
      rw [haccepted, List.append_cons]
      exact ih (h.record hkey hdim)
    · -- the call is refused or is for another memory
      have haccepted : acceptedOn memKey (c :: calls) = acceptedOn memKey calls := by
        unfold acceptedOn
        rw [List.filter_cons_of_neg (by simpa using hacc)]
      rw [haccepted]
      refine ih (h.other ?_)
      by_cases hname : c.1 = memKey
      · exact .inr (.inr fun hdim => hacc ⟨hname, hdim⟩)
      · exact .inl hname

/-- **The running mean**: after any calls, the record of a memory that had none is the mean of what was recorded
for it. -/
theorem holdsMean_run [CharZero F] {memKey : String} (hkey : memKey ≠ "") {s : Server F}
    (hs : s.keys.lookup (fpKey memKey) = none) (calls : List (String × List F)) :
    HoldsMean (afterRecords s calls) memKey (acceptedOn memKey calls) := by
  have hnone : HoldsMean s memKey [] := by
    unfold HoldsMean
    rw [if_pos rfl]
    exact hs
  exact holdsMean_records hkey hnone calls

end Mean

end Devrouter.Memory
