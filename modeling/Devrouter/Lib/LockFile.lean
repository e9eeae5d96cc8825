import Mathlib.Tactic.Common

/-!
# Lock files

A lock is a file: who creates it holds the lock, and a record in it says who that is. `Exclusive` says that the file
has the record of whoever holds the lock. It is kept by a creation, which fails when there is a file, and by a removal
of a record that nobody holds the lock under. A removal by path takes away whatever is there, so that what was known
of a record when it was read must still be about the record that is there (`Exclusive.remove`).
-/

namespace LockFile

variable {P R : Type}

/-- The file has the record of each holder. -/
structure Exclusive (file : Option R) (holds : P → R → Prop) : Prop where
  file_eq : ∀ p r, holds p r → file = some r

namespace Exclusive

variable {file : Option R} {holds holds' : P → R → Prop} {p q : P} {r s : R}

/-- **One lock**: two holders have one record. -/
theorem eq (h : Exclusive file holds) (hp : holds p r) (hq : holds q s) : r = s :=
  Option.some.inj ((h.file_eq p r hp).symm.trans (h.file_eq q s hq))

theorem not_holds (h : Exclusive none holds) (p : P) (r : R) : ¬ holds p r :=
  fun hp => absurd (h.file_eq p r hp) nofun

/-- Fewer holders. -/
theorem mono (h : Exclusive file holds) (hle : ∀ p r, holds' p r → holds p r) : Exclusive file holds' where
  file_eq := fun p r hp => h.file_eq p r (hle p r hp)

/-- **Creation.** Where there was no file, its creator is the only holder. -/
theorem create (h : Exclusive none holds) (hnew : ∀ q s, holds' q s → holds q s ∨ s = r) :
    Exclusive (some r) holds' where
  file_eq := fun q s hq => ((hnew q s hq).resolve_left (h.not_holds q s)) ▸ rfl

/-- **Removal** of the record that was read, under which nobody holds the lock. -/
theorem remove (h : Exclusive file holds) {read : Option R} (hread : file = none ∨ file = read)
    (hfree : ∀ p r, read = some r → ¬ holds p r) : Exclusive none holds where
  file_eq := fun p r hp => by
    have hfile := h.file_eq p r hp
    obtain hnone | hsame := hread
    · exact hnone.symm.trans hfile
    · exact absurd hp (hfree p r (hsame.symm.trans hfile))

end Exclusive

end LockFile
