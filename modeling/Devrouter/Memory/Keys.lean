import Devrouter.Memory.Store

/-!
# Which memories share a record

The key of a memory joins the keyspace, the repo, the kind and the sanitised identifier with colons.
The identifier has no colon left and neither has a kind, so a key can be read from its right end
(`Ident.key_inj`): it determines the repo, whatever it holds, the kind, and the identifier up to
`sanitizeKey`, which is not injective. The overlay key of a flow is read in the same way
(`flowOverlayKey_inj`).
-/

open Prog

namespace Devrouter.Memory

variable {F : Type}

/-- What names a memory within its repo: the arguments of the save. -/
inductive Ident where
  | file (path : String)
  | func (qualifiedName inFile name : String)
  | flow (name : String)
  | decision (name : String)
  deriving DecidableEq, Repr

namespace Ident

/-- The kind, as it stands in a key. -/
def kind : Ident → String
  | .file _ => "file"
  | .func _ _ _ => "func"
  | .flow _ => "flow"
  | .decision _ => "decision"

/-- The identifier that is sanitised into the key. -/
def text : Ident → String
  | .file path => path
  | .func qualifiedName inFile name => qualifiedNameOf qualifiedName inFile name
  | .flow name => name
  | .decision name => name

def key (K : Keyspace) (repo : String) : Ident → String
  | .file path => fileKey K repo path
  | .func qualifiedName inFile name => funcKey K repo (qualifiedNameOf qualifiedName inFile name)
  | .flow name => flowKey K repo name
  | .decision name => decisionKey K repo name

theorem key_eq (K : Keyspace) (repo : String) (i : Ident) :
    i.key K repo = keyPrefix K ++ repo ++ ":" ++ i.kind ++ ":" ++ sanitizeKey i.text := by
  cases i <;>
    simp [key, fileKey, funcKey, flowKey, decisionKey, kind, text, ← String.toList_inj]

theorem kind_no_colon (i : Ident) : ':' ∉ i.kind.toList := by
  cases i <;> simp [kind]

end Ident

theorem sanitizeKey_no_colon (s : String) : ':' ∉ (sanitizeKey s).toList := by
  unfold sanitizeKey
  rw [String.toList_ofList]
  intro hmem
  obtain ⟨r, -, hr⟩ := List.mem_map.mp hmem
  unfold sanitizeRune at hr
  split_ifs at hr with hcase
  · exact absurd hr (by decide)
  · subst hr
    simp at hcase

/-- **A key determines** the repo, the kind and the sanitised identifier. -/
theorem Ident.key_inj {K : Keyspace} {repo repo' : String} {i j : Ident} :
    i.key K repo = j.key K repo' ↔
      repo = repo' ∧ i.kind = j.kind ∧ sanitizeKey i.text = sanitizeKey j.text := by
  have hsep : (":" : String).toList = [':'] := rfl
  rw [key_eq, key_eq,
    String.append_sep_inj_right hsep (sanitizeKey_no_colon _) (sanitizeKey_no_colon _),
    String.append_sep_inj_right hsep i.kind_no_colon j.kind_no_colon, String.append_right_inj,
    and_assoc]

theorem flowOverlayKey_inj {K : Keyspace} {repo repo' name name' : String} :
    flowOverlayKey K repo name = flowOverlayKey K repo' name' ↔
      repo = repo' ∧ sanitizeKey name = sanitizeKey name' := by
  have hsep : (":" : String).toList = [':'] := rfl
  unfold flowOverlayKey
  rw [String.append_sep_inj_right hsep (sanitizeKey_no_colon _) (sanitizeKey_no_colon _),
    String.append_right_inj]

/-! ### Saves -/

/-- A save of any of the four kinds. -/
inductive Save where
  | record (m : Record)
  | decision (m : DecisionMemory)
  deriving DecidableEq, Repr

namespace Save

def repo : Save → String
  | .record (.file m) => m.repo
  | .record (.func m) => m.repo
  | .record (.flow m) => m.repo
  | .decision m => m.repo

def ident : Save → Ident
  | .record (.file m) => .file m.path
  | .record (.func m) => .func m.qualifiedName m.file m.name
  | .record (.flow m) => .flow m.name
  | .decision m => .decision m.name

/-- The key the save writes to. -/
def key (K : Keyspace) : Save → String
  | .record m => m.key K
  | .decision m => decisionKey K m.repo m.name

def save (env : Env F) (K : Keyspace) : Save → Prog (memdb F) (Option SaveErr)
  | .record m => m.save env K
  | .decision m => saveDecision env K m

theorem key_eq (K : Keyspace) (a : Save) : a.key K = a.ident.key K a.repo := by
  cases a with
  | record m =>
    cases m with
    | file m => rfl
    | func m => rfl
    | flow m => rfl
  | decision m => rfl

/-- A save writes to no other key. -/
theorem save_frame (env : Env F) (K : Keyspace) (a : Save) (s : Server F) {key : String}
    (hne : key ≠ a.key K) : ((a.save env K).run s).2.keys.lookup key = s.keys.lookup key := by
  cases a with
  | record m => exact m.save_frame env K s hne
  | decision m => exact saveDecision_frame env K m s hne

/-- The two saves name the same memory, as far as keys can tell: one kind, one repo, and identifiers
that differ at most in which of `:`, ` `, `/`, `\` and `_` stands where. -/
def SameName (a b : Save) : Prop :=
  a.repo = b.repo ∧ a.ident.kind = b.ident.kind ∧
    sanitizeKey a.ident.text = sanitizeKey b.ident.text

instance (a b : Save) : Decidable (a.SameName b) := inferInstanceAs (Decidable (_ ∧ _))

/-- The two saves have records of their own, and overlays of their own when they are of flows. -/
def Separate (K : Keyspace) (a b : Save) : Prop :=
  a.key K ≠ b.key K ∧ ∀ n n', a.ident = .flow n → b.ident = .flow n' →
    flowOverlayKey K a.repo n ≠ flowOverlayKey K b.repo n'

end Save

/-- **Which saves are separate.** Two saves share a record exactly when they name the same memory up to
the sanitised characters; and a save that names another memory leaves the record of the first as it
was, in every store. -/
theorem separate_iff (K : Keyspace) (a b : Save) :
    (a.Separate K b ↔ ¬ a.SameName b) ∧
      (¬ a.SameName b → ∀ (env : Env F) (s : Server F),
        ((b.save env K).run s).2.keys.lookup (a.key K) = s.keys.lookup (a.key K)) := by
  have hkey : a.key K = b.key K ↔ a.SameName b := by
    rw [a.key_eq, b.key_eq]
    exact Ident.key_inj
  have hoverlay : ∀ n n', a.ident = .flow n → b.ident = .flow n' →
      flowOverlayKey K a.repo n = flowOverlayKey K b.repo n' → a.SameName b := by
    intro n n' ha hb h
    obtain ⟨hrepo, hname⟩ := flowOverlayKey_inj.mp h
    refine ⟨hrepo, ?_, ?_⟩
    · rw [ha, hb]
      rfl
    · rw [ha, hb]
      exact hname
  refine ⟨⟨fun h hs => h.1 (hkey.mpr hs), fun hs => ⟨fun h => hs (hkey.mp h), ?_⟩⟩, ?_⟩
  · exact fun n n' ha hb h => hs (hoverlay n n' ha hb h)
  · exact fun hs env s => b.save_frame env K s fun h => hs (hkey.mp h)

/-- A file memory of the repo `r`. -/
def fileAt (path : String) : FileMemory where
  repo := "r"
  path := path
  purpose := "about " ++ path
  keySymbols := ""
  source := "agent"
  scope := "global"
  repoPath := ""

/-- An environment whose embeddings are empty and which has no git. -/
def Env.still : Env ℕ := ⟨fun _ => some [], fun _ _ => "", 0⟩

/-- The files `a/b` and `a_b` share a record: the purpose of the second replaces that of the first. The
flows `x y` and `x/y` share an overlay. -/
theorem slash_shares_record :
    let a : Save := .record (.file (fileAt "a/b"))
    let b : Save := .record (.file (fileAt "a_b"))
    (a.repo, a.ident) ≠ (b.repo, b.ident) ∧ a.key .mem = b.key .mem ∧
      (((b.save .still .mem).run ((a.save .still .mem).run (Server.empty ℕ)).2).2.hashAt
        (a.key .mem)).map (·.text "purpose") = some "about a_b" ∧
      flowOverlayKey .mem "r" "x y" = flowOverlayKey .mem "r" "x/y" := by
  decide +kernel

end Devrouter.Memory
