/-
What a text with tokens in it is meant to say, and how such a text is read. A
piece of a text means its characters, or the variable or the arguments that its
token refers to (`Piece.meaning`). A reader goes over a text from left to right,
one reading at a time (`Meaning.read`). Which characters start a reading is the
matter of each reader, and so is whether a text that was quoted, and then had
its tokens replaced (`KeepsTokens.toList_expand`), is read as it was meant.
-/
import Scriptwright.Name
import Scriptwright.Proofs.Token.Scan

namespace Scriptwright

/-- What a reader takes from a text. -/
inductive Meaning where
  | literal (c : Char)
  /-- The value of a variable. -/
  | reference (name : String)
  /-- All arguments. -/
  | arguments
  /-- One argument, by its digit. -/
  | argument (digit : Char)
  /-- A character that is no part of the text: the reader does something at it. -/
  | live (c : Char)
  deriving DecidableEq, Repr

/-! ## Reading -/

namespace Meaning

/-- What is read after some characters that a reading has already taken. -/
def readFrom (first : Char → List Char → Meaning × Nat) : Nat → List Char → List Meaning
  | _, [] => []
  | taken + 1, _ :: cs => readFrom first taken cs
  | 0, c :: cs => (first c cs).1 :: readFrom first (first c cs).2 cs

/-- What a text is read as, where `first` gives what the start of a text is read as and how many characters that takes
besides the first one. -/
def read (first : Char → List Char → Meaning × Nat) (cs : List Char) : List Meaning :=
  readFrom first 0 cs

variable {first : Char → List Char → Meaning × Nat}

theorem readFrom_eq_drop (n : Nat) (cs : List Char) : readFrom first n cs = read first (cs.drop n) := by
  induction cs generalizing n with
  | nil => cases n <;> rfl
  | cons c cs ih =>
    cases n with
    | zero => rfl
    | succ n => exact ih n

theorem read_cons (c : Char) (cs : List Char) :
    read first (c :: cs) = (first c cs).1 :: read first (cs.drop (first c cs).2) := by
  rw [← readFrom_eq_drop]
  rfl

/-- Characters that start no longer reading are read one by one. -/
theorem read_literals {a : List Char} (h : ∀ c ∈ a, ∀ cs, first c cs = (.literal c, 0)) (rest : List Char) :
    read first (a ++ rest) = a.map .literal ++ read first rest := by
  induction a with
  | nil => rfl
  | cons c a ih =>
    rw [List.cons_append, read_cons, h c List.mem_cons_self, List.drop_zero,
      ih fun d hd => h d (List.mem_cons_of_mem _ hd)]
    rfl

end Meaning

/-! ## What is meant -/

namespace Token

/-- The variable whose value a token stands for. -/
def refersTo? (family : Family) (t : Token) : Option String :=
  match family, t with
  | .windows, .tempDir => some "TEMP"
  | .unix, .currentUser => some "USER"
  | .windows, .currentUser => some "USERNAME"
  | .unix, .homeDir => some "HOME"
  | .windows, .homeDir => some "USERPROFILE"
  | _, _ => none

/-- What a token means in a family: a variable, the arguments, or just its text. -/
def meaning (family : Family) (t : Token) : List Meaning :=
  match t.refersTo? family with
  | some name => [.reference name]
  | none => if t = .arguments then [.arguments] else (t.text family).toList.map .literal

/-- A token that stands for a variable is written as a reference to it. -/
theorem text_of_refersTo? {family : Family} {t : Token} {name : String} (h : t.refersTo? family = some name) :
    t.text family = family.variableRef name := by
  cases family <;> cases t <;> cases h <;> decide

theorem isIdentifier_of_refersTo? {family : Family} {t : Token} {name : String} (h : t.refersTo? family = some name) :
    isIdentifier name = true := by
  cases family <;> cases t <;> cases h <;> decide

/-- What a piece means in a family. -/
def Piece.meaning (family : Family) : Piece → List Meaning
  | .token t => t.meaning family
  | .plain c => [.literal c]

/-- A text means characters, variables and arguments, and nothing that a reader acts on. -/
theorem Piece.mem_meaning {family : Family} {p : Piece} {m : Meaning} (h : m ∈ p.meaning family) :
    (∃ c, m = .literal c) ∨ (∃ name, m = .reference name) ∨ m = .arguments := by
  cases p with
  | plain c => exact .inl ⟨c, List.mem_singleton.1 h⟩
  | token t =>
    rw [Piece.meaning, Token.meaning] at h
    split at h
    · next name _ => exact .inr (.inl ⟨name, List.mem_singleton.1 h⟩)
    · split at h
      · exact .inr (.inr (List.mem_singleton.1 h))
      · obtain ⟨c, -, rfl⟩ := List.mem_map.1 h
        exact .inl ⟨c, rfl⟩

/-! ## Quoted texts -/

/-- What a piece is written as where tokens are replaced and the characters around them are written anew. -/
def Piece.write (family : Family) (f : Char → List Char) : Piece → List Char
  | .token t => (t.text family).toList
  | .plain c => f c

variable {f g : Char → List Char}

/-- A quoted text whose tokens are replaced is written piece by piece. -/
theorem KeepsTokens.toList_expand (h : KeepsTokens f) (family : Family) (text : String) :
    (expand family (Text.flatMap f text)).toList = (scan text.toList).flatMap (Piece.write family f) := by
  have hpiece : ∀ p : Piece, (p.encode f).flatMap (Piece.expand family) = p.write family f := by
    intro p
    cases p with
    | token t => exact List.flatMap_singleton _ _
    | plain c => exact flatMap_expand_map_plain family (f c)
  rw [expand, String.toList_ofList, Text.toList_flatMap, h.scan_flatMap, List.flatMap_assoc]
  simp only [hpiece]

/-- Percent signs are doubled in what the carets leave, so a character is written anew twice. -/
theorem escapeEcho_eq_flatMap (text : String) :
    Batch.escapeEcho text = Text.flatMap (fun c => (Batch.escapeChar c).flatMap Batch.percentChar) text := by
  apply String.toList_injective
  rw [Batch.escapeEcho, Batch.escapePercent, Text.toList_flatMap, Batch.escape, Text.toList_flatMap,
    Text.toList_flatMap, List.flatMap_assoc]

/-- Tokens on either side of a character of no token are replaced each on its own. -/
theorem expand_append_apart (family : Family) (a : String) {b : String} (hb : Apart b.toList) :
    expand family (a ++ b) = expand family a ++ expand family b := by
  apply String.toList_injective
  simp only [expand, String.toList_append, scan_append a.toList hb, List.flatMap_append, String.toList_ofList]

/-- Double quotes around a text are written as they are. -/
theorem expand_quotes (family : Family) (text : String) :
    expand family ("\"" ++ text ++ "\"") = "\"" ++ expand family text ++ "\"" := by
  have hend : Apart "\"".toList := apart_cons.2 rfl
  have hquote : expand family "\"" = "\"" := by cases family <;> decide
  rw [expand_append_apart family _ hend, expand_append family (by decide), hquote]

end Token
end Scriptwright
