/-
How JSON is spelled. A value has one row of lexemes (`Json.lexemes`). A text
spells it when it has a word for each of them, in order, with any space before,
between and behind them (`Json.Spells`). Numbers and the words `null`, `true`
and `false` have one spelling each; a string has many, since each of its
characters may be written as an escape.
-/
import Mathlib.Data.List.Chain
import Scriptwright.Json.Outline

namespace Scriptwright.Json

/-! ## Words -/

/-- The lexeme of a scalar. -/
def Scalar.lexeme : Scalar → Lexeme
  | .string text => .string (.ok text) (.ok ())
  | value => .plain (.ok value) (.ok ())

open Quoted in
/-- The characters of a string, and how they may be spelled between its quotes. -/
inductive Inside : List Char → List Char → Prop where
  | nil : Inside [] []
  | plain {c : Char} {text cs : List Char} (hquote : c ≠ '\x22') (hslash : c ≠ '\\') (hcontrol : isControl c = false)
      (rest : Inside text cs) : Inside (c :: text) (c :: cs)
  | letter {c d : Char} {text cs : List Char} (hd : letterEscape? d = some c) (rest : Inside text cs) :
      Inside (c :: text) ('\\' :: d :: cs)
  | number {n : Nat} {a b c d : Char} {text cs : List Char} (hn : fourHex? [a, b, c, d] = some n)
      (hleading : isLeading n = false) (htrailing : isTrailing n = false) (rest : Inside text cs) :
      Inside (Char.ofNat n :: text) ('\\' :: 'u' :: a :: b :: c :: d :: cs)
  | pair {m n : Nat} {a b c d a' b' c' d' : Char} {text cs : List Char} (hm : fourHex? [a, b, c, d] = some m)
      (hleading : isLeading m = true) (hn : fourHex? [a', b', c', d'] = some n) (htrailing : isTrailing n = true)
      (rest : Inside text cs) :
      Inside (ofPair m n :: text) ('\\' :: 'u' :: a :: b :: c :: d :: '\\' :: 'u' :: a' :: b' :: c' :: d' :: cs)

/-- A lexeme, and how it may be spelled. Integers are those that 64 bits hold, with a sign or without. -/
inductive Word : Lexeme → List Char → Prop where
  | openBracket : Word .openBracket ['[']
  | closeBracket : Word .closeBracket [']']
  | openBrace : Word .openBrace ['\x7b']
  | closeBrace : Word .closeBrace ['\x7d']
  | comma : Word .comma [',']
  | colon : Word .colon [':']
  | null : Word (Scalar.null.lexeme) "null".toList
  | true : Word ((Scalar.bool true).lexeme) "true".toList
  | false : Word ((Scalar.bool false).lexeme) "false".toList
  | integer {n : Int} (hmin : -Numeral.maxNegative ≤ n) (hmax : n ≤ Numeral.maxSignificand) :
      Word ((Scalar.number (.integer n)).lexeme) (toString n).toList
  | string {text : String} {cs : List Char} (inside : Inside text.toList cs) :
      Word ((Scalar.string text).lexeme) ('\x22' :: (cs ++ ['\x22']))

/-- A row of lexemes, and how it may be spelled, with space before each word and at the end. -/
inductive Spells : List Lexeme → List Char → Prop where
  | nil {space : List Char} (hspace : ∀ c ∈ space, Lexeme.isSpace c = true) : Spells [] space
  | cons {l : Lexeme} {ls : List Lexeme} {space word cs : List Char} (hspace : ∀ c ∈ space, Lexeme.isSpace c = true)
      (hword : Word l word) (rest : Spells ls cs) : Spells (l :: ls) (space ++ (word ++ cs))

/-! ## Writing -/

/-- A character of a string, as it is written between quotes. -/
def Quoted.escape (c : Char) : List Char :=
  if c = '\x22' ∨ c = '\\' then ['\\', c]
  else if isControl c then ['\\', 'u', '0', '0', (c.toNat / 16).digitChar, (c.toNat % 16).digitChar]
  else [c]

/-- A lexeme as it is written. -/
def Lexeme.written : Lexeme → List Char
  | .openBracket => ['[']
  | .closeBracket => [']']
  | .openBrace => ['\x7b']
  | .closeBrace => ['\x7d']
  | .comma => [',']
  | .colon => [':']
  | .plain (.ok .null) _ => "null".toList
  | .plain (.ok (.bool value)) _ => (toString value).toList
  | .plain (.ok (.number (.integer n))) _ => (toString n).toList
  | .string (.ok text) _ => '\x22' :: (text.toList.flatMap Quoted.escape ++ ['\x22'])
  | _ => []

/-- Whether a lexeme is sound, and no floating-point value. -/
def Lexeme.isWritten : Lexeme → Bool
  | .openBracket | .closeBracket | .openBrace | .closeBrace | .comma | .colon => true
  | .plain (.ok .null) (.ok ()) | .plain (.ok (.bool _)) (.ok ()) | .string (.ok _) (.ok ()) => true
  | .plain (.ok (.number (.integer n))) (.ok ()) => -Numeral.maxNegative ≤ n && n ≤ Numeral.maxSignificand
  | _ => false

open Quoted in
theorem inside_escape (text : List Char) : Inside text (text.flatMap escape) := by
  induction text with
  | nil => exact .nil
  | cons c text ih =>
    rw [List.flatMap_cons, escape]
    split
    · next h =>
      refine .letter ?_ ih
      rcases h with rfl | rfl <;> rfl
    · next h =>
      split
      · next hcontrol =>
        have hn : c.toNat < 32 := by simpa [isControl] using hcontrol
        have hall : ∀ n < 32, fourHex? ['0', '0', (n / 16).digitChar, (n % 16).digitChar] = some n ∧
            isLeading n = false ∧ isTrailing n = false := by decide
        obtain ⟨hhex, hleading, htrailing⟩ := hall _ hn
        have hinside := Inside.number hhex hleading htrailing ih
        rw [Char.ofNat_toNat] at hinside
        exact hinside
      · next hcontrol => exact .plain (fun hc => h (.inl hc)) (fun hc => h (.inr hc)) (by simpa using hcontrol) ih

theorem word_written {l : Lexeme} (h : l.isWritten = true) : Word l l.written := by
  unfold Lexeme.isWritten at h
  split at h
  · exact .openBracket
  · exact .closeBracket
  · exact .openBrace
  · exact .closeBrace
  · exact .comma
  · exact .colon
  · exact .null
  · next value =>
    cases value with
    | false => exact .false
    | true => exact .true
  · next text => exact .string (inside_escape text.toList)
  · next n =>
    rw [Bool.and_eq_true, decide_eq_true_eq, decide_eq_true_eq] at h
    exact .integer h.1 h.2
  · cases h

/-- Lexemes written one after another are a spelling of their row. -/
theorem spells_written {ls : List Lexeme} (h : ∀ l ∈ ls, l.isWritten = true) :
    Spells ls (ls.flatMap Lexeme.written) := by
  induction ls with
  | nil => exact .nil (by simp)
  | cons l ls ih =>
    have hword := word_written (h l List.mem_cons_self)
    have hrest := ih fun l hl => h l (List.mem_cons_of_mem _ hl)
    have hspace : ∀ c ∈ ([] : List Char), Lexeme.isSpace c = true := fun c hc => absurd hc List.not_mem_nil
    exact .cons hspace hword hrest

/-! ## Values -/

mutual

/-- The lexemes of a value. -/
def lexemes : Json → List Lexeme
  | .scalar value => [value.lexeme]
  | .array items => .openBracket :: itemLexemes items
  | .object members => .openBrace :: memberLexemes members
  termination_by structural j => j

/-- The lexemes of a list behind its bracket. -/
def itemLexemes : List Json → List Lexeme
  | [] => [.closeBracket]
  | j :: js => j.lexemes ++ moreItemLexemes js
  termination_by structural js => js

/-- The lexemes of a list behind one of its elements. -/
def moreItemLexemes : List Json → List Lexeme
  | [] => [.closeBracket]
  | j :: js => .comma :: (j.lexemes ++ moreItemLexemes js)
  termination_by structural js => js

/-- The lexemes of an object behind its brace. -/
def memberLexemes : List (String × Json) → List Lexeme
  | [] => [.closeBrace]
  | (key, j) :: ms => (Scalar.string key).lexeme :: .colon :: (j.lexemes ++ moreMemberLexemes ms)
  termination_by structural ms => ms

/-- The lexemes of an object behind one of its members. -/
def moreMemberLexemes : List (String × Json) → List Lexeme
  | [] => [.closeBrace]
  | (key, j) :: ms => .comma :: (Scalar.string key).lexeme :: .colon :: (j.lexemes ++ moreMemberLexemes ms)
  termination_by structural ms => ms

end

mutual

/-- How deep the brackets of a value nest. -/
def depth : Json → Nat
  | .scalar _ => 0
  | .array items => itemsDepth items + 1
  | .object members => membersDepth members + 1
  termination_by structural j => j

def itemsDepth : List Json → Nat
  | [] => 0
  | j :: js => max j.depth (itemsDepth js)
  termination_by structural js => js

def membersDepth : List (String × Json) → Nat
  | [] => 0
  | (_, j) :: ms => max j.depth (membersDepth ms)
  termination_by structural ms => ms

end

end Scriptwright.Json
