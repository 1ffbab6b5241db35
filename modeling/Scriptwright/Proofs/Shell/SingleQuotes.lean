/-
A word with single quotes in it. A reader goes in and out of the quotes, takes
what is between them as it stands and a character behind a backslash outside of
them likewise, and notes which characters it found bare (`word?`). A pattern is
read as the value it is for, with its quotes closed at the end, however many
quotes the value has and wherever they are; and what is bare in it has no
meaning of its own (`pattern_lossless`).
-/
import Scriptwright.Proofs.Shell.Label

namespace Scriptwright.Shell

/-- The characters of a word, from inside single quotes or from outside them, and whether each stands bare. Neither
quotes that nothing closes nor a backslash at the end make a word. -/
def word? : Bool → List Char → Option (List (Char × Bool))
  | true, [] => none
  | true, c :: cs => if c = '\x27' then word? false cs else (word? true cs).map ((c, false) :: ·)
  | false, [] => some []
  | false, '\\' :: [] => none
  | false, '\\' :: c :: cs => (word? false cs).map ((c, false) :: ·)
  | false, c :: cs => if c = '\x27' then word? true cs else (word? false cs).map ((c, true) :: ·)

theorem word?_bare {cs : List Char} (h : ∀ c ∈ cs, isPatternChar c = true) :
    word? false cs = some (cs.map (·, true)) := by
  induction cs with
  | nil => rfl
  | cons c cs ih =>
    obtain ⟨hquote, hslash, -, -⟩ := isPatternChar_bare (h c List.mem_cons_self)
    rw [word?, if_neg hquote, ih fun d hd => h d (List.mem_cons_of_mem _ hd)]
    · rfl
    · exact fun hc _ => hslash hc
    · exact fun _ _ hc _ => hslash hc

/-- A quoted character is read as the character and leaves the reader in quotes, also where it is a single quote, for
which the reader goes out of the quotes and in again. -/
theorem word?_singleQuotedChar (c : Char) (rest : List Char) :
    word? true (singleQuotedChar c ++ rest) = (word? true rest).map ((c, false) :: ·) := by
  unfold singleQuotedChar
  split
  · next hc => simp [hc, word?]
  · next hc => rw [List.singleton_append, word?, if_neg hc]

/-- What is put between quotes is read back from there, and the quote behind it closes them. -/
theorem word?_quoted (cs : List Char) :
    word? true (cs.flatMap singleQuotedChar ++ ['\x27']) = some (cs.map (·, false)) := by
  induction cs with
  | nil => simp [word?]
  | cons c cs ih =>
    rw [List.flatMap_cons, List.append_assoc, word?_singleQuotedChar, ih]
    rfl

/-- A pattern is read as its value, all of it bare or all of it not. -/
theorem word?_pattern (value : String) :
    word? false (pattern value).toList = some (value.toList.map (·, isBarePattern value)) := by
  unfold pattern
  split
  · next hbare =>
    rw [hbare]
    rw [isBarePattern, Bool.and_eq_true, List.all_eq_true] at hbare
    exact word?_bare hbare.2
  · next hbare =>
    have hshape : ("\x27" ++ Text.flatMap singleQuotedChar value ++ "\x27").toList
        = '\x27' :: (value.toList.flatMap singleQuotedChar ++ ['\x27']) := by simp
    rw [hshape, word?, if_pos rfl, word?_quoted, Bool.eq_false_iff.2 hbare]
    · exact fun h _ => absurd h (by decide)
    · exact fun _ _ h _ => absurd h (by decide)

/-- A bare character of a pattern is a letter, a digit or one of three signs, none of which a shell looks at. -/
theorem isPatternChar_cases {c : Char} (h : isPatternChar c = true) :
    (c.isAlphanum = true ∨ c = '_' ∨ c = '.' ∨ c = '-') ∧ isSpecial c = false := by
  refine ⟨?_, (isPatternChar_bare h).2.2.2⟩
  simpa [isPatternChar, Text.isWordChar, or_assoc] using h

theorem pattern_injective : Function.Injective pattern := by
  intro a b h
  have hread := word?_pattern a
  rw [h, word?_pattern, Option.some.injEq] at hread
  have hvalues := congrArg (List.map Prod.fst) hread
  rw [List.map_map, List.map_map] at hvalues
  exact String.toList_injective (by simpa [Function.comp_def] using hvalues.symm)

theorem pattern_ne_empty (value : String) : pattern value ≠ "" := by
  unfold pattern
  split
  · next hbare =>
    rintro rfl
    cases hbare
  · simp

/-- Read the pattern of a value as a word. The quotes are closed at its end and the characters are those of the value,
in order. Each one that stands bare, in no quotes and behind no backslash, is a letter or a digit of ASCII, an
underscore, a dot or a hyphen, so none makes the shell match, expand or end anything. No pattern is empty, and no two
values have the same one. -/
theorem pattern_lossless (value : String) :
    (∃ read, word? false (pattern value).toList = some read ∧ read.map Prod.fst = value.toList ∧
        ∀ c, (c, true) ∈ read → (c.isAlphanum = true ∨ c = '_' ∨ c = '.' ∨ c = '-') ∧ isSpecial c = false) ∧
      pattern value ≠ "" ∧ ∀ other, pattern other = pattern value → other = value := by
  refine ⟨⟨_, word?_pattern value, ?_, fun c hc => ?_⟩, pattern_ne_empty value, fun other h => pattern_injective h⟩
  · rw [List.map_map]
    exact List.map_id _
  · obtain ⟨d, hd, he⟩ := List.mem_map.1 hc
    obtain ⟨rfl, hbare⟩ := Prod.mk.inj he
    rw [isBarePattern, Bool.and_eq_true, List.all_eq_true] at hbare
    exact isPatternChar_cases (hbare.2 d hd)

/-- Single quotes first, in a row and last, with a glob and a backslash between them; and a glob in quotes of its own
beside one without. -/
theorem pattern_lossless_of_quotes :
    (∃ read, word? false "\x27\x27\\\x27\x27*\x27\\\x27\x27\x27\\\x27\x27\\\x27\\\x27\x27\x27".toList = some read ∧
        read.map Prod.fst = "\x27*\x27\x27\\\x27".toList ∧ ∀ c, (c, true) ∈ read → isSpecial c = false) ∧
      pattern "\x27*\x27" ≠ pattern "*" := by
  have hpattern : pattern "\x27*\x27\x27\\\x27"
      = "\x27\x27\\\x27\x27*\x27\\\x27\x27\x27\\\x27\x27\\\x27\\\x27\x27\x27" := by decide
  obtain ⟨⟨read, hread, hvalue, hbare⟩, -, -⟩ := pattern_lossless "\x27*\x27\x27\\\x27"
  rw [hpattern] at hread
  refine ⟨⟨read, hread, hvalue, fun c hc => (hbare c hc).2⟩, fun h => ?_⟩
  exact absurd ((pattern_lossless "*").2.2 "\x27*\x27" h) (by decide)

end Scriptwright.Shell
