/-
How a shell reads the line that starts an arm of a `case` block: a label, quotes
taken off, and its closing parenthesis; or the word that ends the block, which
is not read as a label even where a label is due (`heading?`). A pattern reads
back as the text it is for unless the text is that word (`heading?_pattern`).
-/
import Scriptwright.Proofs.Batch.Reading
import Scriptwright.Shell.Layout

namespace Scriptwright.Shell

/-- Whether a bare character ends a word. -/
def endsWord (c : Char) : Bool :=
  "|&;()<> \t\n".toList.contains c

/-- Whether a bare character means something other than itself. -/
def isSpecial (c : Char) : Bool :=
  endsWord c || "\x22$\x60*?[~#!".toList.contains c

/-- A label up to its closing parenthesis, from inside single quotes or from outside them, and
what follows. A label with a live character in it is not read. -/
def label? : Bool → List Char → Option (List Char × List Char)
  | _, [] => none
  | true, c :: cs =>
    if c = '\x27' then label? false cs
    else (label? true cs).map fun (value, rest) => (c :: value, rest)
  | false, '\\' :: c :: cs => (label? false cs).map fun (value, rest) => (c :: value, rest)
  | false, c :: cs =>
    if c = '\x27' then label? true cs
    else if c = ')' then some ([], cs)
    else if c = '\\' || isSpecial c then none
    else (label? false cs).map fun (value, rest) => (c :: value, rest)

/-- What may stand where an arm starts. -/
inductive Heading where
  | label (value : String)
  /-- The end of the block. -/
  | close
  deriving DecidableEq, Repr

/-- A label that is all of a text. -/
def wholeLabel? (cs : List Char) : Option Heading :=
  match label? false cs with
  | some (value, []) => some (.label (String.ofList value))
  | _ => none

/-- What stands on a line where an arm may start, the white space before it dropped. The word that ends
a block is known by its bare spelling, and nothing may follow it. -/
def heading? (text : String) : Option Heading :=
  let cs := text.toList.dropWhile (· == ' ')
  let word := cs.takeWhile fun c => !endsWord c
  if word = "esac".toList then if cs = word then some .close else none
  else if word = [] then none
  else wholeLabel? cs

@[simp] theorem heading?_indentation (depth : Nat) (text : String) :
    heading? (Part.indentation depth ++ text) = heading? text := by
  rw [heading?, String.toList_append, Batch.dropWhile_indentation, ← heading?]

/-! ## Patterns -/

/-- A test that fails at each character that a shell looks at. -/
theorem eq_false_of_isSpecial {p : Char → Bool}
    (h : ("|&;()<> \t\n".toList ++ "\x22$\x60*?[~#!".toList).all (fun d => !p d) = true) {c : Char}
    (hc : isSpecial c = true) : p c = false := by
  rw [isSpecial, endsWord, Bool.or_eq_true, List.contains_iff_mem, List.contains_iff_mem] at hc
  simpa using List.all_eq_true.1 h c (List.mem_append.2 hc)

theorem isPatternChar_eq_false_of_isSpecial {c : Char} (h : isSpecial c = true) : isPatternChar c = false :=
  eq_false_of_isSpecial (by decide) h

/-- A bare pattern character is none that a shell looks at. -/
theorem isPatternChar_bare {c : Char} (h : isPatternChar c = true) :
    c ≠ '\x27' ∧ c ≠ '\\' ∧ c ≠ ')' ∧ isSpecial c = false := by
  refine ⟨?_, ?_, ?_, ?_⟩
  · rintro rfl; revert h; decide
  · rintro rfl; revert h; decide
  · rintro rfl; revert h; decide
  · rw [← Bool.not_eq_true]
    intro hs
    rw [isPatternChar_eq_false_of_isSpecial hs] at h
    cases h

theorem label?_bare {cs : List Char} (h : ∀ c ∈ cs, isPatternChar c = true) (rest : List Char) :
    label? false (cs ++ ')' :: rest) = some (cs, rest) := by
  induction cs with
  | nil => simp [label?]
  | cons c cs ih =>
    obtain ⟨hquote, hslash, hparen, hspecial⟩ := isPatternChar_bare (h c List.mem_cons_self)
    rw [List.cons_append, label?, if_neg hquote, if_neg hparen, if_neg (by simp [hslash, hspecial]),
      ih fun d hd => h d (List.mem_cons_of_mem _ hd)]
    · rfl
    · exact fun _ _ hc _ => hslash hc

/-- A single quote leaves the quotes, stands bare behind a backslash, and enters them again. -/
theorem label?_quoted (cs rest : List Char) :
    label? true (cs.flatMap singleQuotedChar ++ '\x27' :: ')' :: rest) = some (cs, rest) := by
  induction cs with
  | nil => simp [label?]
  | cons c cs ih =>
    rw [List.flatMap_cons, List.append_assoc]
    by_cases hc : c = '\x27'
    · simp [singleQuotedChar, hc, label?, ih]
    · simp [singleQuotedChar, hc, label?, ih]

/-- A pattern is a label that stands for the text it was made of. -/
theorem label?_pattern (value : String) (rest : List Char) :
    label? false ((pattern value).toList ++ ')' :: rest) = some (value.toList, rest) := by
  unfold pattern
  split
  · next hbare =>
    rw [isBarePattern, Bool.and_eq_true, List.all_eq_true] at hbare
    exact label?_bare hbare.2 rest
  · have hshape : ("\x27" ++ Text.flatMap singleQuotedChar value ++ "\x27").toList ++ ')' :: rest
        = '\x27' :: (value.toList.flatMap singleQuotedChar ++ '\x27' :: ')' :: rest) := by simp
    rw [hshape, label?, if_pos rfl, label?_quoted]
    simp

theorem endsWord_eq_false {c : Char} (h : isPatternChar c = true) : endsWord c = false :=
  (Bool.or_eq_false_iff.1 (isPatternChar_bare h).2.2.2).1

/-- Where a word starts no blanks are dropped. -/
theorem heading?_cons {text : String} {c : Char} {cs : List Char} (ht : text.toList = c :: cs)
    (hc : endsWord c = false) :
    heading? text =
      if (c :: cs).takeWhile (fun c => !endsWord c) = "esac".toList then
        if c :: cs = (c :: cs).takeWhile fun c => !endsWord c then some .close else none
      else wholeLabel? (c :: cs) := by
  have hblank : (c == ' ') = false := by
    rw [beq_eq_false_iff_ne]
    rintro rfl
    revert hc
    decide
  have hdrop : (c :: cs).dropWhile (· == ' ') = c :: cs := List.dropWhile_cons_of_neg (by simp [hblank])
  have hword : (c :: cs).takeWhile (fun c => !endsWord c) ≠ [] := by simp [hc]
  simp only [heading?, ht, hdrop, if_neg hword]

theorem wholeLabel?_pattern (value : String) : wholeLabel? (pattern value ++ ")").toList = some (.label value) := by
  have hlabel : label? false (pattern value ++ ")").toList = some (value.toList, []) := by
    rw [String.toList_append]
    exact label?_pattern value []
  simp only [wholeLabel?, hlabel, String.ofList_toList]

/-- A line that starts an arm reads back as the value of the arm, but for the value that is the word at the end of
a block: there the shell reads neither a label nor an end that nothing follows. -/
theorem heading?_pattern (value : String) :
    heading? (pattern value ++ ")") = if value = "esac" then none else some (.label value) := by
  have hesac : isBarePattern "esac" = true := by decide
  have hparen : endsWord ')' = true := by decide
  cases hbare : isBarePattern value with
  | true =>
    have hall : ∀ c ∈ value.toList, endsWord c = false := by
      intro c hc
      rw [isBarePattern, Bool.and_eq_true, List.all_eq_true] at hbare
      exact endsWord_eq_false (hbare.2 c hc)
    obtain ⟨c, cs, hcs⟩ : ∃ c cs, value.toList = c :: cs := by
      refine List.exists_cons_of_ne_nil fun he => ?_
      simp [isBarePattern, String.toList_eq_nil_iff.1 he] at hbare
    have htext : (pattern value ++ ")").toList = c :: (cs ++ [')']) := by
      rw [pattern, if_pos hbare, String.toList_append, hcs]
      rfl
    have hword : (c :: (cs ++ [')'])).takeWhile (fun c => !endsWord c) = value.toList := by
      rw [← List.cons_append, ← hcs, List.takeWhile_append_of_pos fun d hd => by rw [hall d hd, Bool.not_false]]
      simp [hparen]
    have hmore : c :: (cs ++ [')']) ≠ value.toList := fun he => by simp [hcs] at he
    rw [heading?_cons htext (hall c (hcs ▸ List.mem_cons_self)), hword, if_neg hmore, ← htext, wholeLabel?_pattern]
    simp only [String.toList_inj]
  | false =>
    have hne : value ≠ "esac" := by
      rintro rfl
      rw [hesac] at hbare
      cases hbare
    obtain ⟨cs, htext⟩ : ∃ cs, (pattern value ++ ")").toList = '\x27' :: cs := by simp [pattern, hbare]
    have hword : ('\x27' :: cs).takeWhile (fun c => !endsWord c) ≠ "esac".toList := by
      simp [show endsWord '\x27' = false by decide]
    rw [heading?_cons htext (by decide), if_neg hword, if_neg hne, ← htext, wholeLabel?_pattern]

example : heading? "   \x27it\x27\\\x27\x27s\x27)" = some (.label "it\x27s") := by decide

end Scriptwright.Shell
