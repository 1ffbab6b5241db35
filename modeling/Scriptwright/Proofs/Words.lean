/-
The words that a line falls into: a line is cut at each delimiter outside double
quotes, and in a shell script a word that starts with a number sign begins a
comment (`words`). A text passes from one state of the reader to another if no
word ends in it (`Passes`). Words that leave all double quotes closed, one blank
apart, are the words of their line (`words_line`); the other way round, each
word of a line is one word on its own (`isWord_of_mem_words`).
-/
import Mathlib.Data.List.TakeWhile
import Scriptwright.Batch.Quote
import Scriptwright.Family
import Scriptwright.Proofs.Text.Lines

namespace Scriptwright

/-! ## Reading -/

/-- Whether a character outside double quotes ends a word. -/
def Family.endsWord : Family → Char → Bool
  | .unix, c => Text.isBlankChar c
  | .windows, c => Batch.isSplitChar c && c != '\x22'

/-- Where a reader of words is: between double quotes or not, and behind a backslash that takes the next character or
not. -/
structure Quoting where
  quoted : Bool
  slashed : Bool
  deriving DecidableEq

namespace Quoting

/-- Outside double quotes. -/
def outside : Quoting := ⟨false, false⟩

/-- Between double quotes. -/
def inside : Quoting := ⟨true, false⟩

/-- Behind one more character. A backslash takes the next character in a shell script only. -/
def after (family : Family) (q : Quoting) (c : Char) : Quoting :=
  if q.slashed then ⟨q.quoted, false⟩
  else if c = '\\' ∧ family = .unix then ⟨q.quoted, true⟩
  else if c = '\x22' then ⟨!q.quoted, false⟩
  else q

end Quoting

open Quoting

variable {family : Family} {q : Quoting}

/-- The pieces of a line between the places where a word ends, some of them empty. -/
def cutWords (family : Family) : Quoting → List Char → List (List Char)
  | _, [] => [[]]
  | q, c :: cs =>
    if q = outside ∧ family.endsWord c = true then [] :: cutWords family outside cs
    else (cutWords family (q.after family c) cs).modifyHead (c :: ·)

/-- The words of a line as they are written, quotes and all. -/
def words (family : Family) (line : String) : List String :=
  let found := (cutWords family outside line.toList).filter (· ≠ [])
  let read := match family with
    | .unix => found.takeWhile fun word : List Char => word.head? ≠ some '#'
    | .windows => found
  read.map String.ofList

theorem cutWords_cons {c : Char} (h : ¬ (q = outside ∧ family.endsWord c = true)) (cs : List Char) :
    cutWords family q (c :: cs) = (cutWords family (q.after family c) cs).modifyHead (c :: ·) := by
  rw [cutWords, if_neg h]

theorem cutWords_of_endsWord {c : Char} (h : family.endsWord c = true) (cs : List Char) :
    cutWords family outside (c :: cs) = [] :: cutWords family outside cs := by
  rw [cutWords, if_pos ⟨rfl, h⟩]

theorem endsWord_space (family : Family) : family.endsWord ' ' = true := by
  cases family <;> decide

/-! ## Words on their own -/

/-- A text is one word. -/
structure IsWord (family : Family) (text : String) : Prop where
  ne_nil : text.toList ≠ []
  whole : cutWords family outside text.toList = [text.toList]
  no_comment : family = .unix → text.toList.head? ≠ some '#'

/-- Each piece of a line, read on its own, is one piece: the first from where the line starts, the others from outside
double quotes. -/
theorem cutWords_whole (family : Family) (q : Quoting) (cs : List Char) :
    ∃ word rest, cutWords family q cs = word :: rest ∧ cutWords family q word = [word] ∧
      ∀ other ∈ rest, cutWords family outside other = [other] := by
  -- Along the text, from any state: where a word ends the reader is outside again, so the rest is cut on its own.
  induction cs generalizing q with
  | nil => exact ⟨[], [], rfl, rfl, fun _ h => absurd h List.not_mem_nil⟩
  | cons c cs ih =>
    by_cases hends : q = outside ∧ family.endsWord c = true
    · obtain ⟨rfl, hc⟩ := hends
      obtain ⟨word, rest, hcut, hword, hrest⟩ := ih outside
      refine ⟨[], word :: rest, by rw [cutWords_of_endsWord hc, hcut], rfl, fun other hother => ?_⟩
      rcases List.mem_cons.1 hother with rfl | hother
      · exact hword
      · exact hrest other hother
    · obtain ⟨word, rest, hcut, hword, hrest⟩ := ih (q.after family c)
      refine ⟨c :: word, rest, by rw [cutWords_cons hends, hcut]; rfl, ?_, hrest⟩
      rw [cutWords_cons hends, hword]
      rfl

theorem cutWords_of_mem {word cs : List Char} (h : word ∈ cutWords family outside cs) :
    cutWords family outside word = [word] := by
  obtain ⟨first, rest, hcut, hfirst, hrest⟩ := cutWords_whole family outside cs
  rw [hcut] at h
  rcases List.mem_cons.1 h with rfl | h
  · exact hfirst
  · exact hrest word h

/-- Each word of a line is one on its own. -/
theorem isWord_of_mem_words {word line : String} (h : word ∈ words family line) : IsWord family word := by
  obtain ⟨cs, hcs, rfl⟩ := List.mem_map.1 h
  have hfound : cs ∈ (cutWords family outside line.toList).filter (· ≠ []) := by
    cases family with
    | unix => exact (List.takeWhile_sublist _).subset hcs
    | windows => exact hcs
  obtain ⟨hmem, hne⟩ := List.mem_filter.1 hfound
  refine ⟨?_, ?_, ?_⟩
  · simpa using hne
  · rw [String.toList_ofList]
    exact cutWords_of_mem hmem
  · rintro rfl
    simpa using List.mem_takeWhile_imp hcs

/-- A word in which no quoting starts holds nothing that ends a word. -/
theorem IsWord.endsWord_eq_false {text : String} (h : IsWord family text)
    (hplain : ∀ c ∈ text.toList, outside.after family c = outside) : ∀ c ∈ text.toList, family.endsWord c = false := by
  have hwhole := h.whole
  generalize text.toList = cs at hwhole hplain
  induction cs with
  | nil => exact fun _ hc => absurd hc List.not_mem_nil
  | cons c cs ih =>
    cases hc : family.endsWord c with
    | true =>
      rw [cutWords_of_endsWord hc] at hwhole
      cases hwhole
    | false =>
      rw [cutWords_cons (by simp [hc]), hplain c List.mem_cons_self] at hwhole
      obtain ⟨word, rest, hcut, -, -⟩ := cutWords_whole family outside cs
      rw [hcut, List.modifyHead_cons, List.cons.injEq, List.cons_inj_right] at hwhole
      have hrest := ih (by rw [hcut, hwhole.1, hwhole.2]) fun d hd => hplain d (List.mem_cons_of_mem _ hd)
      intro d hd
      rcases List.mem_cons.1 hd with rfl | hd
      · exact hc
      · exact hrest d hd

/-! ## Texts without the end of a word -/

/-- No word ends in a text when it is read from one state on, and the reader is then in another. -/
def Passes (family : Family) (q : Quoting) (text : List Char) (q' : Quoting) : Prop :=
  ∀ rest, cutWords family q (text ++ rest) = (cutWords family q' rest).modifyHead (text ++ ·)

namespace Passes

variable {a b : List Char} {q' q'' : Quoting}

theorem nil (family : Family) (q : Quoting) : Passes family q [] q := by
  intro rest
  rw [List.nil_append]
  cases cutWords family q rest <;> rfl

theorem append (ha : Passes family q a q') (hb : Passes family q' b q'') : Passes family q (a ++ b) q'' := by
  intro rest
  rw [List.append_assoc, ha, hb, List.modifyHead_modifyHead]
  simp only [Function.comp_def, List.append_assoc]

theorem singleton {c : Char} (h : ¬ (q = outside ∧ family.endsWord c = true)) :
    Passes family q [c] (q.after family c) :=
  fun rest => cutWords_cons h rest

/-- Texts one after another, each from a state back to it. -/
theorem flatMap {α : Type} {f : α → List Char} {xs : List α} (h : ∀ x ∈ xs, Passes family q (f x) q) :
    Passes family q (xs.flatMap f) q :=
  Text.flatMap_of_append (P := fun a => Passes family q a q) (nil family q) (fun ha hb => ha.append hb) h

/-- Characters that change nothing where the reader is. -/
theorem plain (h : ∀ c ∈ a, q.after family c = q ∧ ¬ (q = outside ∧ family.endsWord c = true)) :
    Passes family q a q := by
  rw [← List.flatMap_singleton' a]
  refine flatMap fun c hc => ?_
  have hpasses : Passes family q [c] (q.after family c) := singleton (h c hc).2
  rwa [(h c hc).1] at hpasses

/-- A text between double quotes is read from outside them to outside them. -/
theorem quotes (h : Passes family inside a inside) : Passes family outside ('\x22' :: (a ++ ['\x22'])) outside := by
  have hopen : Passes family outside ['\x22'] inside := by
    have hends : ¬ (outside = outside ∧ family.endsWord '\x22' = true) := by cases family <;> decide
    have hafter : outside.after family '\x22' = inside := by cases family <;> decide
    exact hafter ▸ singleton hends
  have hclose : Passes family inside ['\x22'] outside := by
    have hafter : inside.after family '\x22' = outside := by cases family <;> decide
    exact hafter ▸ singleton fun hends => absurd hends.1 (by decide)
  exact hopen.append (h.append hclose)

end Passes

/-! ## Lines -/

/-- A text is one word that leaves all double quotes closed. -/
structure IsClosedWord (family : Family) (text : String) : Prop where
  ne_nil : text.toList ≠ []
  passes : Passes family outside text.toList outside
  no_comment : family = .unix → text.toList.head? ≠ some '#'

/-- Words with a blank before each but the first. -/
theorem cutWords_line {first : List Char} {rest : List (List Char)} (hfirst : Passes family outside first outside)
    (hrest : ∀ word ∈ rest, Passes family outside word outside) :
    cutWords family outside (first ++ rest.flatMap (' ' :: ·)) = first :: rest := by
  induction rest generalizing first with
  | nil => rw [List.flatMap_nil, hfirst]; simp [cutWords]
  | cons word rest ih =>
    rw [List.flatMap_cons, List.cons_append, hfirst, cutWords_of_endsWord (endsWord_space family),
      ih (hrest word List.mem_cons_self) fun other hother => hrest other (List.mem_cons_of_mem _ hother)]
    simp

/-- Closed words are the words of their line. -/
theorem words_line {line first : String} {rest : List String}
    (hline : line.toList = first.toList ++ rest.flatMap fun word => ' ' :: word.toList)
    (h : ∀ word ∈ first :: rest, IsClosedWord family word) : words family line = first :: rest := by
  have hcut : cutWords family outside line.toList = (first :: rest).map String.toList := by
    have hrest : ∀ word ∈ rest.map String.toList, Passes family outside word outside := by
      intro word hword
      obtain ⟨text, htext, rfl⟩ := List.mem_map.1 hword
      exact (h text (List.mem_cons_of_mem _ htext)).passes
    rw [hline, List.map_cons, ← cutWords_line (h first List.mem_cons_self).passes hrest, List.flatMap_map]
  have hfilter : ((first :: rest).map String.toList).filter (· ≠ []) = (first :: rest).map String.toList := by
    rw [List.filter_eq_self]
    intro word hword
    obtain ⟨text, htext, rfl⟩ := List.mem_map.1 hword
    simpa using (h text htext).ne_nil
  have hback : ((first :: rest).map String.toList).map String.ofList = first :: rest := by simp
  unfold words
  rw [hcut, hfilter]
  cases family with
  | unix =>
    have hall : ∀ word ∈ (first :: rest).map String.toList, decide (word.head? ≠ some '#') = true := by
      intro word hword
      obtain ⟨text, htext, rfl⟩ := List.mem_map.1 hword
      simpa using (h text htext).no_comment rfl
    simp only [List.takeWhile_eq_self_iff.2 hall, hback]
  | windows => exact hback

example : words .unix "f \x22a b\x22 c\\ d #e" = ["f", "\x22a b\x22", "c\\ d"] := by decide

end Scriptwright
