/-
How a batch file reads a text that was escaped and then had its tokens replaced,
as the value of a `set` line or what an `echo` prints. Percent signs are read
first, in pairs from left to right (`readPercent`): a percent sign of the text
is doubled and makes a pair of its own, so none is left over to join the
reference that a token is written as. Carets come next, and take the character
behind them literally (`takeCarets`): each stands before an operator of the
text, never before a token. So every character and every token of the text is
read as what it means, and nothing else is (`escapeEcho_read`).
-/
import Scriptwright.Proofs.Text.Characters
import Scriptwright.Proofs.Token.Meaning

namespace Scriptwright.Batch

open Token

/-! ## Percent signs -/

/-- What the start of a line is read as, and how many characters that takes besides the first one. The name of a
variable goes up to the next percent sign. -/
def firstPercent : Char → List Char → Meaning × Nat
  | '%', '%' :: _ => (.literal '%', 1)
  | '%', '*' :: _ => (.arguments, 1)
  | '%', c :: cs =>
    if c.isDigit then (.argument c, 1)
    else if cs.contains '%' then
      let name := c :: cs.takeWhile (· != '%')
      (.reference (String.ofList name), name.length + 1)
    else (.live '%', 0)
  | '%', [] => (.live '%', 0)
  | c, _ => (.literal c, 0)

/-- What a line is read as once its percent signs are. -/
def readPercent (cs : List Char) : List Meaning :=
  Meaning.read firstPercent cs

theorem firstPercent_plain {c : Char} (h : c ≠ '%') (cs : List Char) : firstPercent c cs = (.literal c, 0) := by
  unfold firstPercent
  split <;> first | rfl | contradiction

theorem readPercent_plain {a : List Char} (h : '%' ∉ a) (rest : List Char) :
    readPercent (a ++ rest) = a.map .literal ++ readPercent rest :=
  Meaning.read_literals (fun _ hc cs => firstPercent_plain (fun he => h (he ▸ hc)) cs) rest

/-- A doubled percent sign is read as one. -/
theorem readPercent_flatMap_percentChar (cs rest : List Char) :
    readPercent (cs.flatMap percentChar ++ rest) = cs.map .literal ++ readPercent rest := by
  induction cs with
  | nil => rfl
  | cons c cs ih =>
    rw [List.flatMap_cons, List.append_assoc, percentChar]
    split
    · next hc =>
      rw [hc, List.cons_append, List.singleton_append, readPercent, Meaning.read_cons]
      exact congrArg (Meaning.literal '%' :: ·) ih
    · next hc =>
      rw [readPercent_plain (by simpa using Ne.symm hc), ih]
      rfl

theorem readPercent_reference {name : String} (h : isIdentifier name = true) (rest : List Char) :
    readPercent ((Family.windows.variableRef name).toList ++ rest) = .reference name :: readPercent rest := by
  obtain ⟨c, cs, hcs⟩ := List.exists_cons_of_ne_nil (Text.identifier_ne_nil h)
  have hstart := Text.identifier_start h hcs
  have hsign : c ≠ '%' ∧ c ≠ '*' := by
    constructor <;> rintro rfl <;> revert hstart <;> decide
  have hdigit := Text.identifier_start_not_digit h hcs
  have hpercent : ∀ d ∈ cs, (d != '%') = true := by
    intro d hd
    rw [bne_iff_ne]
    rintro rfl
    exact absurd (Text.isWordChar_of_mem_identifier h (hcs ▸ List.mem_cons_of_mem _ hd)) (by decide)
  have htext : (Family.windows.variableRef name).toList ++ rest = '%' :: (c :: (cs ++ '%' :: rest)) := by
    simp [Family.variableRef, hcs]
  have htake : (cs ++ '%' :: rest).takeWhile (· != '%') = cs := by
    rw [List.takeWhile_append_of_pos hpercent]
    simp
  have hfirst : firstPercent '%' (c :: (cs ++ '%' :: rest)) = (.reference name, (c :: cs).length + 1) := by
    rw [firstPercent, if_neg (by simp [hdigit]), if_pos (by simp), htake, ← hcs]
    · exact congrArg (fun name => (Meaning.reference name, _)) String.ofList_toList
    · exact hsign.1
    · exact hsign.2
  have hdrop : (c :: (cs ++ '%' :: rest)).drop ((c :: cs).length + 1) = rest := by simp
  rw [htext, readPercent, Meaning.read_cons, hfirst, hdrop]
  rfl

/-! ## Carets -/

/-- Whether a character that no caret takes is acted on. -/
def isSign (c : Char) : Bool :=
  "&|<>()^".toList.contains c

/-- What is read once carets have taken the characters behind them literally. -/
def takeCarets : List Meaning → List Meaning
  | [] => []
  | .literal '^' :: .literal c :: ms => .literal c :: takeCarets ms
  | .literal c :: ms => (if isSign c then .live c else .literal c) :: takeCarets ms
  | m :: ms => m :: takeCarets ms

theorem isOperator_eq_isSign (c : Char) : isOperator c = isSign c := by
  rw [Bool.eq_iff_iff]
  simp [isOperator, isSign]
  grind

/-- Whether what is read so far is still a sign to act on. -/
def acts : Meaning → Bool
  | .literal c => isSign c
  | _ => false

theorem takeCarets_cons {m : Meaning} (h : acts m = false) (ms : List Meaning) :
    takeCarets (m :: ms) = m :: takeCarets ms := by
  cases m with
  | literal c =>
    have hsign : isSign c = false := h
    have hcaret : c ≠ '^' := by
      rintro rfl
      cases hsign
    rw [takeCarets, if_neg (by simp [hsign])]
    exact fun _ _ _ hc => hcaret hc
  | reference name => rfl
  | arguments => rfl
  | argument digit => rfl
  | live c => rfl

/-- What holds no sign is left as it is. -/
theorem takeCarets_append {a : List Meaning} (h : ∀ m ∈ a, acts m = false) (ms : List Meaning) :
    takeCarets (a ++ ms) = a ++ takeCarets ms := by
  induction a with
  | nil => rfl
  | cons m a ih =>
    rw [List.cons_append, takeCarets_cons (h m List.mem_cons_self), ih fun n hn => h n (List.mem_cons_of_mem _ hn)]
    rfl

/-- An escaped character is taken literally. -/
theorem takeCarets_escapeChar (c : Char) (ms : List Meaning) :
    takeCarets ((escapeChar c).map .literal ++ ms) = .literal c :: takeCarets ms := by
  rw [escapeChar, isOperator_eq_isSign]
  split
  · rfl
  · next hsign => exact takeCarets_cons (m := .literal c) (by simpa [acts] using hsign) ms

/-! ## Pieces -/

/-- What a line is read as: percent signs first, then carets. -/
def readLine (cs : List Char) : List Meaning :=
  takeCarets (readPercent cs)

/-- A token that is no part of a reference is read as what it means, percent signs taken. -/
theorem readPercent_token {t : Token} (hleft : t ≠ .variableLeft) (hright : t ≠ .variableRight) (rest : List Char) :
    readPercent ((t.text .windows).toList ++ rest) = t.meaning .windows ++ readPercent rest := by
  rw [Token.meaning]
  cases hvariable : t.refersTo? .windows with
  | some name =>
    rw [text_of_refersTo? hvariable, readPercent_reference (isIdentifier_of_refersTo? hvariable)]
    rfl
  | none =>
    by_cases harguments : t = .arguments
    · rw [harguments]
      rfl
    · have hplain : '%' ∉ (t.text .windows).toList := by
        revert hvariable hleft hright harguments
        cases t <;> decide
      rw [if_neg harguments, readPercent_plain hplain]

/-- No token has a sign in its text. -/
theorem acts_of_mem_meaning (t : Token) : ∀ m ∈ t.meaning .windows, acts m = false := by
  cases t <;> decide

/-- Each piece is read on its own, whatever stands behind it. -/
theorem readLine_write {p : Piece} (hleft : p ≠ .token .variableLeft) (hright : p ≠ .token .variableRight)
    (rest : List Char) :
    readLine (p.write .windows (fun c => (escapeChar c).flatMap percentChar) ++ rest)
      = p.meaning .windows ++ readLine rest := by
  cases p with
  | plain c => rw [readLine, Piece.write, readPercent_flatMap_percentChar, takeCarets_escapeChar]; rfl
  | token t =>
    rw [readLine, Piece.write, readPercent_token (fun he => hleft (he ▸ rfl)) (fun he => hright (he ▸ rfl)),
      takeCarets_append (acts_of_mem_meaning t)]
    rfl

theorem readLine_flatMap_write {ps : List Piece} (hleft : .token .variableLeft ∉ ps)
    (hright : .token .variableRight ∉ ps) :
    readLine (ps.flatMap (Piece.write .windows fun c => (escapeChar c).flatMap percentChar))
      = ps.flatMap (Piece.meaning .windows) := by
  induction ps with
  | nil => rfl
  | cons p ps ih =>
    simp only [List.mem_cons, not_or] at hleft hright
    rw [List.flatMap_cons, readLine_write (Ne.symm hleft.1) (Ne.symm hright.1), ih hleft.2 hright.2, List.flatMap_cons]

/-! ## Texts -/

/-- An escaped text is written piece by piece when its tokens are replaced. -/
theorem toList_expand_escapeEcho (text : String) :
    (expand .windows (escapeEcho text)).toList
      = (scan text.toList).flatMap (Piece.write .windows fun c => (escapeChar c).flatMap percentChar) := by
  rw [escapeEcho_eq_flatMap, keepsTokens_escapeEcho.toList_expand]

/-- A text that is escaped and then has its tokens replaced is read, if no token opens or closes a reference in it, as
its characters and what its tokens stand for, in order and nothing else: no numbered argument comes in, and no percent
sign, caret or operator acts. -/
theorem escapeEcho_read {text : String} (hleft : occursIn .variableLeft text = false)
    (hright : occursIn .variableRight text = false) :
    readLine (expand .windows (escapeEcho text)).toList = (scan text.toList).flatMap (Piece.meaning .windows) ∧
      ∀ m ∈ readLine (expand .windows (escapeEcho text)).toList,
        (∃ c, m = .literal c) ∨ (∃ name, m = .reference name) ∨ m = .arguments := by
  simp only [occursIn, List.contains_eq_mem, decide_eq_false_iff_not] at hleft hright
  have hread : readLine (expand .windows (escapeEcho text)).toList
      = (scan text.toList).flatMap (Piece.meaning .windows) := by
    rw [toList_expand_escapeEcho, readLine_flatMap_write hleft hright]
  refine ⟨hread, fun m hm => ?_⟩
  rw [hread] at hm
  obtain ⟨p, -, hm⟩ := List.mem_flatMap.1 hm
  exact p.mem_meaning hm

/-- Percent signs on both sides of tokens, a caret right before one, and operators. -/
theorem escapeEcho_read_of_signs :
    readLine (expand .windows (escapeEcho "5%\x7btmp\x7d%^\x7bargs\x7d&1")).toList
      = [.literal '5', .literal '%', .reference "TEMP", .literal '%', .literal '^', .arguments, .literal '&',
          .literal '1'] := by
  have hread := @escapeEcho_read "5%\x7btmp\x7d%^\x7bargs\x7d&1" (by decide) (by decide)
  rw [hread.1]
  decide

end Scriptwright.Batch
