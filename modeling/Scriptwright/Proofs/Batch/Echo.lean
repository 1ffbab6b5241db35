/-
How a batch file reads a line that appends a text to a file: doubled percent
signs first, then one `echo` up to the first operator outside double quotes,
then the redirection (`readEcho?`). The carets of the escaped text are taken
off outside double quotes only, so the text read is the one that was escaped
exactly when its double quotes come in pairs with no operator between the two
of a pair (`echoed?_escape`).
-/
import Scriptwright.Proofs.Batch.Reading
import Scriptwright.Proofs.Statement.LineFeeds

namespace Scriptwright.Batch

open Statement

/-! ## Percent signs -/

/-- A text with each doubled percent sign taken as one, from left to right. -/
def undouble : List Char → List Char
  | [] => []
  | '%' :: '%' :: cs => '%' :: undouble cs
  | c :: cs => c :: undouble cs

theorem undouble_cons {c : Char} (h : c ≠ '%') (cs : List Char) : undouble (c :: cs) = c :: undouble cs := by
  rw [undouble]
  exact fun _ hc _ => h hc

theorem takesPercent_undouble : TakesPercent undouble where
  pair cs := by rw [undouble]
  plain c cs h := undouble_cons h cs

/-- Pairs of percent signs do not run across another character. -/
theorem undouble_append_cons (a : List Char) {c : Char} (h : c ≠ '%') (b : List Char) :
    undouble (a ++ c :: b) = undouble a ++ c :: undouble b := by
  fun_induction undouble a with
  | case1 => rw [List.nil_append, undouble_cons h]; rfl
  | case2 a ih => rw [List.cons_append, List.cons_append, undouble, ih]; rfl
  | case3 d a hpair ih =>
    rw [List.cons_append, undouble, ih]
    · rfl
    · rintro cs rfl hcs
      cases a with
      | nil => exact h (List.cons.inj hcs).1
      | cons e a => exact hpair a rfl (by rw [(List.cons.inj hcs).1])

theorem length_undouble_le (cs : List Char) : (undouble cs).length ≤ cs.length := by
  fun_induction undouble cs with
  | case1 => exact Nat.le_refl _
  | case2 cs ih => simp only [List.length_cons]; omega
  | case3 c cs _ ih => simp only [List.length_cons]; omega

theorem mem_of_mem_undouble {c : Char} {cs : List Char} (h : c ∈ undouble cs) : c ∈ cs := by
  fun_induction undouble cs with
  | case1 => exact h
  | case2 cs ih =>
    rcases List.mem_cons.1 h with rfl | h
    · exact List.mem_cons_self
    · exact List.mem_cons_of_mem _ (List.mem_cons_of_mem _ (ih h))
  | case3 d cs _ ih =>
    rcases List.mem_cons.1 h with rfl | h
    · exact List.mem_cons_self
    · exact List.mem_cons_of_mem _ (ih h)

/-- What is read is the text itself unless a percent sign is doubled in it. -/
theorem undouble_eq_self_iff {cs : List Char} : undouble cs = cs ↔ ¬ "%%".toList <:+: cs := by
  fun_induction undouble cs with
  | case1 => simp
  | case2 cs ih =>
    have hinfix : "%%".toList <:+: '%' :: '%' :: cs := (List.prefix_append "%%".toList cs).isInfix
    have hlength := length_undouble_le cs
    refine iff_of_false (fun he => ?_) (not_not_intro hinfix)
    have := congrArg List.length he
    simp only [List.length_cons] at this
    omega
  | case3 c cs hpair ih =>
    have hprefix : ¬ "%%".toList <+: c :: cs := by
      rintro ⟨rest, he⟩
      exact hpair rest (List.cons.inj he).1.symm (List.cons.inj he).2.symm
    rw [List.infix_cons_iff, not_or, ← ih, List.cons_inj_right]
    exact (and_iff_right hprefix).symm

/-! ## What is printed -/

/-- Whether double quotes are open behind a character, if they are or are not before it. -/
def turn (quoted : Bool) (c : Char) : Bool :=
  if c = '\x22' then !quoted else quoted

/-- The text that is printed up to the first operator, from inside double quotes or from outside them, and what
follows it. Outside, a caret stands for the character after it. -/
def printed : Bool → List Char → List Char × List Char
  | _, [] => ([], [])
  | false, '^' :: c :: cs =>
    let (text, rest) := printed false cs
    (c :: text, rest)
  | quoted, c :: cs =>
    if !quoted && isOperator c then ([], c :: cs)
    else
      let (text, rest) := printed (turn quoted c) cs
      (c :: text, rest)

/-- Whether double quotes come in pairs with no operator between the two of a pair, from inside a pair or from
outside. -/
def quotesMatch : Bool → List Char → Bool
  | quoted, [] => !quoted
  | quoted, c :: cs => !(quoted && isOperator c) && quotesMatch (turn quoted c) cs

theorem turn_of_isOperator (quoted : Bool) {c : Char} (h : isOperator c = true) : turn quoted c = quoted := by
  refine if_neg ?_
  rintro rfl
  revert h
  decide

theorem printed_caret (c : Char) (cs : List Char) :
    printed false ('^' :: c :: cs) = (c :: (printed false cs).1, (printed false cs).2) := by
  rw [printed]

theorem printed_cons {quoted : Bool} {c : Char} (h : quoted = true ∨ isOperator c = false) (cs : List Char) :
    printed quoted (c :: cs) = (c :: (printed (turn quoted c) cs).1, (printed (turn quoted c) cs).2) := by
  have hgoes : (!quoted && isOperator c) = false := by
    rcases h with rfl | h
    · rfl
    · rw [h, Bool.and_false]
  rw [printed, if_neg (by simp [hgoes])]
  rintro _ _ rfl rfl _
  revert hgoes
  decide

theorem printed_operator {c : Char} (h : isOperator c = true) (hcaret : c ≠ '^') (cs : List Char) :
    printed false (c :: cs) = ([], c :: cs) := by
  rw [printed, if_pos (by simp [h])]
  exact fun _ _ _ hc _ => hcaret hc

/-- An escaped character is printed as it was, but with its caret inside double quotes. -/
theorem printed_escapeChar (quoted : Bool) (c : Char) (cs : List Char) :
    printed quoted (escapeChar c ++ cs)
      = ((if quoted && isOperator c then ['^', c] else [c]) ++ (printed (turn quoted c) cs).1,
          (printed (turn quoted c) cs).2) := by
  cases hoperator : isOperator c with
  | false =>
    rw [escapeChar, if_neg (by simp [hoperator]), List.singleton_append, printed_cons (.inr hoperator)]
    simp
  | true =>
    rw [escapeChar, if_pos hoperator, List.cons_append, List.singleton_append]
    cases quoted with
    | false =>
      rw [printed_caret, turn_of_isOperator false hoperator]
      rfl
    | true =>
      rw [printed_cons (.inl rfl), turn_of_isOperator true rfl, printed_cons (.inl rfl)]
      rfl

/-- An escaped text is printed as it was, and what follows it is read outside double quotes. -/
theorem printed_of_quotesMatch {quoted : Bool} {cs : List Char} (h : quotesMatch quoted cs = true)
    (rest : List Char) : printed quoted (cs.flatMap escapeChar ++ rest)
      = (cs ++ (printed false rest).1, (printed false rest).2) := by
  induction cs generalizing quoted with
  | nil =>
    obtain rfl : quoted = false := by simpa [quotesMatch] using h
    rfl
  | cons c cs ih =>
    rw [quotesMatch, Bool.and_eq_true, Bool.not_eq_true'] at h
    rw [List.flatMap_cons, List.append_assoc, printed_escapeChar, ih h.2, if_neg (by simp [h.1])]
    rfl

/-- What is printed of an escaped text is no shorter than the text, and longer, by a caret or by what follows, where
an operator stands inside double quotes or these are left open. -/
theorem length_le_printed (quoted : Bool) (cs : List Char) (d : Char) (rest : List Char) :
    cs.length ≤ (printed quoted (cs.flatMap escapeChar ++ d :: rest)).1.length ∧
      (quotesMatch quoted cs = false →
        cs.length < (printed quoted (cs.flatMap escapeChar ++ d :: rest)).1.length) := by
  induction cs generalizing quoted with
  | nil =>
    refine ⟨Nat.zero_le _, fun hopen => ?_⟩
    obtain rfl : quoted = true := by simpa [quotesMatch] using hopen
    rw [List.flatMap_nil, List.nil_append, printed_cons (.inl rfl)]
    simp
  | cons c cs ih =>
    obtain ⟨hle, hlt⟩ := ih (turn quoted c)
    rw [List.flatMap_cons, List.append_assoc, printed_escapeChar, List.length_append, List.length_cons, quotesMatch]
    cases quoted && isOperator c with
    | true =>
      simp only [if_true, List.length_cons, List.length_nil]
      exact ⟨by omega, fun _ => by omega⟩
    | false =>
      simp only [Bool.false_eq_true, if_false, List.length_cons, List.length_nil, Bool.not_false, Bool.true_and]
      exact ⟨by omega, fun hopen => by have := hlt hopen; omega⟩

/-! ## Reading a line -/

/-- The file that the rest of a line is a redirection to: one at whose end it is written, its path in double
quotes, and nothing after it. -/
def appended? (cs : List Char) : Option String :=
  match (afterWord? ">>" cs).bind quoted? with
  | some (target, []) => some target
  | _ => none

/-- What an `echo` prints, and the file that this goes to. -/
def echoed? (closing : String) (cs : List Char) : Option (String × String) :=
  (afterWord? closing (printed false cs).2).bind fun rest =>
    (appended? rest).map fun target => (String.ofList (printed false cs).1, target)

/-- The text that a line writes at the end of a file, and that file. The `echo` is bare or stands in a parenthesis of
its own; of a bare one a digit at the end would be the number of a stream. -/
def readEcho? (line : String) : Option (String × String) :=
  if Text.hasBreak line then none
  else match afterWord? "(echo(" (undouble line.toList) with
    | some rest => echoed? ")" rest
    | none =>
      ((afterWord? "echo(" (undouble line.toList)).bind (echoed? "")).filter fun found => !endsInDigit found.1

/-- A redirection to the end of a file. -/
def redirection (path : String) : List Char :=
  ['>', '>'] ++ '\x22' :: (path.toList ++ ['\x22'])

/-- What stands behind the word `echo` and its parenthesis once the percent signs are read. -/
def behindEcho (closing text path : String) : List Char :=
  (escape text).toList ++ (closing.toList ++ redirection path)

theorem appended?_redirection {path : String} (h : '\x22' ∉ path.toList) :
    appended? (redirection path) = some path := by
  have hword : afterWord? ">>" (['>', '>'] ++ '\x22' :: (path.toList ++ ['\x22']))
      = some ('\x22' :: (path.toList ++ ['\x22'])) := afterWord?_append (by decide) _
  have hquoted : quoted? ('\x22' :: (path.toList ++ '\x22' :: [])) = some (path, []) := quoted?_append h []
  rw [appended?, redirection, hword, Option.bind_some, hquoted]

/-- What is read of an escaped text is the text, if its double quotes let it be. -/
theorem echoed?_escape {closing : String} (hc : closing = ")" ∨ closing = "") (text : String) {path : String}
    (hp : '\x22' ∉ path.toList) (target : String) :
    echoed? closing (behindEcho closing text path) = some (text, target) ↔
      quotesMatch false text.toList = true ∧ target = path := by
  obtain ⟨c, rest, hrest, hoperator, hcaret⟩ : ∃ c rest,
      closing.toList ++ redirection path = c :: rest ∧ isOperator c = true ∧ c ≠ '^' := by
    rcases hc with rfl | rfl
    · exact ⟨')', redirection path, rfl, by decide, by decide⟩
    · exact ⟨'>', '>' :: '\x22' :: (path.toList ++ ['\x22']), rfl, by decide, by decide⟩
  have hclosing : afterWord? closing (c :: rest) = some (redirection path) := by
    rw [← hrest]
    exact afterWord?_append (by rcases hc with rfl | rfl <;> decide) _
  rw [behindEcho, escape, Text.toList_flatMap, hrest]
  have hread : quotesMatch false text.toList = true →
      echoed? closing (text.toList.flatMap escapeChar ++ c :: rest) = some (text, path) := by
    intro hmatch
    have hprinted : printed false (text.toList.flatMap escapeChar ++ c :: rest) = (text.toList, c :: rest) := by
      rw [printed_of_quotesMatch hmatch, printed_operator hoperator hcaret, List.append_nil]
    rw [echoed?, hprinted, hclosing, Option.bind_some, appended?_redirection hp, Option.map_some,
      String.ofList_toList]
  constructor
  · intro h
    have hmatch : quotesMatch false text.toList = true := by
      rw [echoed?, Option.bind_eq_some_iff] at h
      obtain ⟨_, -, h⟩ := h
      obtain ⟨_, -, h⟩ := Option.map_eq_some_iff.1 h
      -- all that is printed is as long as the text, so nothing was added to it
      have hprinted : (printed false (text.toList.flatMap escapeChar ++ c :: rest)).1.length = text.toList.length := by
        simpa using congrArg (fun t : String => t.toList.length) (Prod.mk.inj h).1
      rw [← Bool.not_eq_false]
      intro hopen
      have := (length_le_printed false text.toList c rest).2 hopen
      omega
    rw [hread hmatch] at h
    exact ⟨hmatch, (Prod.mk.inj (Option.some.inj h)).2.symm⟩
  · rintro ⟨hmatch, rfl⟩
    exact hread hmatch

/-- A character is the last of what it is escaped as, so an escaped text ends as the text does. -/
theorem getLast?_flatMap {f : Char → List Char} (hf : ∀ c, (f c).getLast? = some c) (cs : List Char) :
    (cs.flatMap f).getLast? = cs.getLast? := by
  rcases List.eq_nil_or_concat cs with rfl | ⟨cs, c, rfl⟩
  · rfl
  · rw [List.concat_eq_append, List.flatMap_append, List.flatMap_singleton, List.getLast?_append, hf,
      List.getLast?_concat]
    rfl

theorem endsInDigit_escapeEcho (text : String) : endsInDigit (escapeEcho text) = endsInDigit text := by
  have hoperator : ∀ c, (escapeChar c).getLast? = some c := by
    intro c
    unfold escapeChar
    split <;> rfl
  have hpercent : ∀ c, (percentChar c).getLast? = some c := by
    intro c
    unfold percentChar
    split
    · next hc => rw [hc]; rfl
    · rfl
  rw [endsInDigit, endsInDigit, escapeEcho, escapePercent, escape, Text.toList_flatMap, Text.toList_flatMap,
    getLast?_flatMap hpercent, getLast?_flatMap hoperator]

theorem hasBreak_escapeEcho {text : String} (h : Text.hasBreak text = false) :
    Text.hasBreak (escapeEcho text) = false := by
  rw [Text.hasBreak_eq_false_iff] at h ⊢
  exact ⟨foreign_not_mem_escapeEcho (by decide) h.1, foreign_not_mem_escapeEcho (by decide) h.2⟩

theorem hasBreak_echoLine {text path : String} (h : Text.hasBreak text = false) :
    Text.hasBreak (echoLine ("\x22" ++ path ++ "\x22") (escapeEcho text)).text = Text.hasBreak path := by
  have hquote : Text.hasBreak "\x22" = false := by decide
  have hbare : Text.hasBreak "echo(" = false ∧ Text.hasBreak ">>" = false := by decide
  have hgroup : Text.hasBreak "(echo(" = false ∧ Text.hasBreak ")>>" = false := by decide
  unfold echoLine
  split
  · simp [Line.text, Text.hasBreak_append, hasBreak_escapeEcho h, hquote, hgroup]
  · simp [Line.text, Text.hasBreak_append, hasBreak_escapeEcho h, hquote, hbare]

/-- The file that a path in double quotes names. -/
def named (path : String) : String :=
  String.ofList (undouble path.toList)

/-- The percent signs of a line are read behind the word at its start. -/
theorem undouble_line {start closing : String} (hstart : '%' ∉ start.toList) (hclosing : '%' ∉ closing.toList)
    (text path : String) :
    undouble (start ++ escapeEcho text ++ (closing ++ ">>") ++ ("\x22" ++ path ++ "\x22")).toList
      = start.toList ++ behindEcho closing text (named path) := by
  have hshape : (start ++ escapeEcho text ++ (closing ++ ">>") ++ ("\x22" ++ path ++ "\x22")).toList
      = start.toList ++ ((escapeEcho text).toList ++ (closing.toList ++ redirection path)) := by
    simp [redirection]
  have hend : undouble (path.toList ++ ['\x22']) = undouble path.toList ++ ['\x22'] :=
    undouble_append_cons path.toList (by decide) []
  rw [hshape, takesPercent_undouble.append hstart, escapeEcho, takesPercent_undouble.escapePercent,
    takesPercent_undouble.append hclosing, redirection, takesPercent_undouble.append (by decide),
    undouble_cons (by decide), hend, behindEcho, redirection, named, String.toList_ofList]

/-- The line for a text is read as that text and its file if the line is one, and the double quotes of the text let
it be. -/
theorem readEcho?_echoLine {text path : String} (ht : Text.hasBreak text = false) (hp : '\x22' ∉ path.toList)
    (target : String) :
    readEcho? (echoLine ("\x22" ++ path ++ "\x22") (escapeEcho text)).text = some (text, target) ↔
      quotesMatch false text.toList = true ∧ Text.hasBreak path = false ∧ target = named path := by
  have hnamed : '\x22' ∉ (named path).toList := by
    rw [named, String.toList_ofList]
    exact fun hm => hp (mem_of_mem_undouble hm)
  rw [readEcho?, hasBreak_echoLine ht]
  cases Text.hasBreak path with
  | true => simp
  | false =>
    rw [if_neg Bool.false_ne_true, echoLine, endsInDigit_escapeEcho]
    simp only [true_and]
    cases hdigit : endsInDigit text with
    | true =>
      have hline : undouble (Line.code ("(echo(" ++ escapeEcho text ++ ")>>" ++ ("\x22" ++ path ++ "\x22"))).text.toList
          = "(echo(".toList ++ behindEcho ")" text (named path) := by
        have hclosing : ")>>" = ")" ++ ">>" := by decide
        rw [Line.text, hclosing, undouble_line (by decide) (by decide)]
      have hword : afterWord? "(echo(" ("(echo(".toList ++ behindEcho ")" text (named path))
          = some (behindEcho ")" text (named path)) := afterWord?_append (by decide) _
      rw [if_pos rfl, hline, hword]
      exact echoed?_escape (.inl rfl) text hnamed target
    | false =>
      have hline : undouble (Line.code ("echo(" ++ escapeEcho text ++ ">>" ++ ("\x22" ++ path ++ "\x22"))).text.toList
          = "echo(".toList ++ behindEcho "" text (named path) := by
        have hclosing : ">>" = "" ++ ">>" := by decide
        rw [Line.text, hclosing, undouble_line (by decide) (by decide)]
      have hgroup : afterWord? "(echo(" ("echo(".toList ++ behindEcho "" text (named path)) = none := by
        simp [afterWord?, List.isPrefixOf]
      have hword : afterWord? "echo(" ("echo(".toList ++ behindEcho "" text (named path))
          = some (behindEcho "" text (named path)) := afterWord?_append (by decide) _
      rw [if_neg Bool.false_ne_true, hline, hgroup]
      simp only [hword, Option.bind_some, Option.filter_eq_some_iff, hdigit, Bool.not_false, and_true]
      exact echoed?_escape (.inr rfl) text hnamed target

/-! ## Appending to a file -/

/-- The lines that write one line of a payload. -/
def echoLines (path line : String) : List Line :=
  (Text.lines (Token.expand .windows (escapeEcho line))).map
    (echoLine ("\x22" ++ Token.expand .windows path ++ "\x22"))

theorem appendFileLines_windows (path : String) (payload : List String) :
    appendFileLines .windows path payload = .ok (payload.flatMap (echoLines path)) := by
  rw [appendFileLines, payloadLines, List.flatMap_map, List.map_flatMap]
  rfl

/-- A line in which no token stands is written by one line. -/
theorem echoLines_of_plain {line : String} (hb : Text.hasBreak line = false)
    (ht : ∀ t, Token.occursIn t line = false) (path : String) :
    echoLines path line = [echoLine ("\x22" ++ Token.expand .windows path ++ "\x22") (escapeEcho line)] := by
  have hplain : ∀ t, Token.occursIn t (escapeEcho line) = false := fun t => by rw [Token.occursIn_escapeEcho, ht]
  obtain ⟨hn, hr⟩ := Text.hasBreak_eq_false_iff.1 (hasBreak_escapeEcho hb)
  rw [echoLines, Token.expand_of_occursIn_eq_false hplain, Text.lines_of_not_mem hn hr, List.map_singleton]

/-- Each line of a payload without a line break or a token is written by one line of a batch file. What that line
appends to the file of the path is the payload line if and only if its double quotes come in pairs, with no operator
between the two of a pair, and the path names no line feed. The file is that of the path, percent signs read. -/
theorem appends_payload_iff {path : String} {payload : List String} {s : Statement}
    (hs : makeAppendFile path payload = .ok s) :
    s.lines .windows = .ok (payload.flatMap (echoLines path)) ∧
      (∀ line ∈ payload, Text.hasBreak line = false → (∀ t, Token.occursIn t line = false) →
        ∃ l, echoLines path line = [l] ∧ ∀ target,
          readEcho? l.text = some (line, target) ↔
            quotesMatch false line.toList = true ∧ Token.occursIn .lineFeed path = false ∧
              target = named (Token.expand .windows path)) ∧
      (named (Token.expand .windows path) = Token.expand .windows path ↔
        ¬ "%%".toList <:+: (Token.expand .windows path).toList) := by
  obtain ⟨rfl, -, hunsafe, -⟩ := makeAppendFile_eq_ok_iff.1 hs
  obtain ⟨hquote, hbreaks⟩ := isQuoteUnsafe_eq_false_iff.1 hunsafe
  have hpath : '\x22' ∉ (Token.expand .windows path).toList :=
    Token.not_mem_expand (fun t => by cases t <;> decide) hquote
  refine ⟨appendFileLines_windows path payload, fun line _ hb ht => ?_, ?_⟩
  · refine ⟨_, echoLines_of_plain hb ht path, fun target => ?_⟩
    rw [readEcho?_echoLine hb hpath, Token.hasBreak_expand .windows (Text.hasBreak_eq_false_iff.2 hbreaks)]
  · rw [← undouble_eq_self_iff, named, ← String.toList_inj, String.toList_ofList]

/-- Operators and a percent sign beside a pair of double quotes, and a digit at the end. -/
theorem appends_payload_of_signs :
    ∃ l, echoLines "out.txt" "\x22a\x22 > 50% & 2" = [l] ∧
      readEcho? l.text = some ("\x22a\x22 > 50% & 2", "out.txt") := by
  have hs : makeAppendFile "out.txt" ["\x22a\x22 > 50% & 2"] = .ok (.appendFile "out.txt" ["\x22a\x22 > 50% & 2"]) := by
    decide
  have htokens : ∀ t, Token.occursIn t "\x22a\x22 > 50% & 2" = false := by
    intro t
    cases t <;> decide
  obtain ⟨-, hread, -⟩ := appends_payload_iff hs
  obtain ⟨l, hl, hiff⟩ := hread _ List.mem_cons_self (by decide) htokens
  exact ⟨l, hl, (hiff "out.txt").2 ⟨by decide, by decide, by decide⟩⟩

/-- An operator between two double quotes passes the constructor, and the caret that it gets is written into the
file. -/
theorem caret_printed_inside_quotes :
    let s := Statement.appendFile "out.txt" ["\x22a>b\x22"]
    makeAppendFile "out.txt" ["\x22a>b\x22"] = .ok s ∧
      s.lines .windows = .ok [.code "echo(\x22a^>b\x22>>\x22out.txt\x22"] ∧
      readEcho? "echo(\x22a^>b\x22>>\x22out.txt\x22" = some ("\x22a^>b\x22", "out.txt") := by
  refine ⟨by decide, by decide, by decide⟩

end Scriptwright.Batch
