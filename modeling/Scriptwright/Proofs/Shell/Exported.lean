/-
How a shell reads a value that is exported: the inside of double quotes, where a
backslash, a dollar sign and nothing else start a longer reading
(`readQuoted`). The characters of the value are escaped one by one and read
back one by one; a token is read as what it stands for, but the name of a
variable goes on as long as word characters follow (`readQuoted_reference`). So
the value is read as it was meant exactly when no token that stands for a
variable has a word character behind it (`exported_value_read_iff`).
-/
import Mathlib.Data.List.Chain
import Scriptwright.Proofs.Statement.LineFeeds
import Scriptwright.Proofs.Token.Meaning

namespace Scriptwright.Shell

open Token

/-! ## The inside of double quotes -/

/-- Whether a backslash takes a character literally. -/
def isTakenLiterally (c : Char) : Bool :=
  "\\\x22$\x60".toList.contains c

/-- What the start of a text between double quotes is read as, and how many characters that takes besides the first
one. A name goes on as long as it can. -/
def firstQuoted : Char → List Char → Meaning × Nat
  | '\\', c :: _ => if isTakenLiterally c then (.literal c, 1) else (.literal '\\', 0)
  | '$', '@' :: _ => (.arguments, 1)
  | '$', c :: cs =>
    if c.isAlpha || c == '_' then
      let name := c :: cs.takeWhile Text.isWordChar
      (.reference (String.ofList name), name.length)
    else (.literal '$', 0)
  | c, _ => (.literal c, 0)

/-- What a text between double quotes is read as. -/
def readQuoted (cs : List Char) : List Meaning :=
  Meaning.read firstQuoted cs

theorem firstQuoted_plain {c : Char} (hslash : c ≠ '\\') (hdollar : c ≠ '$') (cs : List Char) :
    firstQuoted c cs = (.literal c, 0) := by
  unfold firstQuoted
  split <;> first | rfl | contradiction

theorem readQuoted_plain {a : List Char} (h : ∀ c ∈ a, c ≠ '\\' ∧ c ≠ '$') (rest : List Char) :
    readQuoted (a ++ rest) = a.map .literal ++ readQuoted rest :=
  Meaning.read_literals (fun c hc cs => firstQuoted_plain (h c hc).1 (h c hc).2 cs) rest

/-- An escaped character is read as the character. -/
theorem readQuoted_escapeChar (c : Char) (rest : List Char) :
    readQuoted (escapeChar c ++ rest) = .literal c :: readQuoted rest := by
  unfold escapeChar
  split
  · next hlive =>
    have htaken : isTakenLiterally c = true := by
      simp only [isLive, Bool.or_eq_true, beq_iff_eq] at hlive
      rcases hlive with ((rfl | rfl) | rfl) | rfl <;> decide
    rw [List.cons_append, List.singleton_append, readQuoted, Meaning.read_cons, firstQuoted, if_pos htaken]
    rfl
  · next hlive =>
    simp only [isLive, Bool.or_eq_true, beq_iff_eq, not_or] at hlive
    exact readQuoted_plain (a := [c]) (by simp [hlive]) rest

/-- A reference runs on into the word characters behind it. -/
theorem readQuoted_reference {name : String} (h : isIdentifier name = true) (rest : List Char) :
    readQuoted ((Family.unix.variableRef name).toList ++ rest)
      = .reference (String.ofList (name.toList ++ rest.takeWhile Text.isWordChar))
        :: readQuoted (rest.dropWhile Text.isWordChar) := by
  obtain ⟨c, cs, hcs⟩ := List.exists_cons_of_ne_nil (Text.identifier_ne_nil h)
  have hstart := Text.identifier_start h hcs
  have hword : ∀ d ∈ cs, Text.isWordChar d = true := fun d hd =>
    Text.isWordChar_of_mem_identifier h (hcs ▸ List.mem_cons_of_mem _ hd)
  have hat : c ≠ '@' := by
    rintro rfl
    revert hstart
    decide
  have htext : (Family.unix.variableRef name).toList ++ rest = '$' :: (c :: (cs ++ rest)) := by
    simp [Family.variableRef, hcs]
  have hfirst : firstQuoted '$' (c :: (cs ++ rest))
      = (.reference (String.ofList (name.toList ++ rest.takeWhile Text.isWordChar)),
          (name.toList ++ rest.takeWhile Text.isWordChar).length) := by
    rw [firstQuoted, if_pos hstart, List.takeWhile_append_of_pos hword, hcs]
    · rfl
    · exact hat
  have hsplit : c :: (cs ++ rest)
      = (name.toList ++ rest.takeWhile Text.isWordChar) ++ rest.dropWhile Text.isWordChar := by
    rw [List.append_assoc, List.takeWhile_append_dropWhile, hcs, List.cons_append]
  have hdrop : (c :: (cs ++ rest)).drop (name.toList ++ rest.takeWhile Text.isWordChar).length
      = rest.dropWhile Text.isWordChar := by rw [hsplit, List.drop_left]
  rw [htext, readQuoted, Meaning.read_cons, hfirst, hdrop]
  rfl

/-- The value of the variable of that name is read if and only if no word character follows. -/
theorem readQuoted_reference_iff {name : String} (h : isIdentifier name = true) (rest : List Char)
    (ms : List Meaning) :
    readQuoted ((Family.unix.variableRef name).toList ++ rest) = .reference name :: ms ↔
      rest.head?.any Text.isWordChar = false ∧ readQuoted rest = ms := by
  rw [readQuoted_reference h, List.cons.injEq, Meaning.reference.injEq]
  cases rest with
  | nil => simp
  | cons c cs =>
    cases hc : Text.isWordChar c with
    | false => simp [hc]
    | true =>
      have hlonger : String.ofList (name.toList ++ (c :: cs).takeWhile Text.isWordChar) ≠ name := by
        intro he
        have hlength := congrArg (fun text : String => text.toList.length) he
        simp [hc] at hlength
      exact iff_of_false (fun hread => hlonger hread.1) (by simp [hc])

/-! ## Tokens -/

/-- Whether a reference that a piece stands for would run on into the piece behind it. -/
def runsOn (p q : Piece) : Bool :=
  match p with
  | .token t => (t.refersTo? .unix).isSome && (q.expand .unix).head?.any Text.isWordChar
  | .plain _ => false

/-- Escaping neither makes nor takes a word character at the start of a piece. -/
theorem head?_write {q : Piece} (h : q ≠ .token .variableRight) (rest : List Char) :
    (q.write .unix escapeChar ++ rest).head?.any Text.isWordChar = (q.expand .unix).head?.any Text.isWordChar := by
  cases q with
  | token t =>
    have hne : (t.text .unix).toList ≠ [] := by
      revert h
      cases t <;> decide
    obtain ⟨c, cs, hcs⟩ := List.exists_cons_of_ne_nil hne
    rw [Piece.write, Piece.expand, hcs]
    rfl
  | plain c =>
    rw [Piece.write, Piece.expand, escapeChar]
    split
    · next hlive =>
      simp only [isLive, Bool.or_eq_true, beq_iff_eq] at hlive
      rcases hlive with ((rfl | rfl) | rfl) | rfl <;> rfl
    · rfl

theorem head?_flatMap_write {ps : List Piece} (h : .token .variableRight ∉ ps) :
    (ps.flatMap (Piece.write .unix escapeChar)).head?.any Text.isWordChar = false ↔
      ∀ q ∈ ps.head?, (q.expand .unix).head?.any Text.isWordChar = false := by
  cases ps with
  | nil => simp
  | cons q ps =>
    have hq : q ≠ .token .variableRight := fun he => h (he ▸ List.mem_cons_self)
    rw [List.flatMap_cons, head?_write hq]
    simp

/-- A token that stands for no variable and is no part of a reference is read as its text is meant. -/
theorem readQuoted_text {t : Token} (hvariable : t.refersTo? .unix = none) (hleft : t ≠ .variableLeft)
    (rest : List Char) : readQuoted ((t.text .unix).toList ++ rest) = t.meaning .unix ++ readQuoted rest := by
  rw [Token.meaning, hvariable]
  by_cases harguments : t = .arguments
  · rw [harguments]
    rfl
  · have hall : ((t.text .unix).toList.all fun c => c != '\\' && c != '$') = true := by
      revert hvariable hleft harguments
      cases t <;> decide
    have hplain : ∀ c ∈ (t.text .unix).toList, c ≠ '\\' ∧ c ≠ '$' := by simpa using hall
    rw [if_neg harguments, readQuoted_plain hplain]

/-- A value is read as it was meant, if no token opens or closes a reference, exactly when no name runs on. -/
theorem readQuoted_iff {ps : List Piece} (hleft : .token .variableLeft ∉ ps) (hright : .token .variableRight ∉ ps) :
    readQuoted (ps.flatMap (Piece.write .unix escapeChar)) = ps.flatMap (Piece.meaning .unix) ↔
      ps.IsChain fun p q => runsOn p q = false := by
  induction ps with
  | nil => simp [readQuoted, Meaning.read, Meaning.readFrom]
  | cons p ps ih =>
    simp only [List.mem_cons, not_or] at hleft hright
    have ih := ih hleft.2 hright.2
    rw [List.flatMap_cons, List.flatMap_cons, List.isChain_cons, ← ih]
    cases p with
    | plain c =>
      rw [Piece.write, readQuoted_escapeChar, Piece.meaning, List.singleton_append, List.cons_inj_right]
      simp [runsOn]
    | token t =>
      have hopens : t ≠ .variableLeft := fun he => hleft.1 (he ▸ rfl)
      rw [Piece.write, Piece.meaning]
      cases hvariable : t.refersTo? .unix with
      | some name =>
        rw [text_of_refersTo? hvariable, Token.meaning, hvariable, List.singleton_append,
          readQuoted_reference_iff (isIdentifier_of_refersTo? hvariable), head?_flatMap_write hright.2]
        simp [runsOn, hvariable]
      | none =>
        rw [readQuoted_text hvariable hopens, List.append_cancel_left_eq]
        simp [runsOn, hvariable]

/-! ## Exports -/

/-- A shell reads an exported value, if no token opens or closes a reference in it, as its characters and what its
tokens stand for, and as nothing else, exactly when no token that stands for a variable has a letter, a digit or an
underscore behind it. -/
theorem exported_value_read_iff {name value : String} {s : Statement} {ls : List Line}
    (hs : Statement.makeExport name value = .ok s) (hleft : occursIn .variableLeft value = false)
    (hright : occursIn .variableRight value = false) (hls : s.lines .unix = .ok ls) :
    ∃ inside, ls = [.code ("export " ++ name ++ "=\x22" ++ inside ++ "\x22")] ∧
      (readQuoted inside.toList = (scan value.toList).flatMap (Piece.meaning .unix) ↔
        (scan value.toList).IsChain fun p q => runsOn p q = false) := by
  obtain ⟨rfl, hname, -⟩ := Statement.makeExport_eq_ok_iff.1 hs
  rw [Statement.lines] at hls
  obtain ⟨-, rfl⟩ := exportLines_eq_ok_iff.1 hls
  have hstart : '\x7b' ∉ ("export " ++ name ++ "=\x22").toList := by
    have hbrace : '\x7b' ∉ name.toList := fun hm => absurd (Text.isWordChar_of_mem_identifier hname hm) (by decide)
    exact not_mem_append (not_mem_append (by decide) hbrace) (by decide)
  have hline : expand .unix (exportTemplate .unix name value)
      = "export " ++ name ++ "=\x22" ++ expand .unix (escape value) ++ "\x22" := by
    have hend : Apart "\x22".toList := apart_cons.2 rfl
    have hquote : expand .unix "\x22" = "\x22" := by decide
    rw [exportTemplate, expand_append_apart .unix _ hend, expand_append .unix hstart, hquote]
  refine ⟨expand .unix (escape value), by rw [hline], ?_⟩
  rw [escape, keepsTokens_shellEscape.toList_expand]
  simp only [occursIn, List.contains_eq_mem, decide_eq_false_iff_not] at hleft hright
  exact readQuoted_iff hleft hright

/-- Backslashes and dollar signs right before tokens, and a digit behind the arguments. -/
theorem exported_value_read_of_signs :
    ∃ inside, (Statement.exportVar "X" "\\\x7buid\x7d.$x\x7bargs\x7d9").lines .unix
        = .ok [.code ("export " ++ "X" ++ "=\x22" ++ inside ++ "\x22")] ∧
      readQuoted inside.toList
        = [.literal '\\', .reference "USER", .literal '.', .literal '$', .literal 'x', .arguments, .literal '9'] := by
  have hs : Statement.makeExport "X" "\\\x7buid\x7d.$x\x7bargs\x7d9"
      = .ok (.exportVar "X" "\\\x7buid\x7d.$x\x7bargs\x7d9") := by decide
  have hls : (Statement.exportVar "X" "\\\x7buid\x7d.$x\x7bargs\x7d9").lines .unix
      = .ok [.code "export X=\x22\\\\$USER.\\$x$@9\x22"] := by decide
  obtain ⟨inside, hline, hread⟩ := exported_value_read_iff hs (by decide) (by decide) hls
  refine ⟨inside, by rw [hls, hline], ?_⟩
  rw [hread.2 (by decide)]
  decide

/-- A letter behind the token for the user passes the constructor, and the name of the variable takes it in. -/
theorem name_runs_on :
    let s := Statement.exportVar "X" "\x7buid\x7dx"
    Statement.makeExport "X" "\x7buid\x7dx" = .ok s ∧
      s.lines .unix = .ok [.code "export X=\x22$USERx\x22"] ∧
      readQuoted "$USERx".toList = [.reference "USERx"] ∧
      (scan "\x7buid\x7dx".toList).flatMap (Piece.meaning .unix) = [.reference "USER", .literal 'x'] := by
  refine ⟨by decide, by decide, by decide, by decide⟩

end Scriptwright.Shell
