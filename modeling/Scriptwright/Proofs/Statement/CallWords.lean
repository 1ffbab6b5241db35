/-
The words of the line of a call. Whether an argument is quoted is decided on its
text, but the words are those of the line in which its tokens are replaced. An
argument in quotes is always one word. A bare one is, unless a token is written
with a delimiter in a batch file, or as a comment sign or as nothing at the start
of a word in a shell script (`keepsWhole`, `vanishes`). So the line falls into
the function and one word for each argument exactly when no bare argument holds
such a token (`call_words_iff`).
-/
import Scriptwright.Proofs.Statement.LineFeeds
import Scriptwright.Proofs.Token.Meaning
import Scriptwright.Proofs.Words

namespace Scriptwright

open Token Quoting

variable {family : Family} {arg : String}

/-! ## Arguments as they are written -/

/-- Whether an argument is written without quotes. -/
def standsBare : Family → String → Bool
  | .unix, arg => Shell.isBare arg
  | .windows, arg => !Batch.needsQuotes arg

/-- How a character of an argument is written between double quotes. -/
def argumentChar : Family → Char → List Char
  | .unix => Shell.escapeChar
  | .windows => Batch.doubleQuoteChar

theorem keepsTokens_argumentChar (family : Family) : KeepsTokens (argumentChar family) := by
  cases family with
  | unix => exact keepsTokens_shellEscape
  | windows => exact keepsTokens_doubleQuote

theorem callArgument_eq (family : Family) (arg : String) :
    callArgument family arg
      = if standsBare family arg then arg else "\x22" ++ Text.flatMap (argumentChar family) arg ++ "\x22" := by
  cases family with
  | unix => rfl
  | windows =>
    rw [callArgument, Batch.argument, standsBare]
    cases Batch.needsQuotes arg <;> rfl

/-- An argument of a call with its tokens replaced. -/
def writtenArgument (family : Family) (arg : String) : String :=
  expand family (callArgument family arg)

theorem writtenArgument_of_bare (h : standsBare family arg = true) : writtenArgument family arg = expand family arg := by
  rw [writtenArgument, callArgument_eq, if_pos h]

theorem toList_writtenArgument_of_quoted (h : standsBare family arg = false) :
    (writtenArgument family arg).toList
      = '\x22' :: ((scan arg.toList).flatMap (Piece.write family (argumentChar family)) ++ ['\x22']) := by
  rw [writtenArgument, callArgument_eq, if_neg (by simp [h]), expand_quotes, String.toList_append,
    String.toList_append, (keepsTokens_argumentChar family).toList_expand]
  rfl

/-! ## Arguments in quotes -/

/-- Between double quotes no token and no character as it is written there ends a word. -/
theorem passes_write (family : Family) (p : Piece) :
    Passes family inside (p.write family (argumentChar family)) inside := by
  cases p with
  | token t =>
    have hall : ((t.text family).toList.all fun c => decide (inside.after family c = inside)) = true := by
      cases family <;> cases t <;> decide
    have hplain : ∀ c ∈ (t.text family).toList, inside.after family c = inside := by simpa using hall
    exact .plain fun c hc => ⟨hplain c hc, fun h => absurd h.1 (by decide)⟩
  | plain c =>
    cases family with
    | unix =>
      rw [Piece.write, argumentChar, Shell.escapeChar]
      split
      -- The backslash that escapes a character takes it for the reader too.
      · have hslash : Passes .unix inside ['\\'] ⟨true, true⟩ := .singleton fun h => absurd h.1 (by decide)
        have htaken : Passes .unix ⟨true, true⟩ [c] inside := .singleton fun h => absurd h.1 (by decide)
        exact hslash.append htaken
      · next hlive =>
        simp only [Shell.isLive, Bool.or_eq_true, beq_iff_eq, not_or] at hlive
        have hafter : inside.after .unix c = inside := by simp [Quoting.after, inside, hlive]
        exact .plain fun d hd => ⟨List.mem_singleton.1 hd ▸ hafter, fun h => absurd h.1 (by decide)⟩
    | windows =>
      rw [Piece.write, argumentChar, Batch.doubleQuoteChar]
      split
      -- A doubled quote closes the quotes and opens them again.
      · have hclose : Passes .windows inside ['\x22'] outside := .singleton fun h => absurd h.1 (by decide)
        have hopen : Passes .windows outside ['\x22'] inside := .singleton (by decide)
        exact hclose.append hopen
      · next hquote =>
        have hafter : inside.after .windows c = inside := by simp [Quoting.after, inside, hquote]
        exact .plain fun d hd => ⟨List.mem_singleton.1 hd ▸ hafter, fun h => absurd h.1 (by decide)⟩

theorem passes_of_quoted (h : standsBare family arg = false) :
    Passes family outside (writtenArgument family arg).toList outside := by
  rw [toList_writtenArgument_of_quoted h]
  exact .quotes (.flatMap fun p _ => passes_write family p)

/-! ## Bare arguments -/

/-- A bare argument of a shell command holds no white space and none of the characters that quoting or a comment is
made of. -/
theorem isBareChar_sound {c : Char} (h : Shell.isBareChar c = true) :
    Text.isBlankChar c = false ∧ c ≠ '\\' ∧ c ≠ '\x22' ∧ c ≠ '#' := by
  refine ⟨?_, ?_, ?_, ?_⟩
  · have hsigns : ("_./:=@%+,-\x7b\x7d".toList.all fun d => !Text.isBlankChar d) = true := by decide
    rw [Shell.isBareChar, Bool.or_eq_true, List.contains_iff_mem] at h
    rcases h with h | h
    · have := Text.toNat_of_isWordChar (c := c) (by simp [Text.isWordChar, h])
      exact Text.isBlankChar_eq_false_of_visible (by omega) (by omega)
    · simpa using List.all_eq_true.1 hsigns c h
  all_goals
    rintro rfl
    revert h
    decide

theorem isBareChar_of_mem (h : standsBare .unix arg = true) {c : Char} (hc : c ∈ arg.toList) :
    Shell.isBareChar c = true := by
  rw [standsBare, Shell.isBare, Bool.and_eq_true, List.all_eq_true] at h
  exact h.2 c hc

theorem isSplitChar_of_mem (h : standsBare .windows arg = true) {c : Char} (hc : c ∈ arg.toList) :
    Batch.isSplitChar c = false := by
  rw [standsBare, Bool.not_eq_true', Batch.needsQuotes, Bool.or_eq_false_iff] at h
  simpa using List.any_eq_false.1 h.2 c hc

theorem scan_ne_nil_of_bare (h : standsBare family arg = true) : scan arg.toList ≠ [] := by
  rw [ne_eq, scan_eq_nil_iff, String.toList_eq_nil_iff]
  rintro rfl
  revert h
  cases family <;> decide

/-- Neither the characters nor the tokens of a bare argument start any quoting. -/
theorem after_of_mem_expand (h : standsBare family arg = true) {c : Char} (hc : c ∈ (expand family arg).toList) :
    outside.after family c = outside := by
  obtain ⟨p, hp, hc⟩ := mem_expand_iff.1 hc
  cases p with
  | token t =>
    have hall : ((t.text family).toList.all fun d => decide (outside.after family d = outside)) = true := by
      cases family <;> cases t <;> decide
    simpa using List.all_eq_true.1 hall c hc
  | plain d =>
    obtain rfl := List.mem_singleton.1 hc
    have hmem := mem_of_plain_mem_scan hp
    cases family with
    | unix =>
      obtain ⟨-, hslash, hquote, -⟩ := isBareChar_sound (isBareChar_of_mem h hmem)
      simp [Quoting.after, outside, hslash, hquote]
    | windows =>
      have hquote : c ≠ '\x22' := by
        rintro rfl
        cases isSplitChar_of_mem h hmem
      simp [Quoting.after, outside, hquote]

/-! ### In a shell script -/

/-- The first piece of a text that a shell script does not write as nothing. -/
def firstWritten? (ps : List Piece) : Option Piece :=
  ps.find? (· ≠ .token .variableRight)

theorem head?_flatMap_expand (ps : List Piece) :
    (ps.flatMap (Piece.expand .unix)).head? = (firstWritten? ps).bind fun p => (p.expand .unix).head? := by
  induction ps with
  | nil => rfl
  | cons p ps ih =>
    rw [List.flatMap_cons, firstWritten?, List.find?_cons]
    by_cases hp : p = .token .variableRight
    · rw [hp]
      exact ih
    · have hne : p.expand .unix ≠ [] := by
        cases p with
        | plain c => simp [Piece.expand]
        | token t =>
          revert hp
          cases t <;> decide
      obtain ⟨c, cs, hcs⟩ := List.exists_cons_of_ne_nil hne
      simp [hp, hcs]

theorem head?_expand (arg : String) :
    (expand .unix arg).toList.head? = (firstWritten? (scan arg.toList)).bind fun p => (p.expand .unix).head? := by
  rw [expand, String.toList_ofList, head?_flatMap_expand]

/-- A bare argument starts a comment exactly when its first written token does. -/
theorem head?_expand_eq_comment_iff (h : standsBare .unix arg = true) :
    (expand .unix arg).toList.head? = some '#' ↔ firstWritten? (scan arg.toList) = some (.token .remark) := by
  rw [head?_expand]
  cases hfirst : firstWritten? (scan arg.toList) with
  | none => simp
  | some p =>
    rw [Option.bind_some, Option.some.injEq]
    cases p with
    | plain c =>
      have hmem := mem_of_plain_mem_scan (List.mem_of_find?_eq_some hfirst)
      have hc := (isBareChar_sound (isBareChar_of_mem h hmem)).2.2.2
      simp [Piece.expand, hc]
    | token t => cases t <;> decide

/-- It is written as nothing exactly when all its pieces are. -/
theorem expand_eq_nil_iff : (expand .unix arg).toList = [] ↔ firstWritten? (scan arg.toList) = none := by
  rw [← List.head?_eq_none_iff, head?_expand]
  cases hfirst : firstWritten? (scan arg.toList) with
  | none => simp
  | some p =>
    have hp : p ≠ .token .variableRight := by simpa using List.find?_some hfirst
    cases p with
    | plain c => simp [Piece.expand]
    | token t =>
      revert hp
      cases t <;> decide

theorem isBlankChar_of_mem_expand (h : standsBare .unix arg = true) (hfeed : occursIn .lineFeed arg = false) {c : Char}
    (hc : c ∈ (expand .unix arg).toList) : Text.isBlankChar c = false := by
  obtain ⟨p, hp, hc⟩ := mem_expand_iff.1 hc
  cases p with
  | token t =>
    have hne : t ≠ .lineFeed := by
      rintro rfl
      simp [occursIn, hp] at hfeed
    have hall : ((t.text .unix).toList.all fun d => !Text.isBlankChar d) = true := by
      revert hne
      cases t <;> decide
    simpa using List.all_eq_true.1 hall c hc
  | plain d =>
    obtain rfl := List.mem_singleton.1 hc
    exact (isBareChar_sound (isBareChar_of_mem h (mem_of_plain_mem_scan hp))).1

/-! ### In a batch file -/

/-- The pieces that a batch file writes with a delimiter, but for a line feed. -/
def splitting : List Piece :=
  [.token .pathSeparator, .token .returning, .token .exiting]

/-- A bare argument gets a delimiter exactly from such a piece. -/
theorem isSplitChar_expand_iff (h : standsBare .windows arg = true) (hfeed : occursIn .lineFeed arg = false) :
    (∀ c ∈ (expand .windows arg).toList, Batch.isSplitChar c = false) ↔ ∀ p ∈ scan arg.toList, p ∉ splitting := by
  have hpiece : ∀ p ∈ scan arg.toList,
      (∀ c ∈ p.expand .windows, Batch.isSplitChar c = false) ↔ p ∉ splitting := by
    intro p hp
    cases p with
    | token t =>
      have hne : t ≠ .lineFeed := by
        rintro rfl
        simp [occursIn, hp] at hfeed
      have hall : ((t.text .windows).toList.all fun c => !Batch.isSplitChar c) = !splitting.contains (.token t) := by
        revert hne
        cases t <;> decide
      rw [Bool.eq_iff_iff] at hall
      simpa [Piece.expand] using hall
    | plain c =>
      have hc := isSplitChar_of_mem h (mem_of_plain_mem_scan hp)
      simp [Piece.expand, splitting, hc]
  constructor
  · intro hall p hp
    exact (hpiece p hp).1 fun c hc => hall c (mem_expand_iff.2 ⟨p, hp, hc⟩)
  · intro hall c hc
    obtain ⟨p, hp, hc⟩ := mem_expand_iff.1 hc
    exact (hpiece p hp).2 (hall p hp) c hc

/-! ### In either family -/

/-- Whether the pieces of a bare argument are written as part of one word. -/
def keepsWhole : Family → List Piece → Bool
  | .unix, ps => firstWritten? ps != some (.token .remark)
  | .windows, ps => ps.all fun p => !splitting.contains p

/-- Whether they are written as nothing. -/
def vanishes : Family → List Piece → Bool
  | .unix, ps => (firstWritten? ps).isNone
  | .windows, _ => false

/-- Nothing in a text ends the word that it starts, or makes a comment of it. -/
def StaysWhole : Family → String → Prop
  | .unix, text => (∀ c ∈ text.toList, Text.isBlankChar c = false) ∧ text.toList.head? ≠ some '#'
  | .windows, text => ∀ c ∈ text.toList, Batch.isSplitChar c = false

theorem staysWhole_iff (h : standsBare family arg = true) (hfeed : occursIn .lineFeed arg = false) :
    StaysWhole family (expand family arg) ↔ keepsWhole family (scan arg.toList) = true := by
  cases family with
  | unix =>
    have hblank : ∀ c ∈ (expand .unix arg).toList, Text.isBlankChar c = false :=
      fun _ hc => isBlankChar_of_mem_expand h hfeed hc
    rw [StaysWhole, and_iff_right hblank, ne_eq, head?_expand_eq_comment_iff h]
    simp [keepsWhole]
  | windows =>
    rw [StaysWhole, isSplitChar_expand_iff h hfeed]
    simp [keepsWhole]

theorem expand_eq_nil_iff_vanishes (h : standsBare family arg = true) :
    (expand family arg).toList = [] ↔ vanishes family (scan arg.toList) = true := by
  cases family with
  | unix => rw [expand_eq_nil_iff, vanishes, Option.isNone_iff_eq_none]
  | windows =>
    have hpiece : ∀ p : Piece, p.expand .windows ≠ [] := by
      rintro (t | c)
      · cases t <;> decide
      · simp [Piece.expand]
    obtain ⟨p, ps, hscan⟩ := List.exists_cons_of_ne_nil (scan_ne_nil_of_bare h)
    simp [expand, hscan, hpiece, vanishes]

/-- Nothing that ends a word stands in a text that stays whole. -/
theorem StaysWhole.endsWord_eq_false {text : String} (h : StaysWhole family text) :
    ∀ c ∈ text.toList, family.endsWord c = false := by
  intro c hc
  cases family with
  | unix => exact h.1 c hc
  | windows => simp [Family.endsWord, h c hc]

/-! ## One word for each argument -/

/-- An argument that is written as one word: in quotes, or from pieces that neither break the word nor leave it out. -/
def IsOneWord (family : Family) (arg : String) : Prop :=
  standsBare family arg = true →
    keepsWhole family (scan arg.toList) = true ∧ vanishes family (scan arg.toList) = false

instance (family : Family) (arg : String) : Decidable (IsOneWord family arg) :=
  inferInstanceAs (Decidable (_ → _))

theorem isClosedWord_writtenArgument (hfeed : occursIn .lineFeed arg = false) (h : IsOneWord family arg) :
    IsClosedWord family (writtenArgument family arg) := by
  cases hbare : standsBare family arg with
  | false =>
    have hquoted := toList_writtenArgument_of_quoted hbare
    exact ⟨by simp [hquoted], passes_of_quoted hbare, fun _ => by simp [hquoted]⟩
  | true =>
    obtain ⟨hkeeps, hvanishes⟩ := h hbare
    have hwhole := (staysWhole_iff hbare hfeed).2 hkeeps
    rw [writtenArgument_of_bare hbare]
    refine ⟨?_, ?_, ?_⟩
    · rw [ne_eq, expand_eq_nil_iff_vanishes hbare, hvanishes]
      exact Bool.false_ne_true
    · exact .plain fun c hc => ⟨after_of_mem_expand hbare hc, by simp [hwhole.endsWord_eq_false c hc]⟩
    · rintro rfl
      exact hwhole.2

theorem isOneWord_of_isWord (hfeed : occursIn .lineFeed arg = false)
    (h : IsWord family (writtenArgument family arg)) : IsOneWord family arg := by
  intro hbare
  rw [writtenArgument_of_bare hbare] at h
  have hends := h.endsWord_eq_false fun c hc => after_of_mem_expand hbare hc
  have hwhole : StaysWhole family (expand family arg) := by
    cases family with
    | unix => exact ⟨hends, h.no_comment rfl⟩
    | windows =>
      intro c hc
      have hquote : c ≠ '\x22' := by
        rintro rfl
        cases after_of_mem_expand hbare hc
      simpa [Family.endsWord, hquote] using hends c hc
  refine ⟨(staysWhole_iff hbare hfeed).1 hwhole, ?_⟩
  rw [← Bool.not_eq_true, ← expand_eq_nil_iff_vanishes hbare]
  exact h.ne_nil

/-! ## The line -/

/-- What a call consists of: what it calls, and its arguments. -/
def callWords : Family → String → List String → List String
  | .unix, function, args => function :: args.map (writtenArgument .unix)
  | .windows, function, args => "call" :: (":" ++ function) :: args.map (writtenArgument .windows)

theorem toList_expand_callTemplate (family : Family) {function : String} (h : isIdentifier function = true) (args : List String) :
    (expand family (callTemplate family function args)).toList
      = (callStart family function).toList ++ args.flatMap fun arg => ' ' :: (writtenArgument family arg).toList := by
  rw [expand, String.toList_ofList, toList_callTemplate, scan_append_of_not_mem (brace_not_mem_callStart family h),
    scan_flatMap_cons rfl, List.flatMap_append, flatMap_expand_map_plain, List.flatMap_assoc]
  simp only [writtenArgument, expand, String.toList_ofList, List.flatMap_cons]
  rfl

/-- No character of a name starts any quoting, ends a word or starts a comment. -/
theorem plain_of_isWordChar {c : Char} (h : Text.isWordChar c = true) :
    outside.after family c = outside ∧ family.endsWord c = false ∧ c ≠ '#' := by
  have := Text.toNat_of_isWordChar h
  have hblank : Text.isBlankChar c = false := Text.isBlankChar_eq_false_of_visible (by omega) (by omega)
  have hsigns : c ∉ ['\\', '#', '\x22', '&', '|', '<', '>', '^', '(', ')', ',', ';', '='] := by
    have hall : (['\\', '#', '\x22', '&', '|', '<', '>', '^', '(', ')', ',', ';', '='].all
        fun d => !Text.isWordChar d) = true := by decide
    intro hc
    simpa [h] using List.all_eq_true.1 hall c hc
  simp only [List.mem_cons, List.not_mem_nil, or_false, not_or] at hsigns
  cases family <;> simp [Quoting.after, outside, Family.endsWord, Batch.isSplitChar, hblank, hsigns]

theorem isClosedWord_identifier {function : String} (h : isIdentifier function = true) :
    IsClosedWord family function := by
  have hplain : ∀ c ∈ function.toList, outside.after family c = outside ∧ family.endsWord c = false ∧ c ≠ '#' :=
    fun _ hc => plain_of_isWordChar (Text.isWordChar_of_mem_identifier h hc)
  refine ⟨Text.identifier_ne_nil h, .plain fun c hc => ⟨(hplain c hc).1, by simp [(hplain c hc).2.1]⟩, fun _ hhead => ?_⟩
  exact (hplain _ (List.mem_of_head? hhead)).2.2 rfl

/-- A label is named with a colon. -/
theorem isClosedWord_label {function : String} (h : isIdentifier function = true) :
    IsClosedWord .windows (":" ++ function) := by
  have hcolon : Passes .windows outside [':'] outside := .singleton (by decide)
  refine ⟨by simp, ?_, fun hunix => by cases hunix⟩
  rw [String.toList_append]
  exact hcolon.append (isClosedWord_identifier h).passes

/-- A bare argument without a line feed is written without the end of a word exactly when no token in it brings one.
The line of a call without line feeds falls into what is called and one word for each argument exactly when no bare
argument is broken or left out by its tokens. -/
theorem call_words_iff {s : Statement} {function : String} {args : List String}
    (h : Statement.makeCall function args = .ok s) (family : Family) :
    ∃ line, s.lines family = .ok [.code line] ∧
      (∀ arg ∈ args, occursIn .lineFeed arg = false → standsBare family arg = true →
        (StaysWhole family (expand family arg) ↔ keepsWhole family (scan arg.toList) = true)) ∧
      ((∀ arg ∈ args, occursIn .lineFeed arg = false) →
        (words family line = callWords family function args ↔ ∀ arg ∈ args, IsOneWord family arg)) := by
  obtain ⟨rfl, hname, -⟩ := Statement.makeCall_eq_ok_iff.1 h
  refine ⟨_, rfl, fun arg _ hfeed hbare => staysWhole_iff hbare hfeed, fun hfeed => ⟨?_, ?_⟩⟩
  -- A written argument that is a word of the line is one on its own, so what it is written from keeps it whole.
  · intro hwords arg harg
    have hmem : writtenArgument family arg ∈ callWords family function args := by
      have hmap := List.mem_map_of_mem (f := writtenArgument family) harg
      cases family with
      | unix => exact List.mem_cons_of_mem _ hmap
      | windows => exact List.mem_cons_of_mem _ (List.mem_cons_of_mem _ hmap)
    exact isOneWord_of_isWord (hfeed arg harg) (isWord_of_mem_words (hwords ▸ hmem))
  · intro hone
    have hline := toList_expand_callTemplate family hname args
    have hargs : ∀ word ∈ args.map (writtenArgument family), IsClosedWord family word := by
      intro word hword
      obtain ⟨arg, harg, rfl⟩ := List.mem_map.1 hword
      exact isClosedWord_writtenArgument (hfeed arg harg) (hone arg harg)
    cases family with
    | unix =>
      refine words_line ?_ (List.forall_mem_cons.2 ⟨isClosedWord_identifier hname, hargs⟩)
      rw [hline, List.flatMap_map]
      rfl
    | windows =>
      have hcall : IsClosedWord .windows "call" := isClosedWord_identifier (by decide)
      refine words_line ?_ (List.forall_mem_cons.2 ⟨hcall, List.forall_mem_cons.2 ⟨isClosedWord_label hname, hargs⟩⟩)
      rw [hline, List.flatMap_cons, List.flatMap_map, callStart, String.toList_append]
      simp

/-- Arguments in quotes and bare ones, with tokens in both. -/
theorem call_words_of_tokens :
    let s := Statement.call "report" ["\x7btmp\x7d\x7bfs\x7da", "two words\x7bps\x7d", ""]
    Statement.makeCall "report" ["\x7btmp\x7d\x7bfs\x7da", "two words\x7bps\x7d", ""] = .ok s ∧
      ∃ line, s.lines .windows = .ok [.code line] ∧
        words .windows line = ["call", ":report", "%TEMP%\\a", "\x22two words;\x22", "\x22\x22"] := by
  have hs : Statement.makeCall "report" ["\x7btmp\x7d\x7bfs\x7da", "two words\x7bps\x7d", ""]
      = .ok (.call "report" ["\x7btmp\x7d\x7bfs\x7da", "two words\x7bps\x7d", ""]) := by decide
  obtain ⟨line, hline, -, hwords⟩ := call_words_iff hs .windows
  refine ⟨hs, line, hline, ?_⟩
  rw [(hwords (by decide)).2 (by decide)]
  decide

/-- A token for the separator of paths passes without quotes, and a batch file reads two arguments. -/
theorem separator_splits_argument :
    let s := Statement.call "f" ["a\x7bps\x7db"]
    Statement.makeCall "f" ["a\x7bps\x7db"] = .ok s ∧ occursIn .lineFeed "a\x7bps\x7db" = false ∧
      s.lines .windows = .ok [.code "call :f a;b"] ∧ words .windows "call :f a;b" = ["call", ":f", "a", "b"] ∧
      ¬ StaysWhole .windows (expand .windows "a\x7bps\x7db") := by
  refine ⟨by decide, by decide, by decide, by decide, ?_⟩
  rw [staysWhole_iff (by decide) (by decide)]
  decide

end Scriptwright
