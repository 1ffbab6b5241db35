/-
Which built statements write a line that holds a line feed. The constructors
look for line breaks before tokens are replaced; commands and exports look
again afterwards, a path, an argument of a call and an exit code do not. So the
token for a line feed slips through in those three (`Statement.breaksLine`) and
nowhere else, and only then does the written text fall into more lines than the
tree has (`one_piece_per_line_iff`).
-/
import Scriptwright.Proofs.Statement.EachLine
import Scriptwright.Proofs.Text.Lines
import Scriptwright.Proofs.Token.Scan

namespace Scriptwright

/-! ## Broken lines -/

namespace Line

/-- Whether a line holds a line feed. -/
def isBroken (l : Line) : Bool :=
  l.text.toList.contains '\n'

/-- Whether one of some lines holds a line feed. -/
def anyBroken (ls : List Line) : Bool :=
  ls.any isBroken

theorem isBroken_eq_false_iff {l : Line} : l.isBroken = false ↔ '\n' ∉ l.text.toList := by
  simp [isBroken]

theorem anyBroken_eq_false_iff {ls : List Line} : anyBroken ls = false ↔ ∀ l ∈ ls, '\n' ∉ l.text.toList := by
  simp [anyBroken, isBroken]

@[simp] theorem anyBroken_nil : anyBroken [] = false := rfl

@[simp] theorem anyBroken_cons (l : Line) (ls : List Line) : anyBroken (l :: ls) = (l.isBroken || anyBroken ls) := rfl

@[simp] theorem anyBroken_append (a b : List Line) : anyBroken (a ++ b) = (anyBroken a || anyBroken b) := by
  simp [anyBroken]

/-- A broken line has something on it besides blanks, so no indentation drops it. -/
def Solid (ls : List Line) : Prop :=
  ∀ l ∈ ls, l.isBroken = true → Text.isBlank l.text = false

theorem solid_of_anyBroken_eq_false {ls : List Line} (h : anyBroken ls = false) : Solid ls := by
  intro l hl hb
  rw [isBroken_eq_false_iff.2 (anyBroken_eq_false_iff.1 h l hl)] at hb
  cases hb

theorem isBroken_indented (text : String) : (code (step ++ text)).isBroken = (code text).isBroken := by
  simp [isBroken, Line.text, step]

/-- Indentation keeps what is broken. -/
theorem anyBroken_indent {ls : List Line} (h : Solid ls) : anyBroken (indent ls) = anyBroken ls := by
  induction ls with
  | nil => rfl
  | cons l ls ih =>
    have ih := ih fun l' hl' => h l' (List.mem_cons_of_mem _ hl')
    have hl := h l List.mem_cons_self
    rw [anyBroken_cons, ← ih]
    cases l with
    | literal text => rfl
    | code text =>
      simp only [indent, List.filterMap_cons, indent?]
      cases hb : Text.isBlank text with
      | false => simp [isBroken_indented]
      | true =>
        have hs : (code text).isBroken = false := by
          rw [← Bool.not_eq_true]
          intro hs
          simp [Line.text, hb] at hl
          exact absurd hs (by simp [hl])
        simp [hs]

theorem keeps_solid (family : Family) :
    family.Keeps '\n' fun text => (code text).isBroken = true → Text.isBlank text = false where
  foreign := rfl
  step text h hb := by
    rw [Text.isBlank_append, h (isBroken_indented text ▸ hb), Bool.and_false]
  plain text h hb := by
    have hplain : (code text).isBroken = false := isBroken_eq_false_iff.2 h
    rw [hplain] at hb
    cases hb

end Line

open Line

theorem occursIn_callArgument (family : Family) (t : Token) (text : String) :
    Token.occursIn t (callArgument family text) = Token.occursIn t text := by
  cases family with
  | unix => exact Token.occursIn_shellArgument t text
  | windows => exact Token.occursIn_batchArgument t text

/-! ## Leaves -/

theorem brace_not_mem_callStart (family : Family) {function : String} (h : isIdentifier function = true) :
    '\x7b' ∉ (callStart family function).toList := by
  have hname : '\x7b' ∉ function.toList := fun hm => absurd (Text.isWordChar_of_mem_identifier h hm) (by decide)
  cases family with
  | unix => exact hname
  | windows => exact not_mem_append (by decide) hname

theorem occursIn_callTemplate {family : Family} {function : String} (h : isIdentifier function = true)
    (args : List String) (t : Token) :
    Token.occursIn t (callTemplate family function args) = args.any (Token.occursIn t) := by
  have hstart := brace_not_mem_callStart family h
  have harg : ∀ arg, .token t ∈ Token.scan (callArgument family arg).toList ↔ Token.occursIn t arg = true := by
    intro arg
    rw [← occursIn_callArgument family t arg]
    simp [Token.occursIn]
  rw [Bool.eq_iff_iff, Token.occursIn, toList_callTemplate, Token.scan_append_of_not_mem hstart,
    Token.scan_flatMap_cons rfl]
  simp [harg]

theorem isBroken_append (a b : String) : (code (a ++ b)).isBroken = ((code a).isBroken || (code b).isBroken) := by
  simp [isBroken, Line.text]

theorem isBroken_expand (family : Family) {text : String} (h : '\n' ∉ text.toList) :
    (code (Token.expand family text)).isBroken = Token.occursIn .lineFeed text := by
  rw [Bool.eq_iff_iff, ← Token.lineFeed_mem_expand_iff family h]
  simp [isBroken, Line.text]

/-- The lines of a text hold no line feed, whatever they are used for. -/
theorem anyBroken_map_lines (text : String) {f : String → Line}
    (hf : ∀ line, '\n' ∉ line.toList → '\n' ∉ (f line).text.toList) :
    anyBroken ((Text.lines text).map f) = false := by
  rw [anyBroken_eq_false_iff]
  intro l hl
  obtain ⟨line, hline, rfl⟩ := List.mem_map.1 hl
  exact hf line (Text.not_mem_of_mem_lines hline)

theorem anyBroken_execLines {family : Family} {command : String} {replacing : Bool} {ls : List Line}
    (h : execLines family command replacing = .ok ls) : anyBroken ls = false := by
  obtain ⟨hbreak, -, -, rfl⟩ := execLines_eq_ok_iff.1 h
  have hplain := (Text.hasBreak_eq_false_iff.1 hbreak).1
  rw [anyBroken_eq_false_iff]
  cases replacing <;> simpa [Line.text] using hplain

theorem anyBroken_interpretLines (family : Family) (text : String) :
    anyBroken (interpretLines family text) = false := by
  simp only [interpretLines]
  split
  · rfl
  · exact anyBroken_map_lines _ fun _ h => h

theorem anyBroken_commentLines (family : Family) (text : String) : anyBroken (commentLines family text) = false := by
  refine anyBroken_map_lines _ fun line h => ?_
  unfold commentLine
  split <;> cases family <;> simp [Line.text, Family.commentMarker, h]

theorem anyBroken_exportLines {family : Family} {name value : String} {ls : List Line}
    (h : exportLines family name value = .ok ls) : anyBroken ls = false := by
  obtain ⟨hbreak, rfl⟩ := exportLines_eq_ok_iff.1 h
  rw [anyBroken_eq_false_iff]
  simpa [Line.text] using (Text.hasBreak_eq_false_iff.1 hbreak).1

theorem lineFeed_not_mem_payloadLines {family : Family} {payload : List String} {line : String}
    (h : line ∈ payloadLines family payload) : '\n' ∉ line.toList := by
  obtain ⟨text, -, hl⟩ := List.mem_flatMap.1 h
  exact Text.not_mem_of_mem_lines hl

theorem payloadLines_eq_nil_iff {family : Family} {payload : List String} :
    payloadLines family payload = [] ↔ payload = [] := by
  cases payload <;> simp [payloadLines, Text.lines_ne_nil]

/-- The payload of a here-document, and the line that ends it, hold no line feed. -/
theorem anyBroken_literals (payload : List String) :
    anyBroken ((payloadLines .unix payload).map Line.literal ++ [literal hereDelimiter]) = false := by
  have hlast : anyBroken [literal hereDelimiter] = false := by decide
  rw [anyBroken_append, hlast, Bool.or_false, anyBroken_eq_false_iff]
  intro l hl
  obtain ⟨line, hline, rfl⟩ := List.mem_map.1 hl
  exact lineFeed_not_mem_payloadLines hline

theorem any_eq_of_forall {α : Type} {p : α → Bool} {b : Bool} {xs : List α} (h : ∀ x ∈ xs, p x = b) :
    xs.any p = (b && !xs.isEmpty) := by
  cases b with
  | false => simpa using h
  | true =>
    cases xs with
    | nil => rfl
    | cons x xs => simp [h x List.mem_cons_self]

/-- A path breaks its lines where it holds the token for a line feed; a batch file names the path
once for each payload line, a shell script once in all. -/
theorem anyBroken_appendFileLines {family : Family} {path : String} {payload : List String} {ls : List Line}
    (hp : isQuoteUnsafe path = false) (h : appendFileLines family path payload = .ok ls) :
    anyBroken ls = (Token.occursIn .lineFeed path && (family == .unix || !payload.isEmpty)) := by
  have hpath := (isQuoteUnsafe_eq_false_iff.1 hp).2.1
  cases family with
  | unix =>
    obtain ⟨-, rfl⟩ := appendFileLines_unix_eq_ok_iff.1 h
    have htarget := isBroken_expand .unix (foreign_not_mem_shellArgument (by decide) hpath)
    rw [Token.occursIn_shellArgument] at htarget
    have hstart : (code "cat >> ").isBroken = false := by decide
    have hend : (code (" <<\x27" ++ hereDelimiter ++ "\x27")).isBroken = false := by decide
    rw [Shell.hereDocument, List.cons_append, anyBroken_cons, anyBroken_literals]
    simp only [String.append_assoc] at hend ⊢
    rw [isBroken_append, isBroken_append, hstart, htarget, hend]
    simp
  | windows =>
    cases h
    have hquote : (code "\"").isBroken = false := by decide
    have htarget : (code ("\"" ++ Token.expand .windows path ++ "\"")).isBroken = Token.occursIn .lineFeed path := by
      rw [isBroken_append, isBroken_append, hquote, isBroken_expand .windows hpath]
      simp
    have hecho : ∀ line ∈ payloadLines .windows (payload.map Batch.escapeEcho),
        (Batch.echoLine ("\"" ++ Token.expand .windows path ++ "\"") line).isBroken
          = Token.occursIn .lineFeed path := by
      intro line hline
      have hl : (code line).isBroken = false :=
        isBroken_eq_false_iff.2 (lineFeed_not_mem_payloadLines hline)
      have h₁ : (code "(echo(").isBroken = false := by decide
      have h₂ : (code "echo(").isBroken = false := by decide
      have h₃ : (code ")>>").isBroken = false := by decide
      have h₄ : (code ">>").isBroken = false := by decide
      unfold Batch.echoLine
      split
      · rw [isBroken_append, isBroken_append, isBroken_append, h₁, hl, h₃, htarget]
        simp
      · rw [isBroken_append, isBroken_append, isBroken_append, h₂, hl, h₄, htarget]
        simp
    have hnil : (payloadLines .windows (payload.map Batch.escapeEcho)).isEmpty = payload.isEmpty := by
      rw [Bool.eq_iff_iff, List.isEmpty_iff, payloadLines_eq_nil_iff, List.map_eq_nil_iff, List.isEmpty_iff]
    rw [anyBroken, List.any_map]
    exact (any_eq_of_forall hecho).trans (by rw [hnil]; rfl)

/-- No character of a line break gets into a call but from its arguments. -/
theorem lineFeed_not_mem_callTemplate {family : Family} {function : String} {args : List String}
    (hf : isIdentifier function = true) (ha : ∀ arg ∈ args, Text.hasBreak arg = false) :
    '\n' ∉ (callTemplate family function args).toList :=
  foreign_not_mem_callTemplate rfl hf fun arg harg => (Text.hasBreak_eq_false_iff.1 (ha arg harg)).1

theorem anyBroken_callLines {family : Family} {function : String} {args : List String}
    (hf : isIdentifier function = true) (ha : ∀ arg ∈ args, Text.hasBreak arg = false) :
    anyBroken (callLines family function args) = args.any (Token.occursIn .lineFeed) := by
  rw [callLines, anyBroken_cons, isBroken_expand family (lineFeed_not_mem_callTemplate hf ha), occursIn_callTemplate hf]
  simp

theorem anyBroken_leaveLines {family : Family} {leaving : String} (h : Text.hasBreak leaving = false) :
    anyBroken (leaveLines family leaving) = Token.occursIn .lineFeed leaving := by
  have hcode : (code (Token.expand family leaving)).isBroken = Token.occursIn .lineFeed leaving :=
    isBroken_expand family (Text.hasBreak_eq_false_iff.1 h).1
  have hstart : '\x7b' ∉ "return ".toList ∧ '\x7b' ∉ "exit /b ".toList := by decide
  have hplain : (code "return ").isBroken = false ∧ (code "exit /b ").isBroken = false := by decide
  cases family with
  | unix => simp [leaveLines, Token.expand_append .unix hstart.1, isBroken_append, hcode, hplain]
  | windows => simp [leaveLines, Token.expand_append .windows hstart.2, isBroken_append, hcode, hplain]

theorem solid_of_isBlank_eq_false {l : Line} (h : Text.isBlank l.text = false) : Solid [l] := by
  intro l' hl _
  rw [List.mem_singleton.1 hl]
  exact h

theorem solid_appendFileLines {family : Family} {path : String} {payload : List String} {ls : List Line}
    (h : appendFileLines family path payload = .ok ls) : Solid ls := by
  cases family with
  | unix =>
    obtain ⟨-, rfl⟩ := appendFileLines_unix_eq_ok_iff.1 h
    intro l hl hb
    rw [Shell.hereDocument, List.cons_append, List.mem_cons] at hl
    rcases hl with rfl | hl
    · have : Text.isBlank "cat >> " = false := by decide
      simp only [Line.text, Text.isBlank_append, this, Bool.false_and]
    · exact solid_of_anyBroken_eq_false (anyBroken_literals payload) l hl hb
  | windows =>
    cases h
    intro l hl _
    obtain ⟨line, -, rfl⟩ := List.mem_map.1 hl
    have h₁ : Text.isBlank "(echo(" = false := by decide
    have h₂ : Text.isBlank "echo(" = false := by decide
    unfold Batch.echoLine
    split <;> simp only [Line.text, Text.isBlank_append, h₁, h₂, Bool.false_and]

theorem solid_callLines {family : Family} {function : String} {args : List String}
    (hf : isIdentifier function = true) : Solid (callLines family function args) := by
  apply solid_of_isBlank_eq_false
  have hstart := brace_not_mem_callStart family hf
  obtain ⟨c, cs, hc⟩ := List.exists_cons_of_ne_nil (Text.identifier_ne_nil hf)
  have hmem : c ∈ function.toList := hc ▸ List.mem_cons_self
  have hword := Text.toNat_of_isWordChar (Text.isWordChar_of_mem_identifier hf hmem)
  have hblank : Text.isBlank function = false :=
    Text.isBlank_eq_false_of_mem hmem (Text.isBlankChar_eq_false_of_visible (by omega) (by omega))
  have hrest : Text.isBlank (callStart family function) = false := by
    cases family with
    | unix => exact hblank
    | windows => simp [callStart, Text.isBlank_append, hblank]
  have htemplate : callTemplate family function args = callStart family function ++
      String.join (args.map fun arg => " " ++ callArgument family arg) := by cases family <;> rfl
  rw [Line.text, htemplate, Token.expand_append family hstart, Text.isBlank_append, hrest, Bool.false_and]

theorem solid_leaveLines (family : Family) (leaving : String) : Solid (leaveLines family leaving) := by
  apply solid_of_isBlank_eq_false
  have hstart : '\x7b' ∉ "return ".toList ∧ '\x7b' ∉ "exit /b ".toList := by decide
  have h₁ : Text.isBlank "return " = false := by decide
  have h₂ : Text.isBlank "exit /b " = false := by decide
  cases family with
  | unix => simp [Line.text, Token.expand_append .unix hstart.1, Text.isBlank_append, h₁]
  | windows => simp [Line.text, Token.expand_append .windows hstart.2, Text.isBlank_append, h₂]

/-! ## Trees -/

namespace Statement

mutual

/-- Whether a statement writes a token for a line feed inside one of its lines. -/
def breaksLine (family : Family) : Statement → Bool
  | appendFile path payload => Token.occursIn .lineFeed path && (family == .unix || !payload.isEmpty)
  | list body => breaksLineList family body
  | switchArg _ cases => breaksLineCases family cases
  | call _ args => args.any (Token.occursIn .lineFeed)
  | leave leaving => Token.occursIn .lineFeed leaving
  | exec .. | interpret _ | exportVar .. | comment _ => false
  termination_by structural s => s

/-- Whether one of some statements does. -/
def breaksLineList (family : Family) : List Statement → Bool
  | [] => false
  | s :: ss => s.breaksLine family || breaksLineList family ss
  termination_by structural ss => ss

/-- Whether the statement of one of some cases does. -/
def breaksLineCases (family : Family) : List (String × Statement) → Bool
  | [] => false
  | (_, s) :: cs => s.breaksLine family || breaksLineCases family cs
  termination_by structural cs => cs

end

variable {s : Statement} {family : Family} {ls : List Line}

/-- What is shown of the lines of each statement: whether they are broken, and that none of the broken
ones is dropped in a block. -/
def Breaks (b : Bool) (ls : List Line) : Prop := anyBroken ls = b ∧ Solid ls

theorem breaks_leaf (hs : s.Sound) (hleaf : s.isLeaf = true) (h : s.lines family = .ok ls) :
    Breaks (s.breaksLine family) ls := by
  have unbroken : ∀ {ls}, anyBroken ls = false → Breaks false ls := fun h => ⟨h, solid_of_anyBroken_eq_false h⟩
  cases s with
  | exec => rw [lines] at h; rw [breaksLine]; exact unbroken (anyBroken_execLines h)
  | interpret =>
    rw [lines, Except.ok.injEq] at h
    subst h
    rw [breaksLine]
    exact unbroken (anyBroken_interpretLines family _)
  | comment =>
    rw [lines, Except.ok.injEq] at h
    subst h
    rw [breaksLine]
    exact unbroken (anyBroken_commentLines family _)
  | exportVar => rw [lines] at h; rw [breaksLine]; exact unbroken (anyBroken_exportLines h)
  | appendFile =>
    rw [lines] at h
    rw [breaksLine]
    exact ⟨anyBroken_appendFileLines hs.2.1 h, solid_appendFileLines h⟩
  | call =>
    rw [lines, Except.ok.injEq] at h
    subst h
    rw [breaksLine]
    exact ⟨anyBroken_callLines hs.1 hs.2, solid_callLines hs.1⟩
  | leave =>
    rw [lines, Except.ok.injEq] at h
    subst h
    rw [breaksLine]
    exact ⟨anyBroken_leaveLines hs.2, solid_leaveLines family _⟩
  | list => cases hleaf
  | switchArg => cases hleaf

theorem breaksLineList_eq_any (family : Family) (body : List Statement) :
    breaksLineList family body = body.any (breaksLine family) := by
  induction body with
  | nil => rfl
  | cons s ss ih => rw [breaksLineList, ih, List.any_cons]

theorem breaksLineCases_eq_any (family : Family) (cases : List (String × Statement)) :
    breaksLineCases family cases = cases.any fun c => c.2.breaksLine family := by
  induction cases with
  | nil => rfl
  | cons c cs ih => rw [breaksLineCases, ih, List.any_cons]

theorem solid_lines (hm : s.Made) (h : s.lines family = .ok ls) : Solid ls :=
  forall_lines (keeps_solid family) hm (fun _ _ hleaf hs _ h => (breaks_leaf hs hleaf h).2)
    (fun _ _ _ hs => break_not_mem_value hs (.inl rfl)) h

theorem anyBroken_lines (hm : s.Made) (h : s.lines family = .ok ls) : anyBroken ls = s.breaksLine family := by
  induction s using Statement.induction generalizing ls with
  | leaf s hleaf => exact (breaks_leaf hm.sound hleaf h).1
  | list body ih =>
    rw [lines] at h
    rw [anyBroken, any_linesList h, breaksLine, breaksLineList_eq_any]
    exact any_congr_of_mem fun s hs => ih s hs (hm.sound s hs) (linesList_eq_written h s hs)
  | switchArg index cases ih =>
    have hvalues := break_not_mem_value hm.sound (.inl (rfl : '\n' = '\n'))
    obtain ⟨-, -, -, -, hmade⟩ := hm.sound
    rw [anyBroken, any_switchArg rfl (fun _ => isBroken_eq_false_iff.2) hvalues h, breaksLine, breaksLineCases_eq_any]
    refine any_congr_of_mem fun arm ha => ?_
    -- no broken line is dropped where the case is moved right
    have hcase := lines_case_eq_written h arm ha
    exact (anyBroken_indent (solid_lines (hmade arm ha) hcase)).trans (ih arm ha (hmade arm ha) hcase)

theorem breaks_lines (hm : s.Made) (h : s.lines family = .ok ls) : Breaks (s.breaksLine family) ls :=
  ⟨anyBroken_lines hm h, solid_lines hm h⟩

/-! ## Cutting the written text at line feeds -/

/-- What stands between a line and its line feed. -/
def beforeLineFeed (family : Family) : List Char :=
  match family with
  | .unix => []
  | .windows => ['\r']

theorem pieces_append_cons {separator : Char} {a : List Char} (h : separator ∉ a) (b : List Char) :
    Text.pieces separator (a ++ separator :: b) = a :: Text.pieces separator b := by
  rw [Text.pieces_append h, Text.pieces, if_pos rfl, List.modifyHead_cons, List.append_nil]

theorem toList_join_cons (family : Family) (l : Line) (ls : List Line) :
    (Line.join family (l :: ls)).toList =
      (l.text.toList ++ beforeLineFeed family) ++ '\n' :: (Line.join family ls).toList := by
  cases family <;> simp [Line.join, beforeLineFeed, Family.lineTerminator]

theorem pieces_join (family : Family) (h : ∀ l ∈ ls, '\n' ∉ l.text.toList) :
    Text.pieces '\n' (Line.join family ls).toList
      = ls.map (fun l => l.text.toList ++ beforeLineFeed family) ++ [[]] := by
  induction ls with
  | nil => rfl
  | cons l ls ih =>
    have hl : '\n' ∉ l.text.toList ++ beforeLineFeed family := by
      rw [List.mem_append]
      rintro (hm | hm)
      · exact h l List.mem_cons_self hm
      · cases family <;> revert hm <;> decide
    rw [toList_join_cons, pieces_append_cons hl, ih fun l' hl' => h l' (List.mem_cons_of_mem _ hl')]
    rfl

/-- Each line of a built statement is one physical line exactly when no token for a line feed stands
in one: in a path that is written, in an argument of a call or in an exit code. Only then does the text,
cut at its line feeds, fall into one piece for each line. -/
theorem one_piece_per_line_iff (hm : s.Made) (h : s.lines family = .ok ls) :
    ((∀ l ∈ ls, '\n' ∉ l.text.toList) ↔ s.breaksLine family = false) ∧
      (Text.pieces '\n' (Line.join family ls).toList
          = ls.map (fun l => l.text.toList ++ beforeLineFeed family) ++ [[]] ↔
        s.breaksLine family = false) := by
  have hlines : (∀ l ∈ ls, '\n' ∉ l.text.toList) ↔ s.breaksLine family = false := by
    rw [← anyBroken_eq_false_iff, (breaks_lines hm h).1]
  refine ⟨hlines, ?_⟩
  rw [← hlines]
  refine ⟨fun hpieces l hl hbroken => ?_, pieces_join family⟩
  -- a piece holds no line feed, and each line is part of one
  have hpiece : l.text.toList ++ beforeLineFeed family ∈ Text.pieces '\n' (Line.join family ls).toList := by
    rw [hpieces]
    exact List.mem_append_left _ (List.mem_map_of_mem hl)
  exact Text.not_mem_of_mem_pieces hpiece (List.mem_append_left _ hbroken)

/-- A call and an exit code without tokens keep to their lines. -/
theorem one_piece_per_line_of_plain :
    Text.pieces '\n' (Line.join .windows [.code "call :start now", .code "exit /b 7"]).toList
      = ["call :start now\r".toList, "exit /b 7\r".toList, []] :=
  have hcall : makeCall "start" ["now"] = .ok (call "start" ["now"]) := by decide
  have hmade : Made (.list [call "start" ["now"], leaveWith 7]) := Made.list fun s hs => by
    simp only [List.mem_cons, List.not_mem_nil, or_false] at hs
    rcases hs with rfl | rfl
    · exact Made.call hcall
    · exact Made.leaveWith 7
  have hlines : (list [call "start" ["now"], leaveWith 7]).lines .windows
      = .ok [.code "call :start now", .code "exit /b 7"] := by decide
  (one_piece_per_line_iff hmade hlines).2.2 (by decide)

/-- An exit code passes its test with the token for a line feed in it, and then is written as two lines. -/
theorem leave_breaks_its_line :
    ¬ ∀ (s : Statement) (family : Family) (ls : List Line), s.Made → s.lines family = .ok ls →
      ∀ l ∈ ls, '\n' ∉ l.text.toList := by
  intro h
  have hleave : makeLeave "0\x7blf\x7decho x" = .ok (.leave "0\x7blf\x7decho x") := by decide
  exact h _ .unix [.code "return 0\necho x"] (Made.leave hleave) (by decide) _ List.mem_cons_self (by decide)

end Statement
end Scriptwright
