/-
Characters that come into a script from its texts and its tokens only. Line
breaks are such, and so is the sign with which the other family refers to a
variable (`Family.isForeign`): no quoting adds one, and the lines that a switch
has around its cases hold one only where a case value does (`mem_switchLines`).
-/
import Scriptwright.Proofs.Text.Characters
import Scriptwright.Statement.Lines

namespace Scriptwright

namespace Family

/-- The sign with which the other family refers to a variable. -/
def otherSign : Family → Char
  | .unix => '%'
  | .windows => '$'

/-- Whether neither the layout of a family nor its quoting adds a character. -/
def isForeign (family : Family) (c : Char) : Bool :=
  Text.isBreakChar c || c == family.otherSign

end Family

variable {family : Family} {c : Char}

theorem isForeign_otherSign (family : Family) : family.isForeign family.otherSign = true := by
  simp [Family.isForeign]

theorem isForeign_unix_iff : Family.unix.isForeign c = true ↔ c = '\n' ∨ c = '\r' ∨ c = '%' := by
  simp [Family.isForeign, Family.otherSign, Text.isBreakChar, or_assoc]

theorem isForeign_windows_iff : Family.windows.isForeign c = true ↔ c = '\n' ∨ c = '\r' ∨ c = '$' := by
  simp [Family.isForeign, Family.otherSign, Text.isBreakChar, or_assoc]

theorem not_mem_append {a b : String} (ha : c ∉ a.toList) (hb : c ∉ b.toList) : c ∉ (a ++ b).toList := by
  rw [String.toList_append, List.mem_append]
  intro h
  exact h.elim ha hb

/-- A text that holds no foreign character at all does not hold this one. -/
theorem not_mem_of_isForeign (hc : family.isForeign c = true) {text : String}
    (h : text.toList.any family.isForeign = false) : c ∉ text.toList := by
  intro hm
  rw [List.any_eq_false] at h
  exact h c hm hc

theorem isForeign_of_isWordChar (family : Family) (h : Text.isWordChar c = true) : family.isForeign c = false := by
  rw [← Bool.not_eq_true]
  intro hc
  cases family with
  | unix =>
    rcases isForeign_unix_iff.1 hc with rfl | rfl | rfl
    all_goals exact absurd h (by decide)
  | windows =>
    rcases isForeign_windows_iff.1 hc with rfl | rfl | rfl
    all_goals exact absurd h (by decide)

theorem isForeign_of_isDigit (family : Family) (h : c.isDigit = true) : family.isForeign c = false :=
  isForeign_of_isWordChar family (by simp [Text.isWordChar, Char.isAlphanum, h])

theorem foreign_not_mem_identifier (hc : family.isForeign c = true) {name : String}
    (h : isIdentifier name = true) : c ∉ name.toList := by
  intro hm
  rw [isForeign_of_isWordChar family (Text.isWordChar_of_mem_identifier h hm)] at hc
  cases hc

/-! ## Quoting -/

/-- A character that no other is written with does not come up in a text written anew. -/
theorem not_mem_flatMap {f : Char → List Char} (hf : ∀ d, c ∈ f d → d = c) {text : String} (h : c ∉ text.toList) :
    c ∉ (Text.flatMap f text).toList := by
  rw [Text.toList_flatMap, List.mem_flatMap]
  intro ⟨d, hd, hm⟩
  exact h (hf d hm ▸ hd)

/-- What comes up where a character is written as itself or as a word is that character, if it is so in the word. -/
theorem eq_of_mem_written {p : Prop} [Decidable p] {word : List Char} {d : Char} (hword : p → c ∈ word → d = c)
    (h : c ∈ if p then word else [d]) : d = c := by
  split at h
  · next hp => exact hword hp h
  · exact (List.mem_singleton.1 h).symm

theorem eq_of_mem_marked {mark d : Char} (hmark : c ≠ mark) (h : c ∈ [mark, d]) : d = c :=
  (List.mem_singleton.1 ((List.mem_cons.1 h).resolve_left hmark)).symm

theorem foreign_not_mem_shellEscape (hc : Family.unix.isForeign c = true) {text : String} (h : c ∉ text.toList) :
    c ∉ (Shell.escape text).toList := by
  have hne : c ≠ '\\' := by intro he; subst he; exact absurd hc (by decide)
  exact not_mem_flatMap (fun _ => eq_of_mem_written fun _ => eq_of_mem_marked hne) h

theorem foreign_not_mem_shellArgument (hc : Family.unix.isForeign c = true) {text : String} (h : c ∉ text.toList) :
    c ∉ (Shell.argument text).toList := by
  have hquote : c ∉ "\"".toList := not_mem_of_isForeign hc (by decide)
  unfold Shell.argument
  split
  · exact h
  · exact not_mem_append (not_mem_append hquote (foreign_not_mem_shellEscape hc h)) hquote

theorem foreign_not_mem_pattern (hc : Family.unix.isForeign c = true) {text : String} (h : c ∉ text.toList) :
    c ∉ (Shell.pattern text).toList := by
  have hquote : c ∉ "\x27".toList := not_mem_of_isForeign hc (by decide)
  have hfour : c ∉ "\x27\\\x27\x27".toList := not_mem_of_isForeign hc (by decide)
  have hchar : ∀ d, c ∈ Shell.singleQuotedChar d → d = c := fun _ => eq_of_mem_written fun _ hm => absurd hm hfour
  unfold Shell.pattern
  split
  · exact h
  · exact not_mem_append (not_mem_append hquote (not_mem_flatMap hchar h)) hquote

/-- Doubling percent signs brings in no character at all. -/
theorem not_mem_escapePercent {text : String} (h : c ∉ text.toList) : c ∉ (Batch.escapePercent text).toList := by
  refine not_mem_flatMap (fun _ => eq_of_mem_written fun hpercent hm => ?_) h
  rw [hpercent]
  simpa [eq_comm] using hm

theorem foreign_not_mem_escapeEcho (hc : Family.windows.isForeign c = true) {text : String} (h : c ∉ text.toList) :
    c ∉ (Batch.escapeEcho text).toList := by
  have hne : c ≠ '^' := by intro he; subst he; exact absurd hc (by decide)
  exact not_mem_escapePercent (not_mem_flatMap (fun _ => eq_of_mem_written fun _ => eq_of_mem_marked hne) h)

theorem foreign_not_mem_batchArgument (hc : Family.windows.isForeign c = true) {text : String} (h : c ∉ text.toList) :
    c ∉ (Batch.argument text).toList := by
  have hquote : c ∉ "\"".toList := not_mem_of_isForeign hc (by decide)
  have hchar : ∀ d, c ∈ Batch.doubleQuoteChar d → d = c := fun _ => eq_of_mem_written fun hdouble hm => by
    rw [hdouble]
    simpa [eq_comm] using hm
  unfold Batch.argument
  split
  · exact not_mem_append (not_mem_append hquote (not_mem_flatMap hchar h)) hquote
  · exact h

theorem foreign_not_mem_callArgument (hc : family.isForeign c = true) {text : String} (h : c ∉ text.toList) :
    c ∉ (callArgument family text).toList := by
  cases family with
  | unix => exact foreign_not_mem_shellArgument hc h
  | windows => exact foreign_not_mem_batchArgument hc h

theorem foreign_not_mem_labelOf (hc : family.isForeign c = true) (text : String) : c ∉ (labelOf text).toList := by
  intro hm
  rw [isForeign_of_isWordChar family (Text.isWordChar_of_mem_labelOf hm)] at hc
  cases hc

theorem mem_intercalate {separator : String} {texts : List String} (h : c ∈ (separator.intercalate texts).toList) :
    c ∈ separator.toList ∨ ∃ text ∈ texts, c ∈ text.toList := by
  induction texts with
  | nil => simp at h
  | cons text texts ih =>
    cases texts with
    | nil => exact .inr ⟨text, List.mem_cons_self, by simpa using h⟩
    | cons other texts =>
      rw [String.intercalate_cons_cons, String.toList_append, String.toList_append, List.mem_append,
        List.mem_append] at h
      rcases h with (h | h) | h
      · exact .inr ⟨text, List.mem_cons_self, h⟩
      · exact .inl h
      · rcases ih h with h | ⟨t, ht, hc⟩
        · exact .inl h
        · exact .inr ⟨t, List.mem_cons_of_mem _ ht, hc⟩

/-! ## Calls and exports -/

/-- The word that starts a call. -/
def callStart (family : Family) (function : String) : String :=
  match family with
  | .unix => function
  | .windows => "call :" ++ function

theorem toList_callTemplate (family : Family) (function : String) (args : List String) :
    (callTemplate family function args).toList =
      (callStart family function).toList ++ args.flatMap fun arg => ' ' :: (callArgument family arg).toList := by
  cases family <;> simp [callTemplate, callStart, List.flatMap_map]

theorem foreign_not_mem_callTemplate (hc : family.isForeign c = true) {function : String} {args : List String}
    (hf : isIdentifier function = true) (ha : ∀ arg ∈ args, c ∉ arg.toList) :
    c ∉ (callTemplate family function args).toList := by
  have hname := foreign_not_mem_identifier hc hf
  have hstart : c ∉ (callStart family function).toList := by
    cases family with
    | unix => exact hname
    | windows =>
      have hcall : c ∉ "call :".toList := not_mem_of_isForeign hc (by decide)
      exact not_mem_append hcall hname
  rw [toList_callTemplate, List.mem_append, List.mem_flatMap, not_or]
  refine ⟨hstart, ?_⟩
  intro ⟨arg, harg, hm⟩
  rcases List.mem_cons.1 hm with hm | hm
  · subst hm
    cases family <;> exact absurd hc (by decide)
  · exact foreign_not_mem_callArgument hc (ha arg harg) hm

theorem foreign_not_mem_exportTemplate (hc : family.isForeign c = true) {name value : String}
    (hn : isIdentifier name = true) (hv : c ∉ value.toList) : c ∉ (exportTemplate family name value).toList := by
  have hname := foreign_not_mem_identifier hc hn
  cases family with
  | unix =>
    have hexport : c ∉ "export ".toList := not_mem_of_isForeign hc (by decide)
    have hopen : c ∉ "=\"".toList := not_mem_of_isForeign hc (by decide)
    have hclose : c ∉ "\"".toList := not_mem_of_isForeign hc (by decide)
    have hstart := not_mem_append (not_mem_append hexport hname) hopen
    exact not_mem_append (not_mem_append hstart (foreign_not_mem_shellEscape hc hv)) hclose
  | windows =>
    have hset : c ∉ "set ".toList := not_mem_of_isForeign hc (by decide)
    have hequals : c ∉ "=".toList := not_mem_of_isForeign hc (by decide)
    have hstart := not_mem_append (not_mem_append hset hname) hequals
    exact not_mem_append hstart (foreign_not_mem_escapeEcho hc hv)

/-! ## Switches -/

theorem foreign_not_mem_argumentRef (hc : family.isForeign c = true) {index : Nat} {argument : String}
    (h : family.argumentRef? index = some argument) : c ∉ argument.toList := by
  have hn : c ∉ (toString index).toList := by
    intro hm
    rw [isForeign_of_isDigit family (Text.isDigit_of_mem_repr hm)] at hc
    cases hc
  cases family with
  | unix =>
    have hdollar : c ∉ "$".toList := not_mem_of_isForeign hc (by decide)
    have hopen : c ∉ "$\x7b".toList := not_mem_of_isForeign hc (by decide)
    have hclose : c ∉ "\x7d".toList := not_mem_of_isForeign hc (by decide)
    simp only [Family.argumentRef?] at h
    split at h
    · cases h
      exact not_mem_append hdollar hn
    · cases h
      exact not_mem_append (not_mem_append hopen hn) hclose
  | windows =>
    have hpercent : c ∉ "%".toList := not_mem_of_isForeign hc (by decide)
    simp only [Family.argumentRef?] at h
    split at h
    · cases h
      exact not_mem_append hpercent hn
    · cases h

/-- A line that holds no foreign character but those of some texts. -/
def Line.Plain (family : Family) (texts : List String) (l : Line) : Prop :=
  ∀ c, family.isForeign c = true → (∀ text ∈ texts, c ∉ text.toList) → c ∉ l.text.toList

namespace Line

variable {texts more : List String} {l : Line}

theorem Plain.of_any {text : String} (h : text.toList.any family.isForeign = false) (texts : List String) :
    Plain family texts (.code text) :=
  fun _ hc _ => not_mem_of_isForeign hc h

theorem Plain.mono (h : Plain family texts l) (hsub : ∀ text ∈ texts, text ∈ more) : Plain family more l :=
  fun c hc hmore => h c hc fun text ht => hmore text (hsub text ht)

end Line

open Line

namespace Shell

theorem mem_arm {value : String} {body : List Line} {l : Line} (h : l ∈ arm value body) :
    l ∈ indent body ∨ Plain .unix [value] l := by
  simp only [arm, List.cons_append, List.mem_cons, List.mem_append, List.not_mem_nil, or_false] at h
  rcases h with rfl | h | rfl
  · right
    intro c hc hv
    have hparen : c ∉ ")".toList := not_mem_of_isForeign hc (by decide)
    have hpattern := foreign_not_mem_pattern hc (hv value List.mem_cons_self)
    exact not_mem_append hpattern hparen
  · exact .inl h
  · exact .inr (.of_any (by decide) _)

theorem mem_caseBlock {argument : String} {cases : List (String × List Line)} {l : Line}
    (h : l ∈ caseBlock argument cases) :
    (∃ w ∈ cases, l ∈ indent w.2) ∨ Plain .unix (argument :: cases.map Prod.fst) l := by
  simp only [caseBlock, List.cons_append, List.mem_cons, List.mem_append, List.mem_flatMap, List.not_mem_nil,
    or_false] at h
  rcases h with rfl | ⟨w, hw, h⟩ | rfl
  · right
    intro c hc hv
    have hcase : c ∉ "case ".toList := not_mem_of_isForeign hc (by decide)
    have hin : c ∉ " in".toList := not_mem_of_isForeign hc (by decide)
    have hargument := hv argument List.mem_cons_self
    exact not_mem_append (not_mem_append hcase hargument) hin
  · rcases mem_arm h with h | h
    · exact .inl ⟨w, hw, h⟩
    · refine .inr (h.mono fun text ht => ?_)
      rw [List.mem_singleton.1 ht]
      exact List.mem_cons_of_mem _ (List.mem_map_of_mem hw)
  · exact .inr (.of_any (by decide) _)

end Shell

namespace Batch

variable {argument value : String} {values : List String} {l : Line}

theorem foreign_not_mem_comparison (hc : Family.windows.isForeign c = true) (ha : c ∉ argument.toList)
    (hv : c ∉ value.toList) : c ∉ (comparison argument value).toList := by
  have hquote : c ∉ "\"".toList := not_mem_of_isForeign hc (by decide)
  have hequals : c ∉ "\" == \"".toList := not_mem_of_isForeign hc (by decide)
  have hleft := not_mem_append (not_mem_append hquote ha) hequals
  exact not_mem_append (not_mem_append hleft (not_mem_escapePercent hv)) hquote

theorem plain_guard (h : l ∈ guard argument values) : Plain .windows (argument :: values) l := by
  intro c hc ht
  have ha := ht argument List.mem_cons_self
  have hv : ∀ value ∈ values, c ∉ value.toList := fun value h => ht value (List.mem_cons_of_mem _ h)
  simp only [guard, List.mem_cons, List.not_mem_nil, or_false] at h
  rcases h with rfl | rfl | rfl | rfl
  · have hif : c ∉ "if not ".toList := not_mem_of_isForeign hc (by decide)
    have hspace : c ∉ " ".toList := not_mem_of_isForeign hc (by decide)
    have hparen : c ∉ "(".toList := not_mem_of_isForeign hc (by decide)
    have htests : c ∉ (String.join (values.map fun value => "if not " ++ comparison argument value ++ " ")).toList := by
      rw [String.toList_join, List.mem_flatMap]
      intro ⟨test, htest, hm⟩
      obtain ⟨value, hvalue, rfl⟩ := List.mem_map.1 htest
      have hcomparison := foreign_not_mem_comparison hc ha (hv value hvalue)
      exact not_mem_append (not_mem_append hif hcomparison) hspace hm
    exact not_mem_append htests hparen
  · have hset : c ∉ (step ++ "set " ++ exceptionVariable ++ "=bad argument: ").toList :=
      not_mem_of_isForeign hc (by decide)
    have hnot : c ∉ " not in ".toList := not_mem_of_isForeign hc (by decide)
    have hlist : c ∉ (" ".intercalate (values.map escapeEcho)).toList := by
      intro hm
      rcases mem_intercalate hm with hm | ⟨text, htext, hm⟩
      · exact not_mem_of_isForeign hc (by decide) hm
      · obtain ⟨value, hvalue, rfl⟩ := List.mem_map.1 htext
        exact foreign_not_mem_escapeEcho hc (hv value hvalue) hm
    exact not_mem_append (not_mem_append (not_mem_append hset ha) hnot) hlist
  · exact not_mem_of_isForeign hc (by decide)
  · exact not_mem_of_isForeign hc (by decide)

theorem plain_dispatch (h : l ∈ dispatch argument values) : Plain .windows (argument :: values) l := by
  intro c hc ht
  have ha := ht argument List.mem_cons_self
  unfold dispatch at h
  split at h
  · rw [List.mem_singleton.1 h]
    have hgoto : c ∉ ("goto " ++ caseLabelStart).toList := not_mem_of_isForeign hc (by decide)
    exact not_mem_append hgoto ha
  · obtain ⟨value, hvalue, rfl⟩ := List.mem_map.1 h
    have hif : c ∉ "if ".toList := not_mem_of_isForeign hc (by decide)
    have hgoto : c ∉ " goto ".toList := not_mem_of_isForeign hc (by decide)
    have hstart : c ∉ caseLabelStart.toList := not_mem_of_isForeign hc (by decide)
    have hvalue := foreign_not_mem_comparison hc ha (ht value (List.mem_cons_of_mem _ hvalue))
    have hlabel : c ∉ (caseLabel value).toList := not_mem_append hstart (foreign_not_mem_labelOf hc value)
    exact not_mem_append (not_mem_append (not_mem_append hif hvalue) hgoto) hlabel

theorem mem_caseBlock {body : List Line} (h : l ∈ caseBlock value body) : l ∈ indent body ∨ Plain .windows [] l := by
  simp only [caseBlock, List.cons_append, List.mem_cons, List.mem_append, List.not_mem_nil, or_false] at h
  rcases h with rfl | h | rfl
  · right
    intro c hc _
    have hcolon : c ∉ ":".toList := not_mem_of_isForeign hc (by decide)
    have hstart : c ∉ caseLabelStart.toList := not_mem_of_isForeign hc (by decide)
    exact not_mem_append hcolon (not_mem_append hstart (foreign_not_mem_labelOf hc value))
  · exact .inl h
  · exact .inr (.of_any (by decide) _)

theorem mem_switch {cases : List (String × List Line)} (h : l ∈ switch argument cases) :
    (∃ w ∈ cases, l ∈ indent w.2) ∨ Plain .windows (argument :: cases.map Prod.fst) l := by
  simp only [switch, List.mem_append, List.mem_flatMap, List.mem_singleton] at h
  rcases h with ((h | h) | ⟨w, hw, h⟩) | rfl
  · exact .inr (plain_guard h)
  · exact .inr (plain_dispatch h)
  · rcases mem_caseBlock h with h | h
    · exact .inl ⟨w, hw, h⟩
    · exact .inr (h.mono fun text ht => absurd ht List.not_mem_nil)
  · exact .inr (.of_any (by decide) _)

end Batch

/-- A line of a switch is one of a case, moved right, or one of the layout, which holds no foreign character but
those of the argument and the case values. -/
theorem mem_switchLines {argument : String} {written : List (String × List Line)} {l : Line}
    (h : l ∈ switchLines family argument written) :
    (∃ w ∈ written, l ∈ indent w.2) ∨ Plain family (argument :: written.map Prod.fst) l := by
  cases family with
  | unix => exact Shell.mem_caseBlock h
  | windows => exact Batch.mem_switch h

/-- Every line of a case, moved right, is one of the switch. -/
theorem mem_switchLines_of_mem {argument : String} {written : List (String × List Line)} {w : String × List Line}
    {l : Line} (hw : w ∈ written) (hl : l ∈ indent w.2) : l ∈ switchLines family argument written := by
  cases family with
  | unix =>
    have harm : l ∈ Shell.arm w.1 w.2 := by simp [Shell.arm, hl]
    have harms : l ∈ written.flatMap fun w => Shell.arm w.1 w.2 := List.mem_flatMap.2 ⟨w, hw, harm⟩
    simp only [switchLines, Shell.caseBlock, List.cons_append, List.mem_cons, List.mem_append]
    exact .inr (.inl harms)
  | windows =>
    have hblock : l ∈ Batch.caseBlock w.1 w.2 := by simp [Batch.caseBlock, hl]
    have hblocks : l ∈ written.flatMap fun w => Batch.caseBlock w.1 w.2 := List.mem_flatMap.2 ⟨w, hw, hblock⟩
    simp only [switchLines, Batch.switch, List.mem_append]
    exact .inl (.inr hblocks)

end Scriptwright
