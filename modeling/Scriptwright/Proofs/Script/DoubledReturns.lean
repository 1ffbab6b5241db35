/-
Which shell scripts hold a line end of a batch file. Where a text is cut into
lines, one carriage return in front of each line feed goes with it, and only
one: a second one stays at the end of its line, and the line feed written there
makes it a whole line end. So the texts of an `interpret`, of a comment and of a
payload carry line ends over where returns are doubled (`writesReturn`), and
nothing else does (`line_end_iff`).
-/
import Scriptwright.Proofs.Script.ForeignSigns
import Scriptwright.Proofs.Statement.LineFeeds

namespace Scriptwright

namespace Text

/-- Whether a carriage return stands at the end of a text. -/
def endsInReturn (text : String) : Bool :=
  text.toList.getLast? == some '\r'

theorem endsInReturn_eq_true_iff {text : String} : endsInReturn text = true ↔ text.toList.getLast? = some '\r' := by
  simp [endsInReturn]

theorem mem_of_endsInReturn {text : String} (h : endsInReturn text = true) : '\r' ∈ text.toList :=
  List.mem_of_getLast? (endsInReturn_eq_true_iff.1 h)

theorem endsInReturn_append {a b : String} (hb : b ≠ "") : endsInReturn (a ++ b) = endsInReturn b := by
  have hne : b.toList ≠ [] := by simpa using hb
  rw [endsInReturn, String.toList_append, List.getLast?_append_of_ne_nil _ hne, endsInReturn]

/-- Two characters, one after the other, around the place where texts are joined by the second. -/
theorem pair_infix_append_cons {x y : Char} (hxy : x ≠ y) (a b : List Char) :
    [x, y] <:+: a ++ y :: b ↔ [x, y] <:+: a ∨ a.getLast? = some x ∨ [x, y] <:+: b := by
  induction a with
  | nil => simp [List.infix_cons_iff, hxy]
  | cons c a ih =>
    rw [List.cons_append, List.infix_cons_iff, ih, List.infix_cons_iff]
    cases a with
    | nil => simp [eq_comm (a := x)]
    | cons d a => simp [or_assoc]

end Text

namespace Line

variable {l : Line} {ls : List Line} {b : Bool}

/-- Whether a line ends in a carriage return and is written, which in a block a blank line of code is not. -/
def carriesReturn (inBlock : Bool) (l : Line) : Bool :=
  Text.endsInReturn l.text && (!inBlock || (indent? l).isSome)

theorem carriesReturn_literal (inBlock : Bool) (text : String) :
    carriesReturn inBlock (literal text) = Text.endsInReturn text := by
  simp [carriesReturn, indent?, Line.text]

theorem carriesReturn_code (inBlock : Bool) (text : String) :
    carriesReturn inBlock (code text) = (Text.endsInReturn text && !(inBlock && Text.isBlank text)) := by
  cases inBlock <;> cases hblank : Text.isBlank text <;> simp [carriesReturn, indent?, Line.text, hblank]

/-- Whether one of some lines does. -/
def anyReturn (inBlock : Bool) (ls : List Line) : Bool :=
  ls.any (carriesReturn inBlock)

theorem anyReturn_append (a b : List Line) (inBlock : Bool) :
    anyReturn inBlock (a ++ b) = (anyReturn inBlock a || anyReturn inBlock b) :=
  List.any_append

theorem carriesReturn_eq_false_of_not_mem (h : '\r' ∉ l.text.toList) : carriesReturn b l = false := by
  rw [← Bool.not_eq_true, carriesReturn, Bool.and_eq_true]
  intro hr
  exact h (Text.mem_of_endsInReturn hr.1)

theorem anyReturn_eq_false_of_lacks (h : Lacks '\r' ls) : anyReturn b ls = false := by
  rw [anyReturn, List.any_eq_false]
  intro l hl
  rw [carriesReturn_eq_false_of_not_mem (h l hl)]
  exact Bool.false_ne_true

/-- What is in a block already stays there however often it is moved. -/
theorem carriesReturn_indent {l' : Line} (h : indent? l = some l') : carriesReturn b l' = carriesReturn true l := by
  cases l with
  | literal text => cases h; rw [carriesReturn_literal, carriesReturn_literal]
  | code text =>
    simp only [indent?] at h
    split at h
    · cases h
    · next hblank =>
      cases h
      have hne : text ≠ "" := by
        rintro rfl
        exact hblank rfl
      have hindented : Text.isBlank (step ++ text) = false := by simp [Text.isBlank_append, hblank]
      rw [carriesReturn_code, carriesReturn_code, hindented, Text.endsInReturn_append hne]
      simp [hblank]

theorem anyReturn_indent : anyReturn b (indent ls) = anyReturn true ls := by
  induction ls with
  | nil => rfl
  | cons l ls ih =>
    rw [anyReturn, indent, List.filterMap_cons, anyReturn, List.any_cons]
    cases hi : indent? l with
    | none =>
      have hl : carriesReturn true l = false := by simp [carriesReturn, hi]
      rw [hl, Bool.false_or]
      exact ih
    | some l' =>
      rw [List.any_cons, carriesReturn_indent hi]
      exact congrArg _ ih

/-- No line holds both characters of a line end. -/
def Parted (ls : List Line) : Prop :=
  ∀ l ∈ ls, '\r' ∉ l.text.toList ∨ '\n' ∉ l.text.toList

theorem keeps_parted : Family.unix.Keeps '\r' fun text => '\r' ∉ text.toList ∨ '\n' ∉ text.toList where
  foreign := rfl
  step _ h := h.imp (not_mem_append (by decide)) (not_mem_append (by decide))
  plain _ h := .inl h

/-- Lines of a shell script make a line end of a batch file where one of them ends in a carriage return. -/
theorem line_end_infix_join (h : Parted ls) :
    ['\r', '\n'] <:+: (join .unix ls).toList ↔ anyReturn false ls = true := by
  induction ls with
  | nil => simp [join, anyReturn]
  | cons l ls ih =>
    have hown : ¬ ['\r', '\n'] <:+: l.text.toList := by
      intro hin
      rcases h l List.mem_cons_self with hl | hl
      · exact hl (hin.mem (by simp))
      · exact hl (hin.mem (by simp))
    have hjoin : (join .unix (l :: ls)).toList = l.text.toList ++ '\n' :: (join .unix ls).toList := by
      simp [join, Family.lineTerminator]
    rw [hjoin, Text.pair_infix_append_cons (by decide), ih fun l' hl' => h l' (List.mem_cons_of_mem _ hl')]
    simp [hown, anyReturn, carriesReturn, Text.endsInReturn]

end Line

open Line

namespace Statement

mutual

/-- Whether a statement writes a line that ends in a carriage return into a shell script: one of its texts has a return
left at the end of a line once the break is taken off. In a block, where blank lines are dropped, the line must not be
blank. -/
def writesReturn (inBlock : Bool) : Statement → Bool
  | interpret text =>
    (Text.lines (Token.expand .unix text)).any fun line => Text.endsInReturn line && !(inBlock && Text.isBlank line)
  | comment text => (Text.lines (Token.expand .unix text)).any Text.endsInReturn
  | appendFile _ payload => (payloadLines .unix payload).any Text.endsInReturn
  | list body => writesReturnList inBlock body
  | switchArg _ cases => writesReturnCases cases
  | exec .. | exportVar .. | call .. | leave _ => false
  termination_by structural s => s

/-- Whether one of some statements does. -/
def writesReturnList (inBlock : Bool) : List Statement → Bool
  | [] => false
  | s :: ss => s.writesReturn inBlock || writesReturnList inBlock ss
  termination_by structural ss => ss

/-- Whether the statement of one of some cases does. -/
def writesReturnCases : List (String × Statement) → Bool
  | [] => false
  | (_, s) :: cs => s.writesReturn true || writesReturnCases cs
  termination_by structural cs => cs

end

theorem writesReturnList_eq_any (inBlock : Bool) (body : List Statement) :
    writesReturnList inBlock body = body.any (writesReturn inBlock) := by
  induction body with
  | nil => rfl
  | cons s ss ih => rw [writesReturnList, ih, List.any_cons]

theorem writesReturnCases_eq_any (cases : List (String × Statement)) :
    writesReturnCases cases = cases.any fun c => c.2.writesReturn true := by
  induction cases with
  | nil => rfl
  | cons c cs ih => rw [writesReturnCases, ih, List.any_cons]

variable {s : Statement} {ls : List Line}

/-- What is shown of the lines of each statement: no line has both characters of a line end, and which end in a return,
in a block or not. -/
def Returns (s : Statement) (ls : List Line) : Prop :=
  Parted ls ∧ ∀ inBlock, anyReturn inBlock ls = s.writesReturn inBlock

theorem Returns.of_lacks (h : Lacks '\r' ls) (hs : ∀ inBlock, s.writesReturn inBlock = false) : s.Returns ls :=
  ⟨fun l hl => .inl (h l hl), fun inBlock => by rw [anyReturn_eq_false_of_lacks h, hs inBlock]⟩

theorem parted_of_anyBroken (h : anyBroken ls = false) : Parted ls :=
  fun l hl => .inr (anyBroken_eq_false_iff.1 h l hl)

theorem returns_interpret (text : String) : (interpret text).Returns (interpretLines .unix text) := by
  refine ⟨parted_of_anyBroken (anyBroken_interpretLines .unix text), fun inBlock => ?_⟩
  rw [writesReturn]
  simp only [interpretLines]
  split
  · next hempty =>
    have hnil : Token.expand .unix text = "" := by simpa using hempty
    rw [hnil]
    cases inBlock <;> decide
  · rw [anyReturn, List.any_map]
    exact congrArg _ (funext fun line => carriesReturn_code inBlock line)

theorem returns_comment (text : String) : (comment text).Returns (commentLines .unix text) := by
  refine ⟨parted_of_anyBroken (anyBroken_commentLines .unix text), fun inBlock => ?_⟩
  have hmarker : Text.isBlank (Family.unix.commentMarker ++ " ") = false := by decide
  rw [writesReturn, commentLines, anyReturn, List.any_map]
  refine congrArg _ (funext fun line => ?_)
  rw [Function.comp_apply, commentLine]
  split
  · next hempty =>
    have hnil : line = "" := by simpa using hempty
    rw [hnil]
    cases inBlock <;> decide
  · next hempty =>
    have hne : line ≠ "" := by simpa using hempty
    have hsolid : Text.isBlank (Family.unix.commentMarker ++ " " ++ line) = false := by
      rw [Text.isBlank_append, hmarker, Bool.false_and]
    rw [carriesReturn_code, hsolid, Bool.and_false, Bool.not_false, Bool.and_true, Text.endsInReturn_append hne]

theorem returns_appendFile {path : String} {payload : List String} (hp : isQuoteUnsafe path = false)
    (h : appendFileLines .unix path payload = .ok ls) : (appendFile path payload).Returns ls := by
  have hc := fromTexts_return
  obtain ⟨-, rfl⟩ := appendFileLines_unix_eq_ok_iff.1 h
  have hpath := (isQuoteUnsafe_eq_false_iff.1 hp).2.2
  have hopener : Lacks '\r' [code ("cat >> " ++ Token.expand .unix (Shell.argument path) ++ " <<\x27" ++ hereDelimiter
      ++ "\x27")] := by
    have hcat : '\r' ∉ "cat >> ".toList := by decide
    have hopen : '\r' ∉ " <<\x27".toList := by decide
    have hword : '\r' ∉ hereDelimiter.toList := by decide
    have hclose : '\r' ∉ "\x27".toList := by decide
    have hargument := hc.not_mem_expand (foreign_not_mem_shellArgument hc.foreign hpath)
    have hquoted := not_mem_append (not_mem_append hcat hargument) hopen
    exact .singleton (not_mem_append (not_mem_append hquoted hword) hclose)
  have hlast : Lacks '\r' [literal hereDelimiter] := .singleton (by decide)
  constructor
  · intro l hl
    rw [Shell.hereDocument, List.cons_append, List.mem_cons] at hl
    rcases hl with rfl | hl
    · exact .inl (hopener _ List.mem_cons_self)
    · exact .inr (anyBroken_eq_false_iff.1 (anyBroken_literals payload) l hl)
  · intro inBlock
    have hfirst : anyReturn inBlock _ = false := anyReturn_eq_false_of_lacks hopener
    have hend : anyReturn inBlock _ = false := anyReturn_eq_false_of_lacks hlast
    have hpayload : anyReturn inBlock ((payloadLines .unix payload).map literal)
        = (payloadLines .unix payload).any Text.endsInReturn := by
      rw [anyReturn, List.any_map]
      exact congrArg _ (funext fun line => carriesReturn_literal inBlock line)
    rw [writesReturn, ← hpayload, Shell.hereDocument, ← List.singleton_append, anyReturn_append, anyReturn_append,
      hfirst, hend, Bool.false_or, Bool.or_false]

theorem returns_leaf (hs : s.Sound) (hleaf : s.isLeaf = true) (h : s.lines .unix = .ok ls) : s.Returns ls := by
  have lacks : (∀ text ∈ s.ownTexts, '\r' ∉ text.toList) → Lacks '\r' ls := fun ht =>
    lacks_leaf hs hleaf fromTexts_return ht h
  cases s with
  | interpret text =>
    rw [lines, Except.ok.injEq] at h
    exact h ▸ returns_interpret text
  | comment text =>
    rw [lines, Except.ok.injEq] at h
    exact h ▸ returns_comment text
  | appendFile path payload =>
    rw [lines] at h
    exact returns_appendFile hs.2.1 h
  | exec command replacing =>
    rw [lines] at h
    obtain ⟨hbreak, -, -, rfl⟩ := execLines_eq_ok_iff.1 h
    have hplain := (Text.hasBreak_eq_false_iff.1 hbreak).2
    refine .of_lacks (.singleton ?_) fun _ => rfl
    cases replacing with
    | false => exact hplain
    | true => exact not_mem_append (by decide) hplain
  | exportVar name value =>
    refine .of_lacks (lacks fun text ht => ?_) fun _ => rfl
    rw [List.mem_singleton.1 ht]
    exact (Text.hasBreak_eq_false_iff.1 hs.2).2
  | call function args =>
    exact .of_lacks (lacks fun arg ha => (Text.hasBreak_eq_false_iff.1 (hs.2 arg ha)).2) fun _ => rfl
  | leave leaving =>
    refine .of_lacks (lacks fun text ht => ?_) fun _ => rfl
    rw [List.mem_singleton.1 ht]
    exact (Text.hasBreak_eq_false_iff.1 hs.2).2
  | list | switchArg => cases hleaf

theorem parted_lines (hm : s.Made) (h : s.lines .unix = .ok ls) : Parted ls :=
  forall_lines keeps_parted hm (fun _ _ hleaf hs _ h => (returns_leaf hs hleaf h).1)
    (fun _ _ _ hs => break_not_mem_value hs (.inr rfl)) h

theorem anyReturn_lines (hm : s.Made) (h : s.lines .unix = .ok ls) (inBlock : Bool) :
    anyReturn inBlock ls = s.writesReturn inBlock := by
  induction s using Statement.induction generalizing ls inBlock with
  | leaf s hleaf => exact (returns_leaf hm.sound hleaf h).2 inBlock
  | list body ih =>
    rw [lines] at h
    rw [anyReturn, any_linesList h, writesReturn, writesReturnList_eq_any]
    exact any_congr_of_mem fun s hs => ih s hs (hm.sound s hs) (linesList_eq_written h s hs) inBlock
  | switchArg index cases ih =>
    have hvalues := break_not_mem_value hm.sound (.inr (rfl : '\r' = '\r'))
    obtain ⟨-, -, -, -, hmade⟩ := hm.sound
    rw [anyReturn, any_switchArg rfl (fun _ => carriesReturn_eq_false_of_not_mem) hvalues h, writesReturn,
      writesReturnCases_eq_any]
    exact any_congr_of_mem fun arm ha =>
      anyReturn_indent.trans (ih arm ha (hmade arm ha) (lines_case_eq_written h arm ha) true)

theorem returns_lines (hm : s.Made) (h : s.lines .unix = .ok ls) : s.Returns ls :=
  ⟨parted_lines hm h, anyReturn_lines hm h⟩

end Statement

/-! ## Scripts -/

namespace Script

variable {script : Script} {ls : List Line}

/-- Whether a function's body or a statement of a script writes a line that ends in a carriage return. -/
def writesReturn (script : Script) : Bool :=
  script.functions.any (fun f => f.2.writesReturn true) || script.statements.any (Statement.writesReturn false)

theorem lacks_exportStatement (he : script.Exporting) {e : String × String} (hmem : e ∈ script.exports) :
    Lacks '\r' ((exportStatement e).written .unix) := by
  refine Statement.lacks_written (made_exportStatement he hmem) fromTexts_return fun text ht => ?_
  rw [List.mem_singleton.1 ht]
  exact (Text.hasBreak_eq_false_iff.1 (he e hmem).2).2

theorem returns_lines (hv : script.Valid) (he : script.Exporting) (h : script.lines .unix = .ok ls) :
    Parted ls ∧ anyReturn false ls = script.writesReturn := by
  obtain ⟨hfunctions, hstatements⟩ := lines_eq_written h
  have hbodies : ∀ f ∈ script.functions, f.2.Returns (f.2.written .unix) := fun f hf =>
    Statement.returns_lines (hv.bodies f hf) (hfunctions f hf)
  have howns : ∀ s ∈ script.statements, s.Returns (s.written .unix) := fun s hs =>
    Statement.returns_lines (hv.statements s hs) (hstatements s hs)
  have hlayout : Lacks '\r' (layout .unix script) := fun l hl =>
    plain_of_mem_layout (fun f hf => (hv.named f hf).1) hl '\r' rfl fun text ht => absurd ht List.not_mem_nil
  constructor
  · exact forall_lines keeps_parted hv (fun f hf => (hbodies f hf).1)
      (fun e hmem l hl => .inl (lacks_exportStatement he hmem l hl)) (fun s hs => (howns s hs).1) h
  · rw [Bool.eq_iff_iff, writesReturn, Bool.or_eq_true, anyReturn, List.any_eq_true, List.any_eq_true, List.any_eq_true]
    constructor
    · rintro ⟨l, hl, hr⟩
      have hlacks : ¬ '\r' ∉ l.text.toList := by
        intro hl
        rw [carriesReturn_eq_false_of_not_mem hl] at hr
        cases hr
      rcases (mem_lines_iff h).1 hl with ⟨f, hf, hl⟩ | ⟨e, hmem, hl⟩ | ⟨s, hs, hl⟩ | hl
      · refine .inl ⟨f, hf, ?_⟩
        rw [← (hbodies f hf).2 true, ← anyReturn_indent (b := false), anyReturn, List.any_eq_true]
        exact ⟨l, hl, hr⟩
      · exact absurd (lacks_exportStatement he hmem l hl) hlacks
      · refine .inr ⟨s, hs, ?_⟩
        rw [← (howns s hs).2 false, anyReturn, List.any_eq_true]
        exact ⟨l, hl, hr⟩
      · exact absurd (hlayout l hl) hlacks
    · rintro (⟨f, hf, hr⟩ | ⟨s, hs, hr⟩)
      · rw [← (hbodies f hf).2 true, ← anyReturn_indent (b := false), anyReturn, List.any_eq_true] at hr
        obtain ⟨l, hl, hr⟩ := hr
        exact ⟨l, (mem_lines_iff h).2 (.inl ⟨f, hf, hl⟩), hr⟩
      · rw [← (howns s hs).2 false, anyReturn, List.any_eq_true] at hr
        obtain ⟨l, hl, hr⟩ := hr
        exact ⟨l, (mem_lines_iff h).2 (.inr (.inr (.inl ⟨s, hs, hl⟩))), hr⟩

/-- Take any built statement, and any script that operations lead to. If it renders for a shell, its text holds the line
end of a batch file exactly where a text of an `interpret`, of a comment or of a payload has a line that still ends in a
carriage return after its break is taken off. -/
theorem line_end_iff {s : Statement} (hm : s.Made) {ops : List Operation} (hops : ∀ op ∈ ops, op.Made) :
    (∀ text, s.render .unix = .ok text → (['\r', '\n'] <:+: text.toList ↔ s.writesReturn false = true)) ∧
      ∀ text, (after ops).render .unix = .ok text →
        (['\r', '\n'] <:+: text.toList ↔ (after ops).writesReturn = true) := by
  constructor
  · intro text h
    obtain ⟨-, ls, hls, rfl⟩ := Statement.render_eq_ok_iff.1 h
    obtain ⟨hparted, hreturns⟩ := Statement.returns_lines hm hls
    rw [line_end_infix_join hparted, hreturns]
  · intro text h
    simp only [render, bind_ok_iff, pure_ok_iff] at h
    obtain ⟨-, -, ls, hls, rfl⟩ := h
    obtain ⟨hparted, hreturns⟩ := returns_lines (valid_after ops hops) (exporting_after ops hops) hls
    rw [line_end_infix_join hparted, hreturns]

/-- A comment keeps the second return of its first line; in a function's body a line of returns alone is dropped. -/
theorem line_end_iff_of_returns :
    let comment := Statement.list [.comment "one\r\r\ntwo\r\n"]
    let body := Statement.interpret "one\r\n \r\r\ntwo"
    let ops := [Operation.defineFunction "report" body, .addStatement (.exec "report" false)]
    (∃ text, comment.render .unix = .ok text ∧ ['\r', '\n'] <:+: text.toList) ∧
      ∃ text, (after ops).render .unix = .ok text ∧ ¬ ['\r', '\n'] <:+: text.toList := by
  intro comment body ops
  have hcomment : comment.Made := by
    refine .list fun s hs => ?_
    rw [List.mem_singleton.1 hs]
    exact .comment _
  have hops : ∀ op ∈ ops, op.Made := by
    simp only [ops, List.mem_cons, List.not_mem_nil, or_false, forall_eq_or_imp, forall_eq]
    exact ⟨Statement.Made.interpret _, Statement.Made.exec _ _⟩
  obtain ⟨text, htext⟩ : ∃ text, comment.render .unix = .ok text := exists_ok_of_isOk (by decide)
  obtain ⟨whole, hwhole⟩ : ∃ text, (after ops).render .unix = .ok text := exists_ok_of_isOk (by decide)
  have hwrites : comment.writesReturn false = true := by decide
  have hnot : ¬ (after ops).writesReturn = true := by decide
  obtain ⟨hown, hscript⟩ := line_end_iff hcomment hops
  exact ⟨⟨text, htext, (hown text htext).2 hwrites⟩, ⟨whole, hwhole, fun h => hnot ((hscript whole hwhole).1 h)⟩⟩

/-- A return too many before a line feed is enough for a shell script to hold the line end of a batch file. -/
theorem doubled_return_leaves_line_end :
    ¬ ((∀ s : Statement, s.Made → ∀ text, s.render .unix = .ok text → ¬ ['\r', '\n'] <:+: text.toList) ∧
      ∀ ops : List Operation, (∀ op ∈ ops, op.Made) → ∀ text, (after ops).render .unix = .ok text →
        ¬ ['\r', '\n'] <:+: text.toList) := by
  intro ⟨h, _⟩
  exact h (.interpret "a\r\r\nb") (.interpret _) "a\r\nb\n" (by decide) (by decide)

end Script
end Scriptwright
