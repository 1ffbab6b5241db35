/-
Where the here-documents of a shell script begin and end. Nothing else is
written in literal lines, so each longest run of them is to be one here-document:
that of one statement that appends to a file, opened by the line of code before
the run, with the payload as it always is and the line that ends it at the end
and nowhere else. That holds of every tree and every script
(`Script.here_documents_end`).
-/
import Scriptwright.Proofs.Statement.Nodes
import Scriptwright.Proofs.Statement.Parts
import Scriptwright.Script.Render

namespace Scriptwright

/-! ## Runs of literal lines -/

namespace Line

/-- The texts of the literal lines that some lines start with. -/
def leading : List Line → List String
  | literal text :: ls => text :: leading ls
  | _ => []

/-- Every longest run of literal lines that comes after a line of code, with the text of that line. -/
def runs : List Line → List (String × List String)
  | [] => []
  | literal _ :: ls => runs ls
  | code text :: ls => if leading ls = [] then runs ls else (text, leading ls) :: runs ls

variable {a b ls after : List Line}

theorem leading_append (h : leading b = []) : leading (a ++ b) = leading a := by
  induction a with
  | nil => exact h
  | cons l a ih =>
    cases l with
    | code text => rfl
    | literal text => rw [List.cons_append, leading, leading, ih]

theorem runs_append (h : leading b = []) : runs (a ++ b) = runs a ++ runs b := by
  induction a with
  | nil => rfl
  | cons l a ih =>
    cases l with
    | literal text => exact ih
    | code text =>
      rw [List.cons_append, runs, runs, leading_append h, ih]
      split <;> rfl

theorem leading_map_literal_append (texts : List String) (after : List Line) :
    leading (texts.map literal ++ after) = texts ++ leading after := by
  induction texts with
  | nil => rfl
  | cons text texts ih => rw [List.map_cons, List.cons_append, leading, ih, List.cons_append]

theorem runs_map_literal_append (texts : List String) (after : List Line) :
    runs (texts.map literal ++ after) = runs after := by
  induction texts with
  | nil => rfl
  | cons text texts ih => exact ih

theorem exists_eq_leading_append (ls : List Line) :
    ∃ after, ls = (leading ls).map literal ++ after ∧ leading after = [] := by
  induction ls with
  | nil => exact ⟨[], rfl, rfl⟩
  | cons l ls ih =>
    cases l with
    | code text => exact ⟨code text :: ls, rfl, rfl⟩
    | literal text =>
      obtain ⟨after, hls, hafter⟩ := ih
      refine ⟨after, ?_, hafter⟩
      rw [leading, List.map_cons, List.cons_append, ← hls]

theorem runs_code_literals {texts : List String} (opener : String) (ht : texts ≠ []) (h : leading after = []) :
    runs (code opener :: texts.map literal ++ after) = (opener, texts) :: runs after := by
  have hleading : leading (texts.map literal ++ after) = texts := by
    rw [leading_map_literal_append, h, List.append_nil]
  rw [List.cons_append, runs, hleading, if_neg ht, runs_map_literal_append]

/-- The runs are what they are called: literal lines between a line of code and either another one or the end. -/
theorem mem_runs_iff {opener : String} {texts : List String} :
    (opener, texts) ∈ runs ls ↔
      texts ≠ [] ∧ ∃ before after, ls = before ++ (code opener :: texts.map literal ++ after) ∧ leading after = [] := by
  constructor
  · intro h
    induction ls with
    | nil => cases h
    | cons l ls ih =>
      have hlater : (opener, texts) ∈ runs ls →
          texts ≠ [] ∧ ∃ before after, l :: ls = before ++ (code opener :: texts.map literal ++ after) ∧
            leading after = [] := by
        intro h
        obtain ⟨ht, before, after, rfl, hafter⟩ := ih h
        exact ⟨ht, l :: before, after, rfl, hafter⟩
      cases l with
      | literal text => exact hlater h
      | code text =>
        rw [runs] at h
        split at h
        · exact hlater h
        · next hne =>
          rcases List.mem_cons.1 h with h | h
          · obtain ⟨rfl, rfl⟩ := Prod.mk.inj h
            obtain ⟨after, hls, hafter⟩ := exists_eq_leading_append ls
            exact ⟨hne, [], after, congrArg (code opener :: ·) hls, hafter⟩
          · exact hlater h
  · rintro ⟨ht, before, after, rfl, hafter⟩
    rw [runs_append rfl, runs_code_literals opener ht hafter]
    exact List.mem_append_right _ List.mem_cons_self

/-- Where no run comes after a blank line, indentation leaves the runs where they were and what is in them as it was. -/
theorem leading_runs_indent (h : ∀ run ∈ runs ls, Text.isBlank run.1 = false) :
    leading (indent ls) = leading ls ∧ runs (indent ls) = (runs ls).map fun run => (step ++ run.1, run.2) := by
  induction ls with
  | nil => exact ⟨rfl, rfl⟩
  | cons l ls ih =>
    cases l with
    | literal text =>
      obtain ⟨hleading, hruns⟩ := ih h
      have hcons : indent (literal text :: ls) = literal text :: indent ls := rfl
      rw [hcons, leading, leading, runs, runs, hleading]
      exact ⟨rfl, hruns⟩
    | code text =>
      -- Only a line that opens no run may be dropped for being blank; a run behind it would be lost.
      by_cases hnone : leading ls = []
      · rw [runs, if_pos hnone] at h
        obtain ⟨hleading, hruns⟩ := ih h
        rw [hnone] at hleading
        cases hb : Text.isBlank text with
        | true =>
          have hcons : indent (code text :: ls) = indent ls := by simp [indent, indent?, hb]
          rw [hcons, runs, if_pos hnone]
          exact ⟨hleading, hruns⟩
        | false =>
          have hcons : indent (code text :: ls) = code (step ++ text) :: indent ls := by simp [indent, indent?, hb]
          rw [hcons, runs, runs, if_pos hnone, if_pos hleading]
          exact ⟨rfl, hruns⟩
      · rw [runs, if_neg hnone] at h
        obtain ⟨hleading, hruns⟩ := ih fun run hrun => h run (List.mem_cons_of_mem _ hrun)
        have hb : Text.isBlank text = false := h _ List.mem_cons_self
        have hcons : indent (code text :: ls) = code (step ++ text) :: indent ls := by simp [indent, indent?, hb]
        rw [hcons, runs, runs, hleading, if_neg hnone, if_neg hnone, hruns]
        exact ⟨rfl, rfl⟩

end Line

open Line

/-! ## Here-documents -/

/-- A run of literal lines is the here-document of a statement that appends to a file. -/
structure HereDocument (node : Statement) (run : String × List String) : Prop where
  /-- The line before the run opens it. -/
  opens : ∃ start, run.1 = start ++ " <<\x27" ++ hereDelimiter ++ "\x27"
  /-- The last line of the run ends it. -/
  ends : run.2.getLast? = some hereDelimiter
  /-- No line before the last would end it. -/
  once : run.2.count hereDelimiter = 1
  /-- The lines before the last are the payload, its tokens replaced and its lines split. -/
  payload : ∃ path payload, node = .appendFile path payload ∧ run.2.dropLast = payloadLines .unix payload
  /-- On its own the statement is written the same, but for the indentation of the line before the run. -/
  alone : ∃ depth opener, run.1 = Part.indentation depth ++ opener ∧
    node.lines .unix = .ok (.code opener :: run.2.map .literal)

/-- The runs of some lines are the here-documents of some statements, in their order, and every literal line is in one. -/
structure HereDocuments (nodes : List Statement) (ls : List Line) : Prop where
  opened : leading ls = []
  documents : List.Forall₂ HereDocument nodes (runs ls)

namespace HereDocument

variable {node : Statement} {run : String × List String}

theorem isBlank_opener (h : HereDocument node run) : Text.isBlank run.1 = false := by
  obtain ⟨start, hopener⟩ := h.opens
  rw [hopener]
  exact isBlank_append_of_right (by decide)

/-- Moved right by one step, it is the here-document it was. -/
theorem indent (h : HereDocument node run) : HereDocument node (step ++ run.1, run.2) := by
  obtain ⟨start, hopener⟩ := h.opens
  obtain ⟨depth, opener, hdepth, hlines⟩ := h.alone
  refine ⟨⟨step ++ start, ?_⟩, h.ends, h.once, h.payload, depth + 1, opener, ?_, hlines⟩
  · simp only [hopener, String.append_assoc]
  · simp only [hdepth, Part.indentation, String.append_assoc]

end HereDocument

namespace HereDocuments

variable {nodes more : List Statement} {a b : List Line}

theorem nil : HereDocuments [] [] := ⟨rfl, .nil⟩

theorem code (text : String) : HereDocuments [] [.code text] := ⟨rfl, .nil⟩

theorem append (ha : HereDocuments nodes a) (hb : HereDocuments more b) : HereDocuments (nodes ++ more) (a ++ b) := by
  refine ⟨?_, ?_⟩
  · rw [leading_append hb.opened]
    exact ha.opened
  · rw [runs_append hb.opened]
    exact List.rel_append ha.documents hb.documents

/-- Lines of code before the lines and after them take no part. -/
theorem surround (first last : String) (h : HereDocuments nodes a) :
    HereDocuments nodes (.code first :: a ++ [.code last]) := by
  simpa using ((code first).append h).append (code last)

theorem map_code {α : Type} (f : α → String) (xs : List α) : HereDocuments [] (xs.map fun x => .code (f x)) := by
  induction xs with
  | nil => exact nil
  | cons x xs ih => exact (code (f x)).append ih

theorem isBlank_opener (h : HereDocuments nodes a) : ∀ run ∈ runs a, Text.isBlank run.1 = false := by
  obtain ⟨-, hdocuments⟩ := h
  generalize runs a = found at hdocuments
  induction hdocuments with
  | nil => exact fun run hrun => absurd hrun List.not_mem_nil
  | cons hfirst _ ih =>
    intro run hrun
    rcases List.mem_cons.1 hrun with rfl | hrun
    · exact hfirst.isBlank_opener
    · exact ih run hrun

theorem indent (h : HereDocuments nodes a) : HereDocuments nodes (Line.indent a) := by
  obtain ⟨hleading, hruns⟩ := leading_runs_indent h.isBlank_opener
  refine ⟨hleading.trans h.opened, ?_⟩
  rw [hruns, List.forall₂_map_right_iff]
  exact h.documents.imp fun _ _ hd => hd.indent

end HereDocuments

/-! ## Leaves -/

namespace Shell

/-- The line of code that opens a here-document. -/
def hereOpener (path : String) : String :=
  "cat >> " ++ path ++ " <<\x27" ++ hereDelimiter ++ "\x27"

theorem hereDocument_eq (path : String) (payload : List String) :
    hereDocument path payload = .code (hereOpener path) :: (payload ++ [hereDelimiter]).map .literal := by
  rw [hereDocument, List.map_append]
  rfl

theorem runs_hereDocument (path : String) (payload : List String) :
    runs (hereDocument path payload) = [(hereOpener path, payload ++ [hereDelimiter])] := by
  have hne : payload ++ [hereDelimiter] ≠ [] := List.append_ne_nil_of_right_ne_nil payload (List.cons_ne_nil _ _)
  have h : runs (.code (hereOpener path) :: (payload ++ [hereDelimiter]).map .literal ++ [])
      = (hereOpener path, payload ++ [hereDelimiter]) :: runs [] := runs_code_literals (hereOpener path) hne rfl
  rwa [List.append_nil, ← hereDocument_eq] at h

end Shell

/-- What is written to append a payload to a file is one here-document, since the payload holds no line that ends it. -/
theorem hereDocuments_appendFileLines {path : String} {payload : List String} {ls : List Line}
    (h : appendFileLines .unix path payload = .ok ls) : HereDocuments [.appendFile path payload] ls := by
  have hlines : (Statement.appendFile path payload).lines .unix = .ok ls := h
  obtain ⟨hfree, rfl⟩ := appendFileLines_unix_eq_ok_iff.1 h
  have honce : (payloadLines .unix payload ++ [hereDelimiter]).count hereDelimiter = 1 := by
    rw [List.count_append, List.count_eq_zero_of_not_mem hfree, List.count_singleton_self]
  rw [Shell.hereDocument_eq] at hlines
  have hdocument : HereDocument (.appendFile path payload)
      (Shell.hereOpener (Token.expand .unix (Shell.argument path)), payloadLines .unix payload ++ [hereDelimiter]) :=
    ⟨⟨_, rfl⟩, List.getLast?_concat, honce, ⟨path, payload, rfl, List.dropLast_concat⟩, 0, _,
      String.empty_append.symm, hlines⟩
  refine ⟨rfl, ?_⟩
  rw [Shell.runs_hereDocument]
  exact .cons hdocument .nil

theorem hereDocuments_interpretLines (family : Family) (text : String) :
    HereDocuments [] (interpretLines family text) := by
  simp only [interpretLines]
  split
  · exact .nil
  · exact .map_code id _

theorem hereDocuments_commentLines (family : Family) (text : String) :
    HereDocuments [] (commentLines family text) := by
  have hcode : commentLine family = fun line =>
      .code (if line.isEmpty then family.commentMarker else family.commentMarker ++ " " ++ line) := by
    funext line
    unfold commentLine
    split <;> rfl
  rw [commentLines, hcode]
  exact .map_code _ _

namespace Statement

/-- Whether a statement appends to a file. -/
def isAppendFile (s : Statement) : Bool :=
  s.kind == .appendFile

/-- A list itself is none of those. -/
theorem filter_nodes_list (body : List Statement) :
    (list body).nodes.filter isAppendFile = (nodesList body).filter isAppendFile := rfl

theorem hereDocuments_leaf {s : Statement} {ls : List Line} (hleaf : s.isLeaf = true) (h : s.lines .unix = .ok ls) :
    HereDocuments (s.nodes.filter isAppendFile) ls := by
  cases s with
  | appendFile path payload =>
    rw [lines] at h
    exact hereDocuments_appendFileLines h
  | exec command replacing =>
    rw [lines] at h
    obtain ⟨-, -, -, rfl⟩ := execLines_eq_ok_iff.1 h
    exact .code _
  | interpret text =>
    rw [lines, Except.ok.injEq] at h
    subst h
    exact hereDocuments_interpretLines .unix text
  | comment text =>
    rw [lines, Except.ok.injEq] at h
    subst h
    exact hereDocuments_commentLines .unix text
  | exportVar name value =>
    rw [lines] at h
    obtain ⟨-, rfl⟩ := exportLines_eq_ok_iff.1 h
    exact .code _
  | call function args =>
    rw [lines, Except.ok.injEq] at h
    subst h
    exact .code _
  | leave code =>
    rw [lines, Except.ok.injEq] at h
    subst h
    exact .code _
  | list | switchArg => cases hleaf

/-! ## Trees -/

theorem hereDocuments_cases {cases : List (String × Statement)} {written : List (String × List Line)}
    (ih : ∀ c ∈ cases, ∀ {ls}, c.2.lines .unix = .ok ls → HereDocuments (c.2.nodes.filter isAppendFile) ls)
    (h : linesCases .unix cases = .ok written) :
    HereDocuments ((nodesCases cases).filter isAppendFile) (written.flatMap fun w => Shell.arm w.1 w.2) := by
  rw [linesCases_eq_ok_iff] at h
  induction h with
  | nil => exact .nil
  | @cons c w _ _ hw _ ihrest =>
    have harm := (ih c List.mem_cons_self hw.2).indent.surround (Shell.pattern w.1 ++ ")") (Line.step ++ ";;")
    rw [nodesCases, List.filter_append, List.flatMap_cons]
    exact harm.append (ihrest fun c hc => ih c (List.mem_cons_of_mem _ hc))

theorem hereDocuments_lines {s : Statement} {ls : List Line} (h : s.lines .unix = .ok ls) :
    HereDocuments (s.nodes.filter isAppendFile) ls := by
  induction s using induction_cons generalizing ls with
  | leaf s hleaf => exact hereDocuments_leaf hleaf h
  | nil =>
    rw [lines, linesList, Except.ok.injEq] at h
    subst h
    exact .nil
  | cons s ss ihs ihss =>
    obtain ⟨first, rest, hfirst, hrest, rfl⟩ := lines_list_cons_eq_ok_iff.1 h
    rw [filter_nodes_list, nodesList, List.filter_append, ← filter_nodes_list]
    exact (ihs hfirst).append (ihss hrest)
  | switchArg index cases ih =>
    obtain ⟨argument, written, -, hwritten, rfl⟩ := lines_switchArg_eq_ok_iff.1 h
    have hcases := hereDocuments_cases (fun c hc ls hl => ih c hc hl) hwritten
    exact hcases.surround ("case " ++ argument ++ " in") "esac"

end Statement

/-! ## Scripts -/

namespace Script

open Statement

/-- The nodes of a script in the order in which a shell script has them: those of its functions come first. -/
def nodes (script : Script) : List Statement :=
  nodesCases script.functions ++ nodesList script.statements

theorem hereDocuments_functionLines {functions : List (String × Statement)} {ls : List Line}
    (h : functionLines .unix functions = .ok ls) :
    HereDocuments ((nodesCases functions).filter isAppendFile) ls := by
  induction functions generalizing ls with
  | nil =>
    cases h
    exact .nil
  | cons f functions ih =>
    obtain ⟨name, body⟩ := f
    simp only [functionLines, bind_ok_iff, pure_ok_iff] at h
    obtain ⟨own, hown, others, hothers, rfl⟩ := h
    have hblock := ((hereDocuments_lines hown).indent.surround ("function " ++ name ++ " \x7b")
      (Line.step ++ "return 0")).append (.code "\x7d")
    rw [nodesCases, List.filter_append]
    refine HereDocuments.append ?_ (ih hothers)
    simpa [functionBlock, inner] using hblock

theorem hereDocuments_variableLines {exports : List (String × String)} {ls : List Line}
    (h : variableLines .unix exports = .ok ls) : HereDocuments [] ls := by
  induction exports generalizing ls with
  | nil =>
    cases h
    exact .nil
  | cons e exports ih =>
    simp only [variableLines, List.map_cons, linesList, Statement.lines, bind_ok_iff, pure_ok_iff] at h
    obtain ⟨first, hfirst, rest, hrest, rfl⟩ := h
    obtain ⟨-, rfl⟩ := exportLines_eq_ok_iff.1 hfirst
    exact (HereDocuments.code _).append (ih hrest)

theorem hereDocuments_lines {script : Script} {ls : List Line} (h : script.lines .unix = .ok ls) :
    HereDocuments (script.nodes.filter isAppendFile) ls := by
  simp only [lines, mainLines, bind_ok_iff, pure_ok_iff] at h
  obtain ⟨functions, hfunctions, main, ⟨exports, hexports, statements, hstatements, rfl⟩, rfl⟩ := h
  have hheader : HereDocuments [] shellHeader := ⟨rfl, .nil⟩
  have hmain : HereDocuments ((nodesList script.statements).filter isAppendFile) statements := by
    rw [← filter_nodes_list]
    exact Statement.hereDocuments_lines (by rw [Statement.lines, hstatements])
  have hbody := (hereDocuments_variableLines hexports).append hmain
  have hscript := ((hheader.append (hereDocuments_functionLines hfunctions)).append hbody).append (.code "exit $?")
  simpa [nodes] using hscript

/-- Take any statement or any script, however deep its lists, switches and functions go, whose lines for a shell
script are found. No literal line comes first in them. The longest runs of literal lines are one by one, in the order
of the tree, the here-documents of the statements that append to a file: the line before each is code that opens it,
the line that ends it is in it once, as its last, and what is before that is the payload of the statement, line for
line as when the statement is rendered alone. -/
theorem here_documents_end :
    (∀ (s : Statement) (ls : List Line), s.lines .unix = .ok ls → HereDocuments (s.nodes.filter isAppendFile) ls) ∧
      ∀ (script : Script) (ls : List Line), script.lines .unix = .ok ls →
        HereDocuments (script.nodes.filter isAppendFile) ls :=
  ⟨fun _ _ h => Statement.hereDocuments_lines h, fun _ _ h => hereDocuments_lines h⟩

/-- Blank lines, and one that would end the here-document if it stood at the margin, in a case in a list; on its own
and in the body of a function in front of a payload of no lines. -/
theorem here_documents_end_of_nested :
    let deep := Statement.appendFile "log" ["", "  END_OF_FILE", "a\x7blf\x7d\x7blf\x7db", " "]
    let body := Statement.list [.switchArg 1 [("on", .list [.comment "write", deep])], .exec "date" false]
    let script : Script := { functions := [("report", body)], statements := [.appendFile "log" []] }
    (∃ ls, body.lines .unix = .ok ls ∧ HereDocuments [deep] ls) ∧
      ∃ ls, script.lines .unix = .ok ls ∧ HereDocuments [deep, .appendFile "log" []] ls := by
  intro deep body script
  obtain ⟨own, hown⟩ : ∃ ls, body.lines .unix = .ok ls := exists_ok_of_isOk (by decide)
  obtain ⟨whole, hwhole⟩ : ∃ ls, script.lines .unix = .ok ls := exists_ok_of_isOk (by decide)
  exact ⟨⟨own, hown, here_documents_end.1 body own hown⟩, ⟨whole, hwhole, here_documents_end.2 script whole hwhole⟩⟩

end Script
end Scriptwright
