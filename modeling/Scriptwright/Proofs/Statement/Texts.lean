/-
The texts of a tree, as the caller gave them, and what its lines hold besides.
A character that neither the layout of a family nor a token brings in stands in
a line only if it stands in one of the texts (`lacks_lines`).
-/
import Scriptwright.Proofs.Statement.EachLine
import Scriptwright.Proofs.Token.Scan

namespace Scriptwright

variable {family : Family} {c : Char}

/-- A character that comes into a script from the caller's texts only. -/
structure Family.FromTexts (family : Family) (c : Char) : Prop where
  foreign : family.isForeign c = true
  noToken : ∀ t : Token, c ∉ (t.text family).toList

/-- No token is mapped to what belongs to the other family. -/
theorem fromTexts_otherSign (family : Family) : family.FromTexts family.otherSign where
  foreign := isForeign_otherSign family
  noToken t := by cases family <;> cases t <;> decide

theorem fromTexts_return : Family.unix.FromTexts '\r' where
  foreign := rfl
  noToken t := by cases t <;> decide

theorem Family.FromTexts.keeps (hc : family.FromTexts c) : family.Keeps c fun text => c ∉ text.toList where
  foreign := hc.foreign
  step _ h := not_mem_append (not_mem_of_isForeign hc.foreign (by cases family <;> decide)) h
  plain _ h := h

namespace Line

/-- No line holds a character. -/
def Lacks (c : Char) (ls : List Line) : Prop :=
  ∀ l ∈ ls, c ∉ l.text.toList

theorem Lacks.singleton {l : Line} (h : c ∉ l.text.toList) : Lacks c [l] := by
  intro l' hl'
  rw [List.mem_singleton.1 hl']
  exact h

theorem Lacks.join {ls : List Line} (h : Lacks c ls) (hend : c ∉ family.lineTerminator.toList) :
    c ∉ (join family ls).toList := by
  rw [Line.join, String.toList_ofList, List.mem_flatMap]
  rintro ⟨l, hl, hm⟩
  rcases List.mem_append.1 hm with hm | hm
  · exact h l hl hm
  · exact hend hm

end Line

open Line

/-! ## Leaves -/

section

variable {ls : List Line} (hc : family.FromTexts c)
include hc

theorem Family.FromTexts.not_mem_expand {text : String} (h : c ∉ text.toList) :
    c ∉ (Token.expand family text).toList :=
  Token.not_mem_expand hc.noToken h

theorem lacks_execLines {command : String} {replacing : Bool} (ht : c ∉ command.toList)
    (h : execLines family command replacing = .ok ls) : Lacks c ls := by
  obtain ⟨-, -, -, rfl⟩ := execLines_eq_ok_iff.1 h
  have hcommand := hc.not_mem_expand ht
  have hexec : c ∉ "exec ".toList := not_mem_of_isForeign hc.foreign (by cases family <;> decide)
  refine .singleton ?_
  cases replacing with
  | false => exact hcommand
  | true => exact not_mem_append hexec hcommand

theorem lacks_interpretLines {text : String} (ht : c ∉ text.toList) : Lacks c (interpretLines family text) := by
  simp only [interpretLines]
  split
  · exact fun l hl => absurd hl List.not_mem_nil
  · intro l hl
    obtain ⟨line, hline, rfl⟩ := List.mem_map.1 hl
    exact fun hm => hc.not_mem_expand ht (Text.mem_of_mem_lines hline hm)

theorem lacks_commentLines {text : String} (ht : c ∉ text.toList) : Lacks c (commentLines family text) := by
  have hmarker : c ∉ family.commentMarker.toList :=
    not_mem_of_isForeign hc.foreign (by cases family <;> decide)
  have hspace : c ∉ " ".toList := not_mem_of_isForeign hc.foreign (by cases family <;> decide)
  intro l hl
  obtain ⟨line, hline, rfl⟩ := List.mem_map.1 hl
  have hown : c ∉ line.toList := fun hm => hc.not_mem_expand ht (Text.mem_of_mem_lines hline hm)
  unfold commentLine
  split
  · exact hmarker
  · exact not_mem_append (not_mem_append hmarker hspace) hown

theorem not_mem_payloadLines {payload : List String} (ht : ∀ text ∈ payload, c ∉ text.toList) :
    ∀ line ∈ payloadLines family payload, c ∉ line.toList := by
  intro line hline hm
  obtain ⟨text, htext, hline⟩ := List.mem_flatMap.1 hline
  exact hc.not_mem_expand (ht text htext) (Text.mem_of_mem_lines hline hm)

theorem lacks_appendFileLines {path : String} {payload : List String} (hp : c ∉ path.toList)
    (ht : ∀ text ∈ payload, c ∉ text.toList) (h : appendFileLines family path payload = .ok ls) : Lacks c ls := by
  cases family with
  | unix =>
    obtain ⟨-, rfl⟩ := appendFileLines_unix_eq_ok_iff.1 h
    have hcat : c ∉ "cat >> ".toList := not_mem_of_isForeign hc.foreign (by decide)
    have hopen : c ∉ " <<\x27".toList := not_mem_of_isForeign hc.foreign (by decide)
    have hword : c ∉ hereDelimiter.toList := not_mem_of_isForeign hc.foreign (by decide)
    have hclose : c ∉ "\x27".toList := not_mem_of_isForeign hc.foreign (by decide)
    have hpath := hc.not_mem_expand (foreign_not_mem_shellArgument hc.foreign hp)
    intro l hl
    simp only [Shell.hereDocument, List.cons_append, List.mem_cons, List.mem_append, List.not_mem_nil, or_false] at hl
    rcases hl with rfl | hl | rfl
    · exact not_mem_append (not_mem_append (not_mem_append (not_mem_append hcat hpath) hopen) hword) hclose
    · obtain ⟨line, hline, rfl⟩ := List.mem_map.1 hl
      exact not_mem_payloadLines hc ht line hline
    · exact hword
  | windows =>
    cases h
    have hquote : c ∉ "\"".toList := not_mem_of_isForeign hc.foreign (by decide)
    have htarget := not_mem_append (not_mem_append hquote (hc.not_mem_expand hp)) hquote
    have hescaped : ∀ text ∈ payload.map Batch.escapeEcho, c ∉ text.toList := by
      intro text htext
      obtain ⟨own, hown, rfl⟩ := List.mem_map.1 htext
      exact foreign_not_mem_escapeEcho hc.foreign (ht own hown)
    intro l hl
    obtain ⟨line, hline, rfl⟩ := List.mem_map.1 hl
    have hown := not_mem_payloadLines hc hescaped line hline
    unfold Batch.echoLine
    split
    · have hopen : c ∉ "(echo(".toList := not_mem_of_isForeign hc.foreign (by decide)
      have hclose : c ∉ ")>>".toList := not_mem_of_isForeign hc.foreign (by decide)
      exact not_mem_append (not_mem_append (not_mem_append hopen hown) hclose) htarget
    · have hopen : c ∉ "echo(".toList := not_mem_of_isForeign hc.foreign (by decide)
      have hclose : c ∉ ">>".toList := not_mem_of_isForeign hc.foreign (by decide)
      exact not_mem_append (not_mem_append (not_mem_append hopen hown) hclose) htarget

theorem lacks_exportLines {name value : String} (hn : isIdentifier name = true) (ht : c ∉ value.toList)
    (h : exportLines family name value = .ok ls) : Lacks c ls := by
  obtain ⟨-, rfl⟩ := exportLines_eq_ok_iff.1 h
  exact .singleton (hc.not_mem_expand (foreign_not_mem_exportTemplate hc.foreign hn ht))

theorem lacks_callLines {function : String} {args : List String} (hf : isIdentifier function = true)
    (ht : ∀ arg ∈ args, c ∉ arg.toList) : Lacks c (callLines family function args) :=
  .singleton (hc.not_mem_expand (foreign_not_mem_callTemplate hc.foreign hf ht))

theorem lacks_leaveLines {leaving : String} (ht : c ∉ leaving.toList) : Lacks c (leaveLines family leaving) := by
  refine .singleton (hc.not_mem_expand (not_mem_append ?_ ht))
  cases family with
  | unix => exact not_mem_of_isForeign hc.foreign (by decide)
  | windows => exact not_mem_of_isForeign hc.foreign (by decide)

end

namespace Statement

/-! ## Texts -/

/-- The texts of a statement that are not those of its parts. -/
def ownTexts : Statement → List String
  | exec command _ => [command]
  | interpret text => [text]
  | appendFile path payload => path :: payload
  | list _ => []
  | switchArg _ cases => cases.map Prod.fst
  | exportVar _ value => [value]
  | call _ args => args
  | comment text => [text]
  | leave leaving => [leaving]

/-- The texts of a tree that a caller may write as he likes, which leaves out the names of variables and functions. -/
def texts (s : Statement) : List String :=
  s.nodes.flatMap ownTexts

variable {s : Statement} {ls : List Line}

/-! ## Trees -/

theorem lacks_leaf (hs : s.Sound) (hleaf : s.isLeaf = true) (hc : family.FromTexts c)
    (ht : ∀ text ∈ s.ownTexts, c ∉ text.toList) (h : s.lines family = .ok ls) : Lacks c ls := by
  cases s with
  | exec command replacing =>
    rw [lines] at h
    exact lacks_execLines hc (ht command List.mem_cons_self) h
  | interpret text =>
    rw [lines, Except.ok.injEq] at h
    subst h
    exact lacks_interpretLines hc (ht text List.mem_cons_self)
  | appendFile path payload =>
    rw [lines] at h
    exact lacks_appendFileLines hc (ht path List.mem_cons_self) (fun text h => ht text (List.mem_cons_of_mem _ h)) h
  | exportVar name value =>
    rw [lines] at h
    exact lacks_exportLines hc hs.1 (ht value List.mem_cons_self) h
  | call function args =>
    rw [lines, Except.ok.injEq] at h
    subst h
    exact lacks_callLines hc hs.1 ht
  | comment text =>
    rw [lines, Except.ok.injEq] at h
    subst h
    exact lacks_commentLines hc (ht text List.mem_cons_self)
  | leave leaving =>
    rw [lines, Except.ok.injEq] at h
    subst h
    exact lacks_leaveLines hc (ht leaving List.mem_cons_self)
  | list | switchArg => cases hleaf

/-- The lines of a built statement hold no character that its texts lack and nothing else brings in. -/
theorem lacks_lines (hm : s.Made) (hc : family.FromTexts c) (ht : ∀ text ∈ s.texts, c ∉ text.toList)
    (h : s.lines family = .ok ls) : Lacks c ls := by
  have hown : ∀ node ∈ s.nodes, ∀ text ∈ node.ownTexts, c ∉ text.toList := fun node hn text htext =>
    ht text (List.mem_flatMap.2 ⟨node, hn, htext⟩)
  refine forall_lines hc.keeps hm (fun node hn hleaf hs ls h => lacks_leaf hs hleaf hc (hown node hn) h) ?_ h
  exact fun index cases hn _ arm ha => hown _ hn arm.1 (List.mem_map_of_mem ha)

theorem lacks_written (hm : s.Made) (hc : family.FromTexts c) (ht : ∀ text ∈ s.texts, c ∉ text.toList) :
    Lacks c (s.written family) :=
  forall_written (P := fun text => c ∉ text.toList) fun _ h => lacks_lines hm hc ht h

end Statement
end Scriptwright
