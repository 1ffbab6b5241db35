/-
A text as its tokens and the literal pieces between them (`Cut`). There is such a
cut of every text (`nonempty_cut`), and cutting the text from left to right finds
no other tokens than those it names (`Cut.scan_eq`). A text is quoted before its
tokens are replaced, and what quoting writes can neither complete a token nor
fall into one, so the outcome is the same as if each literal piece had been
quoted on its own and the tokens put between them (`expand_quoted_piecewise`).
-/
import Scriptwright.Proofs.Token.Meaning

namespace Scriptwright.Token

/-- A text cut into its tokens and the literal pieces before, between and behind them. -/
structure Cut (text : String) where
  first : String
  /-- Each token with the literal piece that follows it. -/
  rest : List (Token × String)
  spelled : first.toList ++ rest.flatMap (fun p => spelling p.1 ++ p.2.toList) = text.toList
  literal : ∀ piece ∈ first :: rest.map Prod.snd, ∀ t, occursIn t piece = false

variable {text a b : String}

namespace Cut

/-- A text that holds no token is one literal piece. -/
def whole (h : ∀ t, occursIn t text = false) : Cut text where
  first := text
  rest := []
  spelled := List.append_nil _
  literal := by simpa using h

/-- Two texts with a token between them. -/
def join (x : Cut a) (t : Token) (y : Cut b) : Cut (a ++ (String.ofList (spelling t) ++ b)) where
  first := x.first
  rest := x.rest ++ (t, y.first) :: y.rest
  spelled := by
    rw [List.flatMap_append, List.flatMap_cons, ← List.append_assoc, x.spelled, List.append_assoc, y.spelled]
    simp
  literal := by
    have hx := x.literal
    have hy := y.literal
    simp only [List.map_append, List.map_cons, ← List.cons_append, List.mem_append]
    rintro piece (h | h)
    · exact hx piece h
    · exact hy piece h

/-- The tokens and the pieces put together, each piece written by `quote`. -/
def write (family : Family) (quote : String → String) (x : Cut text) : String :=
  quote x.first ++ String.join (x.rest.map fun p => p.1.text family ++ quote p.2)

end Cut

/-- Every text can be cut: at a token it holds, if any, and then on either side of it. -/
theorem nonempty_cut (text : String) : Nonempty (Cut text) := by
  by_cases h : ∀ t, occursIn t text = false
  · exact ⟨.whole h⟩
  · obtain ⟨t, ht⟩ : ∃ t, occursIn t text = true := by simpa using h
    obtain ⟨before, behind, hsplit⟩ := occursIn_iff_infix.1 ht
    have hlength : text.toList.length = before.length + (spelling t).length + behind.length := by
      rw [← hsplit, List.length_append, List.length_append]
    have hspelling : 0 < (spelling t).length := Nat.succ_pos _
    obtain ⟨x⟩ := nonempty_cut (String.ofList before)
    obtain ⟨y⟩ := nonempty_cut (String.ofList behind)
    have htext : String.ofList before ++ (String.ofList (spelling t) ++ String.ofList behind) = text := by
      apply String.toList_injective
      simp [← hsplit]
    exact ⟨htext ▸ x.join t y⟩
termination_by text.toList.length
decreasing_by all_goals (rw [String.toList_ofList]; omega)

/-- Literal pieces with tokens between them are cut where the tokens are. -/
theorem scan_literals {first : String} {rest : List (Token × String)}
    (h : ∀ piece ∈ first :: rest.map Prod.snd, ∀ t, occursIn t piece = false) :
    scan (first.toList ++ rest.flatMap fun p => spelling p.1 ++ p.2.toList)
      = first.toList.map .plain ++ rest.flatMap fun p => .token p.1 :: p.2.toList.map .plain := by
  induction rest generalizing first with
  | nil => simpa using scan_eq_map_plain_of_occursIn (h first List.mem_cons_self)
  | cons p rest ih =>
    have hfirst := scan_eq_map_plain_of_occursIn (h first List.mem_cons_self)
    have hrest : ∀ piece ∈ p.2 :: rest.map Prod.snd, ∀ t, occursIn t piece = false :=
      fun piece hp => h piece (List.mem_cons_of_mem _ hp)
    rw [List.flatMap_cons, List.append_assoc, scan_append_spelling, hfirst, ih hrest, List.flatMap_cons,
      List.cons_append]

/-- The cut of a text from left to right finds the tokens of any cut of it, and no others. -/
theorem Cut.scan_eq (x : Cut text) :
    scan text.toList
      = x.first.toList.map .plain ++ x.rest.flatMap fun p => .token p.1 :: p.2.toList.map .plain := by
  rw [← x.spelled, scan_literals x.literal]

/-! ## Quoting by pieces -/

variable {f : Char → List Char} {family : Family}

theorem flatMap_write_map_plain (family : Family) (f : Char → List Char) (cs : List Char) :
    (cs.map Piece.plain).flatMap (Piece.write family f) = cs.flatMap f :=
  List.flatMap_map _ _ cs

/-- Each piece of a cut is quoted on its own. -/
theorem KeepsTokens.expand_flatMap (h : KeepsTokens f) (x : Cut text) :
    expand family (Text.flatMap f text) = x.write family (Text.flatMap f) := by
  apply String.toList_injective
  have hpiece : ∀ p : Token × String, (Piece.token p.1 :: p.2.toList.map .plain).flatMap (Piece.write family f)
      = (p.1.text family ++ Text.flatMap f p.2).toList := by
    intro p
    rw [List.flatMap_cons, flatMap_write_map_plain, String.toList_append, Text.toList_flatMap]
    rfl
  rw [h.toList_expand, x.scan_eq, List.flatMap_append, flatMap_write_map_plain, List.flatMap_assoc]
  simp only [hpiece, Cut.write, String.toList_append, String.toList_join, List.flatMap_map, Text.toList_flatMap]

theorem flatMap_singleton_eq_id : Text.flatMap (fun c => [c]) = id := by
  funext text
  simp [Text.flatMap]

/-- A text that is not quoted keeps its pieces. -/
theorem Cut.expand_eq (x : Cut text) : expand family text = x.write family id := by
  have hkeep : KeepsTokens fun c => [c] := Text.keeps_singleton _
  have h : expand family (Text.flatMap (fun c => [c]) text) = x.write family (Text.flatMap fun c => [c]) :=
    hkeep.expand_flatMap x
  rwa [flatMap_singleton_eq_id] at h

/-- Wherever a text is cut into its tokens and the literal pieces between them, escaping it and replacing its tokens
gives each piece escaped, with what the tokens stand for between them; so no escape makes a token, breaks one or changes
it. An argument is its pieces in the same way, escaped between quotes or bare as the text as a whole asks for. -/
theorem expand_quoted_piecewise (family : Family) (text : String) :
    Nonempty (Cut text) ∧ ∀ x : Cut text,
      expand family (Shell.escape text) = x.write family Shell.escape ∧
      expand family (Batch.escape text) = x.write family Batch.escape ∧
      expand family (Batch.escapeEcho text) = x.write family Batch.escapeEcho ∧
      expand family (Shell.argument text)
        = (if Shell.isBare text then x.write family id else "\"" ++ x.write family Shell.escape ++ "\"") ∧
      expand family (Batch.argument text)
        = (if Batch.needsQuotes text then "\"" ++ x.write family (Text.flatMap Batch.doubleQuoteChar) ++ "\""
          else x.write family id) := by
  refine ⟨nonempty_cut text, fun x => ?_⟩
  have hshell : expand family (Shell.escape text) = x.write family Shell.escape :=
    keepsTokens_shellEscape.expand_flatMap x
  refine ⟨hshell, keepsTokens_batchEscape.expand_flatMap x, ?_, ?_, ?_⟩
  · rw [funext escapeEcho_eq_flatMap]
    exact keepsTokens_escapeEcho.expand_flatMap x
  · rw [Shell.argument, apply_ite (expand family), expand_quotes, hshell, x.expand_eq]
  · rw [Batch.argument, apply_ite (expand family), expand_quotes, keepsTokens_doubleQuote.expand_flatMap x, x.expand_eq]

/-- Signs on both sides of tokens, one token right behind an open brace and a name that no token has. -/
theorem expand_quoted_piecewise_of_signs :
    expand .unix (Shell.argument "$\x7btmp\x7d\x22\x7b\x7bfs\x7d\x60\x7bno\x7d")
      = "\"" ++ ("\\$" ++ ("/tmp" ++ "\\\x22\x7b" ++ ("/" ++ "\\\x60\x7bno\x7d"))) ++ "\"" := by
  have hliteral : ∀ piece ∈ ["$", "\x22\x7b", "\x60\x7bno\x7d"], ∀ t, occursIn t piece = false := by
    simp only [List.forall_mem_cons, List.not_mem_nil, false_implies, implies_true, and_true]
    refine ⟨fun t => ?_, fun t => ?_, fun t => ?_⟩ <;> cases t <;> decide
  have h := (expand_quoted_piecewise .unix "$\x7btmp\x7d\x22\x7b\x7bfs\x7d\x60\x7bno\x7d").2
    { first := "$", rest := [(.tempDir, "\x22\x7b"), (.fileSeparator, "\x60\x7bno\x7d")],
      spelled := rfl, literal := hliteral }
  rw [h.2.2.2.1, if_neg (by decide)]
  simp only [Cut.write]
  decide

end Scriptwright.Token
