/-
Statements one after another. A list is written as its statements are, up to
the first that is refused; its text is theirs as well, but for one thing: a
batch file counts the switches of all of them together. So brackets do not
matter: a list inside another may be opened up, wherever the two stand
(`Splice`), and neither the text nor the refusal changes.
-/
import Mathlib.Logic.Relation
import Scriptwright.Proofs.Statement.Nodes

namespace Scriptwright.Statement

variable {family : Family}

/-! ## Lists -/

/-- The lines of a list are those of its statements, or the first refusal among them. -/
theorem linesList_eq_mapM (family : Family) (body : List Statement) :
    linesList family body = List.flatten <$> body.mapM (lines family) := by
  induction body with
  | nil => rfl
  | cons s ss ih =>
    rw [linesList, ih, List.mapM_cons]
    cases s.lines family with
    | error refusal => rfl
    | ok first =>
      cases ss.mapM (lines family) with
      | error refusal => rfl
      | ok rest => rfl

theorem switchCount_le_of_mem {s : Statement} {body : List Statement} (h : s ∈ body) :
    s.switchCount ≤ (list body).switchCount := by
  induction body with
  | nil => cases h
  | cons t ts ih =>
    rw [switchCount_list_cons]
    rcases List.mem_cons.1 h with rfl | h
    · omega
    · have := ih h
      omega

theorem switchCount_list_eq_countP (body : List Statement) :
    (list body).switchCount = (body.flatMap nodes).countP isSwitch := by
  rw [switchCount_eq_countP, nodes, nodesList_eq_flatMap]
  rfl

theorem join_flatten (family : Family) (parts : List (List Line)) :
    Line.join family parts.flatten = String.join (parts.map (Line.join family)) := by
  induction parts with
  | nil => rfl
  | cons part parts ih => rw [List.flatten_cons, Line.join_append, ih, List.map_cons, String.join_cons]

theorem mapM_render_eq {body : List Statement} (h : ∀ s ∈ body, ¬ (family = .windows ∧ 1 < s.switchCount)) :
    body.mapM (render family) = List.map (Line.join family) <$> body.mapM (lines family) := by
  induction body with
  | nil => rfl
  | cons s ss ih =>
    rw [List.mapM_cons, List.mapM_cons, render_eq_map (h s List.mem_cons_self),
      ih fun t ht => h t (List.mem_cons_of_mem _ ht)]
    cases s.lines family with
    | error refusal => rfl
    | ok first =>
      cases ss.mapM (lines family) with
      | error refusal => rfl
      | ok rest => rfl

/-- The text of a list is the texts of its statements one after another, or the first refusal among them. -/
theorem render_list_eq_mapM {body : List Statement} (h : ¬ (family = .windows ∧ 1 < (list body).switchCount)) :
    (list body).render family = String.join <$> body.mapM (render family) := by
  have hown : ∀ s ∈ body, ¬ (family = .windows ∧ 1 < s.switchCount) := by
    rintro s hs ⟨hfamily, hmany⟩
    have := switchCount_le_of_mem hs
    exact h ⟨hfamily, by omega⟩
  rw [render_eq_map h, lines, linesList_eq_mapM, mapM_render_eq hown]
  cases body.mapM (lines family) with
  | error refusal => rfl
  | ok parts => exact congrArg Except.ok (join_flatten family parts)

/-! ## Opening up a list inside another -/

/-- One tree comes from another by opening up one list that stands in a list, at any depth. -/
inductive Splice : Statement → Statement → Prop
  /-- The statements of a list stand in the list around it. -/
  | here (before inner after : List Statement) :
      Splice (.list (before ++ .list inner :: after)) (.list (before ++ inner ++ after))
  /-- In a statement of a list. -/
  | inList (before after : List Statement) {s t : Statement} (h : Splice s t) :
      Splice (.list (before ++ s :: after)) (.list (before ++ t :: after))
  /-- In the statement of a case. -/
  | inCase (index : Nat) (before after : List (String × Statement)) (value : String) {s t : Statement}
      (h : Splice s t) :
      Splice (.switchArg index (before ++ (value, s) :: after)) (.switchArg index (before ++ (value, t) :: after))

variable {s t : Statement}

theorem linesList_congr (before after : List Statement) (h : s.lines family = t.lines family) :
    linesList family (before ++ s :: after) = linesList family (before ++ t :: after) := by
  rw [linesList_append, linesList_append, linesList, linesList, h]

theorem linesCases_congr (before after : List (String × Statement)) (value : String)
    (h : s.lines family = t.lines family) :
    linesCases family (before ++ (value, s) :: after) = linesCases family (before ++ (value, t) :: after) := by
  induction before with
  | nil => rw [List.nil_append, List.nil_append, linesCases, linesCases, h]
  | cons c cs ih =>
    obtain ⟨other, u⟩ := c
    rw [List.cons_append, List.cons_append, linesCases, linesCases, ih]

theorem linesList_splice (before inner after : List Statement) :
    linesList family (before ++ list inner :: after) = linesList family (before ++ inner ++ after) := by
  have hinner : linesList family (list inner :: after) = linesList family (inner ++ after) := by
    rw [linesList_append, linesList, lines]
  rw [linesList_append, hinner, List.append_assoc, ← linesList_append]

theorem Splice.lines_eq (h : Splice s t) : s.lines family = t.lines family := by
  induction h with
  | here before inner after => exact linesList_splice before inner after
  | inList before after _ ih => exact linesList_congr before after ih
  | inCase index before after value _ ih => rw [lines, lines, linesCases_congr before after value ih]

theorem switchCountCases_congr (before after : List (String × Statement)) (value : String)
    (h : s.switchCount = t.switchCount) :
    switchCountCases (before ++ (value, s) :: after) = switchCountCases (before ++ (value, t) :: after) := by
  induction before with
  | nil => rw [List.nil_append, List.nil_append, switchCountCases, switchCountCases, h]
  | cons c cs ih =>
    obtain ⟨other, u⟩ := c
    rw [List.cons_append, List.cons_append, switchCountCases, switchCountCases, ih]

theorem Splice.switchCount_eq (h : Splice s t) : s.switchCount = t.switchCount := by
  induction h with
  | here before inner after =>
    simp only [switchCount, switchCountList_append, switchCountList]
    omega
  | inList before after _ ih => simp only [switchCount, switchCountList_append, switchCountList, ih]
  | inCase index before after value _ ih => rw [switchCount, switchCount, switchCountCases_congr before after value ih]

/-- Brackets do not matter: opening up a list changes neither text nor refusal. -/
theorem Splice.render_eq (h : Splice s t) : s.render family = t.render family := by
  rw [render, render, h.switchCount_eq, h.lines_eq]

/-- A list is written as its statements are, one after another, and refused with the first refusal among them. So is
its text, unless it is for a batch file and the statements hold more than one switch together: then it is refused for
that and for nothing else, whatever each of them would be alone. And trees that differ by any number of lists opened
up inside lists, at any depth, have one text or one refusal. -/
theorem lists_compose (family : Family) (body : List Statement) :
    let switches := (body.flatMap nodes).countP isSwitch
    (list body).lines family = List.flatten <$> body.mapM (lines family) ∧
      (¬ (family = .windows ∧ 1 < switches) →
        (list body).render family = String.join <$> body.mapM (render family)) ∧
      (family = .windows → 1 < switches →
        (list body).render family = .error (.tooManySwitches switches) ∧
          (Refusal.tooManySwitches switches).ground = .unsupported .windows) ∧
      ∀ s t, Relation.EqvGen Splice s t → s.render family = t.render family := by
  intro switches
  have hcount : (list body).switchCount = switches := switchCount_list_eq_countP body
  refine ⟨?_, ?_, ?_, ?_⟩
  · rw [lines]
    exact linesList_eq_mapM family body
  · intro h
    exact render_list_eq_mapM (hcount ▸ h)
  · rintro rfl h
    have := render_of_one_lt (hcount ▸ h)
    exact ⟨hcount ▸ this, rfl⟩
  · intro s t h
    induction h with
    | rel _ _ h => exact h.render_eq
    | refl => rfl
    | symm _ _ _ ih => exact ih.symm
    | trans _ _ _ _ _ ih ih' => exact ih.trans ih'

/-- Two switches that render one by one for both families, but not together for a batch file, with brackets around
the first or without. -/
theorem lists_compose_of_two_switches :
    let first := switchArg 1 [("a", list [comment "a", list [interpret "echo a"]])]
    let second := switchArg 2 [("b", exec "b" false)]
    (∃ text, first.render .windows = .ok text) ∧ (∃ text, second.render .windows = .ok text) ∧
      (list [first, second]).render .windows = .error (.tooManySwitches 2) ∧
      (list [list [first], second]).render .windows = .error (.tooManySwitches 2) ∧
      (list [first, second]).render .unix = String.join <$> [first, second].mapM (render .unix) ∧
      (list [first]).render .unix = (list [switchArg 1 [("a", list [comment "a", interpret "echo a"])]]).render .unix := by
  intro first second
  have hmany := ((lists_compose .windows [first, second]).2.2.1 rfl (by decide)).1
  have hsplice : Splice (list [list [first], second]) (list [first, second]) := .here [] [first] [second]
  have hinner : Splice (list [first]) (list [switchArg 1 [("a", list [comment "a", interpret "echo a"])]]) :=
    .inList [] [] (.inCase 1 [] [] "a" (.here [comment "a"] [interpret "echo a"] []))
  refine ⟨exists_ok_of_isOk (by decide), exists_ok_of_isOk (by decide), hmany, ?_, ?_, ?_⟩
  · exact ((lists_compose .windows []).2.2.2 _ _ (.rel _ _ hsplice)).trans hmany
  · exact (lists_compose .unix [first, second]).2.1 (by decide)
  · exact (lists_compose .unix []).2.2.2 _ _ (.rel _ _ hinner)

end Scriptwright.Statement
