/-
The physical lines of a script's text, which are what its reader sees: the pieces
that the terminator of the family ends, wherever it comes from. Where lines are
joined, each of them is cut on its own, so a line without line feeds is one
physical line (`physicalLines_join`).
-/
import Mathlib.Data.List.Basic
import Scriptwright.Line
import Scriptwright.Proofs.Text.Lines

namespace Scriptwright

namespace Text

/-- The pieces of a text between the places of a carriage return and a line feed. -/
def wholePieces : List Char → List (List Char)
  | [] => [[]]
  | '\r' :: '\n' :: cs => [] :: wholePieces cs
  | c :: cs => (wholePieces cs).modifyHead (c :: ·)

/-- The pieces of a text between the places of a family's terminator. -/
def terminated : Family → List Char → List (List Char)
  | .unix => pieces '\n'
  | .windows => wholePieces

/-- The physical lines of a text for a family: its pieces up to each terminator. -/
def physicalLines (family : Family) (text : String) : List String :=
  (terminated family text.toList).dropLast.map String.ofList

variable {cs : List Char}

theorem wholePieces_cons {c : Char} (h : ¬ (c = '\r' ∧ cs.head? = some '\n')) :
    wholePieces (c :: cs) = (wholePieces cs).modifyHead (c :: ·) := by
  rw [wholePieces]
  rintro rest rfl rfl
  exact h ⟨rfl, rfl⟩

theorem wholePieces_ne_nil (cs : List Char) : wholePieces cs ≠ [] := by
  fun_induction wholePieces cs with
  | case1 => simp
  | case2 => simp
  | case3 c cs _ ih => simpa using ih

theorem wholePieces_of_not_mem (h : '\n' ∉ cs) : wholePieces cs = [cs] := by
  fun_induction wholePieces cs with
  | case1 => rfl
  | case2 => simp at h
  | case3 c cs _ ih => rw [ih fun hm => h (List.mem_cons_of_mem _ hm)]; rfl

theorem terminated_of_not_mem (h : '\n' ∉ cs) (family : Family) : terminated family cs = [cs] := by
  cases family with
  | unix => exact pieces_of_not_mem h
  | windows => exact wholePieces_of_not_mem h

theorem modifyHead_append {α : Type} {l : List α} (h : l ≠ []) (f : α → α) (rest : List α) :
    (l ++ rest).modifyHead f = l.modifyHead f ++ rest := by
  cases l with
  | nil => exact absurd rfl h
  | cons a l => rfl

/-- At a terminator a text is cut whatever stands before it; not even a carriage return there takes part. -/
theorem terminated_append (family : Family) (a b : List Char) :
    terminated family (a ++ (family.lineTerminator.toList ++ b)) = terminated family a ++ terminated family b := by
  cases family with
  | unix =>
    change pieces '\n' (a ++ '\n' :: b) = pieces '\n' a ++ pieces '\n' b
    induction a with
    | nil => simp [pieces]
    | cons c a ih =>
      by_cases hc : c = '\n'
      · rw [List.cons_append, pieces, pieces, if_pos hc, if_pos hc, ih, List.cons_append]
      · rw [List.cons_append, pieces_cons hc, pieces_cons hc, ih, modifyHead_append (pieces_ne_nil '\n' a)]
  | windows =>
    change wholePieces (a ++ '\r' :: '\n' :: b) = wholePieces a ++ wholePieces b
    fun_induction wholePieces a with
    | case1 => rw [List.nil_append, wholePieces]; rfl
    | case2 a ih => rw [List.cons_append, List.cons_append, wholePieces, ih, List.cons_append]
    | case3 c a hpair ih =>
      have hhead : ¬ (c = '\r' ∧ (a ++ '\r' :: '\n' :: b).head? = some '\n') := by
        rintro ⟨rfl, hhead⟩
        cases a with
        | nil => cases hhead
        | cons d a =>
          obtain rfl : d = '\n' := Option.some.inj hhead
          exact hpair a rfl rfl
      rw [List.cons_append, wholePieces_cons hhead, ih, modifyHead_append (wholePieces_ne_nil a)]

theorem terminated_join (family : Family) (ls : List Line) :
    terminated family (Line.join family ls).toList = ls.flatMap (fun l => terminated family l.text.toList) ++ [[]] := by
  induction ls with
  | nil => cases family <;> rfl
  | cons l ls ih =>
    have hcons : (Line.join family (l :: ls)).toList
        = l.text.toList ++ (family.lineTerminator.toList ++ (Line.join family ls).toList) := by simp [Line.join]
    rw [hcons, terminated_append, ih, List.flatMap_cons, List.append_assoc]

/-- The physical lines of joined lines are those of each. -/
theorem physicalLines_join (family : Family) (ls : List Line) :
    physicalLines family (Line.join family ls)
      = ls.flatMap fun l => (terminated family l.text.toList).map String.ofList := by
  rw [physicalLines, terminated_join, List.dropLast_concat, List.map_flatMap]

/-- Lines without line feeds are physical lines as they are, whatever stands before and behind. -/
theorem physicalLines_join_append {own : List Line} (h : ∀ l ∈ own, '\n' ∉ l.text.toList) (family : Family)
    (before behind : List Line) :
    physicalLines family (Line.join family (before ++ own ++ behind))
      = physicalLines family (Line.join family before) ++ own.map Line.text
        ++ physicalLines family (Line.join family behind) := by
  have hown : own.flatMap (fun l => (terminated family l.text.toList).map String.ofList) = own.map Line.text := by
    rw [List.map_eq_flatMap]
    refine List.flatMap_congr fun l hl => ?_
    rw [terminated_of_not_mem (h l hl), List.map_singleton, String.ofList_toList]
  simp only [physicalLines_join, List.flatMap_append, hown]

example : physicalLines .windows "a\r\r\nb\nc\r\n\r\nd" = ["a\r", "b\nc", ""] := by decide

end Text
end Scriptwright
