/-
Which spellings are of one path, and where steps to the parent lead. Two paths
are the same when one comes of the other by leaving out names that lead nowhere,
or putting them in, one at a time (`same_iff_respelled`). Each step to the parent
leaves fewer names, so there is an end to them (`above?_eq_none`).
-/
import Mathlib.Logic.Relation
import Scriptwright.Files.Path
import Scriptwright.Proofs.Text.Lines

namespace Scriptwright.Path

variable {path parent a b : Path} {rooted : Bool} {name : String} {names before : List String} {k : Nat}

/-! ## Spellings -/

/-- A name that leads nowhere is left out: an empty one, which comes of a slash too many, or a dot. The name that a path
starts with stays, if the path is not rooted. -/
inductive Shortened : Path → Path → Prop
  | drop (rooted : Bool) (after before : List String) {name : String} (hname : name = "" ∨ name = ".")
      (hfirst : rooted = true ∨ before ≠ []) :
      Shortened ⟨rooted, after ++ name :: before⟩ ⟨rooted, after ++ before⟩

/-- Two paths differ in names that lead nowhere, and in nothing else. -/
def Respelled : Path → Path → Prop :=
  Relation.EqvGen Shortened

/-- No path that starts with a slash is taken for one that is not rooted. -/
def Spelled (path : Path) : Prop :=
  path.rooted = true ∨ path.names.getLast? ≠ some ""

theorem isIdle_iff :
    isIdle rooted name before = true ↔ name = "" ∨ name = "." ∧ (rooted = true ∨ before ≠ []) := by
  simp [isIdle]

theorem parts_drop (after before : List String) (hname : name = "" ∨ name = ".")
    (hfirst : rooted = true ∨ before ≠ []) :
    parts rooted (after ++ name :: before) = parts rooted (after ++ before) := by
  induction after with
  | nil =>
    have hidle : isIdle rooted name before = true := isIdle_iff.2 (hname.imp_right fun hdot => ⟨hdot, hfirst⟩)
    rw [List.nil_append, List.nil_append, parts, if_pos hidle]
  | cons other after ih =>
    have hsame : isIdle rooted other (after ++ name :: before) = isIdle rooted other (after ++ before) := by
      rw [Bool.eq_iff_iff, isIdle_iff, isIdle_iff]
      rcases hfirst with hrooted | hbefore
      · simp [hrooted]
      · simp [hbefore]
    rw [List.cons_append, List.cons_append, parts, parts, hsame, ih]

theorem same_iff : a.same b = true ↔ a.rooted = b.rooted ∧ parts a.rooted a.names = parts b.rooted b.names := by
  simp [same]

theorem Respelled.same (h : Respelled a b) : a.same b = true := by
  rw [same_iff]
  induction h with
  | rel _ _ h =>
    obtain ⟨rooted, after, before, hname, hfirst⟩ := h
    exact ⟨rfl, parts_drop after before hname hfirst⟩
  | refl _ => exact ⟨rfl, rfl⟩
  | symm _ _ _ ih => exact ⟨ih.1.symm, ih.2.symm⟩
  | trans _ _ _ _ _ ih ih' => exact ⟨ih.1.trans ih'.1, ih.2.trans ih'.2⟩

theorem spelled_tail (h : Spelled ⟨rooted, name :: before⟩) : Spelled ⟨rooted, before⟩ := by
  refine h.imp_right fun hlast => ?_
  cases before with
  | nil => simp
  | cons other before => rwa [List.getLast?_cons_cons] at hlast

/-- One by one all names that lead nowhere can be left out. -/
theorem respelled_parts (h : Spelled ⟨rooted, names⟩) (after : List String) :
    Respelled ⟨rooted, after ++ names⟩ ⟨rooted, after ++ parts rooted names⟩ := by
  induction names generalizing after with
  | nil => exact .refl _
  | cons name before ih =>
    have ih := ih (spelled_tail h)
    rw [parts]
    split
    · next hidle =>
      have hname : name = "" ∨ name = "." := (isIdle_iff.1 hidle).imp_right And.left
      have hfirst : rooted = true ∨ before ≠ [] := by
        rcases isIdle_iff.1 hidle with rfl | ⟨-, hfirst⟩
        · refine h.imp_right fun hlast hnil => ?_
          simp [hnil] at hlast
        · exact hfirst
      exact .trans _ _ _ (.rel _ _ (.drop rooted after before hname hfirst)) (ih after)
    · simpa using ih (after ++ [name])

/-- Paths are the same exactly when they differ in names that lead nowhere, and in nothing else. -/
theorem same_iff_respelled (ha : a.Spelled) (hb : b.Spelled) : a.same b = true ↔ Respelled a b := by
  refine ⟨fun h => ?_, Respelled.same⟩
  obtain ⟨rooted, names⟩ := a
  obtain ⟨rooted', names'⟩ := b
  obtain ⟨rfl, hparts⟩ := same_iff.1 h
  simp only at hparts
  have hleft := respelled_parts ha []
  rw [hparts] at hleft
  exact .trans _ _ _ hleft (.symm _ _ (respelled_parts hb []))

theorem spelled_ofString (text : String) : (ofString text).Spelled := by
  unfold ofString
  split
  · exact .inl rfl
  · next hslash =>
    refine .inr ?_
    simp only [namesOf]
    cases hcs : text.toList with
    | nil => simp
    | cons c cs =>
      have hc : c ≠ '/' := by
        rintro rfl
        exact hslash _ hcs
      obtain ⟨piece, rest, hpieces⟩ := List.exists_cons_of_ne_nil (Text.pieces_ne_nil '/' cs)
      rw [Text.pieces_cons hc, hpieces]
      simp

/-! ## Steps to the parent -/

/-- The path that a number of steps to the parent lead to, if there are so many. -/
def above? (path : Path) : Nat → Option Path
  | 0 => some path
  | k + 1 => (path.above? k).bind parent?

theorem settle_isSuffix (rooted : Bool) (names : List String) : settle rooted names <:+ names := by
  induction names with
  | nil => exact List.suffix_rfl
  | cons name before ih =>
    rw [settle]
    split
    · exact ih.trans (List.suffix_cons name before)
    · exact List.suffix_rfl

theorem Spelled.of_isSuffix (h : Spelled ⟨rooted, names⟩) (hsuffix : before <:+ names) : Spelled ⟨rooted, before⟩ := by
  obtain ⟨after, rfl⟩ := hsuffix
  refine h.imp_right fun hlast he => hlast ?_
  simp only at he
  simp [List.getLast?_append, he]

theorem Spelled.parent? (h : path.Spelled) (hparent : path.parent? = some parent) : parent.Spelled := by
  unfold Path.parent? at hparent
  split at hparent
  · cases hparent
  · next name before hsettle =>
    cases hparent
    have hbefore : before <:+ path.names :=
      (List.suffix_cons name before).trans (hsettle ▸ settle_isSuffix path.rooted path.names)
    exact h.of_isSuffix ((settle_isSuffix path.rooted before).trans hbefore)

theorem Spelled.above? (h : path.Spelled) (hk : path.above? k = some a) : a.Spelled := by
  induction k generalizing a with
  | zero =>
    cases hk
    exact h
  | succ k ih =>
    obtain ⟨below, hbelow, hparent⟩ := Option.bind_eq_some_iff.1 hk
    exact (ih hbelow).parent? hparent

/-- The first step may be taken first. -/
theorem above?_succ (path : Path) (k : Nat) : path.above? (k + 1) = path.parent?.bind fun up => up.above? k := by
  induction k with
  | zero =>
    rw [Path.above?, Path.above?, Option.bind_some]
    cases path.parent? <;> rfl
  | succ k ih =>
    rw [Path.above?, ih]
    cases path.parent? <;> rfl

theorem length_names_of_above? (h : path.above? k = some a) : a.names.length + k ≤ path.names.length := by
  induction k generalizing a with
  | zero =>
    cases h
    exact Nat.le_refl _
  | succ k ih =>
    obtain ⟨below, hbelow, hparent⟩ := Option.bind_eq_some_iff.1 h
    have := ih hbelow
    have := length_names_of_parent? hparent
    omega

/-- There are no more steps to the parent than names. -/
theorem above?_eq_none (path : Path) : path.above? (path.names.length + 1) = none := by
  cases h : path.above? (path.names.length + 1) with
  | none => rfl
  | some a =>
    have := length_names_of_above? h
    omega

/-- The chain has the paths in the order in which the steps come to them. -/
theorem getElem?_chain (path : Path) (k : Nat) : path.chain[k]? = path.above? k := by
  fun_induction chain path generalizing k with
  | case1 path hnone =>
    cases k with
    | zero => rfl
    | succ k => simp [above?_succ, hnone]
  | case2 path parent hparent ih =>
    cases k with
    | zero => rfl
    | succ k => rw [List.getElem?_cons_succ, ih, above?_succ, hparent, Option.bind_some]

end Scriptwright.Path
