/-
Every list of specs has a document. `Spec.members` writes a spec as an object,
which describes the spec and has no floating-point value in it, so that there is
a text that spells it (`exists_source`). Numbers have to fit: an index into 64
bits, an exit code into 32.
-/
import Scriptwright.Proofs.Document.Specs
import Scriptwright.Proofs.Json.Spelling

namespace Scriptwright

/-! ## Values -/

namespace Json

/-- No lexeme of a value is a floating-point value. -/
def IsWritten (j : Json) : Prop :=
  ∀ l ∈ j.lexemes, l.isWritten = true

theorem isWritten_moreItemLexemes {js : List Json} (h : ∀ j ∈ js, j.IsWritten) :
    ∀ l ∈ moreItemLexemes js, l.isWritten = true := by
  induction js with
  | nil => simp [moreItemLexemes, Lexeme.isWritten]
  | cons j js ih =>
    have hrest := ih fun j hj => h j (List.mem_cons_of_mem _ hj)
    rw [moreItemLexemes, List.forall_mem_cons, List.forall_mem_append]
    exact ⟨rfl, h j List.mem_cons_self, hrest⟩

theorem isWritten_array {js : List Json} (h : ∀ j ∈ js, j.IsWritten) : (array js).IsWritten := by
  rw [IsWritten, lexemes, List.forall_mem_cons]
  refine ⟨rfl, ?_⟩
  cases js with
  | nil => exact isWritten_moreItemLexemes h
  | cons j js =>
    rw [itemLexemes, List.forall_mem_append]
    exact ⟨h j List.mem_cons_self, isWritten_moreItemLexemes fun j hj => h j (List.mem_cons_of_mem _ hj)⟩

theorem isWritten_moreMemberLexemes {ms : List (String × Json)} (h : ∀ m ∈ ms, m.2.IsWritten) :
    ∀ l ∈ moreMemberLexemes ms, l.isWritten = true := by
  induction ms with
  | nil => simp [moreMemberLexemes, Lexeme.isWritten]
  | cons m ms ih =>
    obtain ⟨key, j⟩ := m
    have hrest := ih fun m hm => h m (List.mem_cons_of_mem _ hm)
    rw [moreMemberLexemes, List.forall_mem_cons, List.forall_mem_cons, List.forall_mem_cons, List.forall_mem_append]
    exact ⟨rfl, rfl, rfl, h (key, j) List.mem_cons_self, hrest⟩

theorem isWritten_object {ms : List (String × Json)} (h : ∀ m ∈ ms, m.2.IsWritten) : (object ms).IsWritten := by
  rw [IsWritten, lexemes, List.forall_mem_cons]
  refine ⟨rfl, ?_⟩
  cases ms with
  | nil => exact isWritten_moreMemberLexemes h
  | cons m ms =>
    obtain ⟨key, j⟩ := m
    rw [memberLexemes, List.forall_mem_cons, List.forall_mem_cons, List.forall_mem_append]
    exact ⟨rfl, rfl, h (key, j) List.mem_cons_self,
      isWritten_moreMemberLexemes fun m hm => h m (List.mem_cons_of_mem _ hm)⟩

end Json

open Document

namespace Spec

mutual

/-- The numbers of a spec fit. -/
def Fits : Spec → Prop
  | list body => FitsAll body
  | switchArg index cases => index ≤ Json.Numeral.maxSignificand ∧ FitsCases cases
  | leaveWith code => -0x80000000 ≤ code ∧ code ≤ 0x7FFFFFFF
  | _ => True
  termination_by structural s => s

def FitsAll : List Spec → Prop
  | [] => True
  | s :: ss => s.Fits ∧ FitsAll ss
  termination_by structural ss => ss

def FitsCases : List (String × Spec) → Prop
  | [] => True
  | (_, s) :: cs => s.Fits ∧ FitsCases cs
  termination_by structural cs => cs

end

mutual

/-- The fields of a spec, as members. -/
def fieldMembers : Spec → List (String × Json)
  | exec command replacing => [("command", ofText command), ("replace_shell", .scalar (.bool replacing))]
  | interpret text | comment text => [("text", ofText text)]
  | appendFile path payload => [("path", ofText path), ("lines", ofTexts payload)]
  | list body => [("statements", .array (objects body))]
  | switchArg index cases => [("index", ofInt index), ("cases", .array (caseObjects cases))]
  | exportVar name value => [("name", ofText name), ("value", ofText value)]
  | call function args => [("function", ofText function), ("args", ofTexts args)]
  | leaveWith code => [("code", ofInt code)]
  | leave code => [("code", ofText code)]
  termination_by structural s => s

/-- Objects for specs in order. -/
def objects : List Spec → List Json
  | [] => []
  | s :: ss => .object ((typeKey, ofText s.kind.name) :: s.fieldMembers) :: objects ss
  termination_by structural ss => ss

/-- Objects for the cases of a switch in order. -/
def caseObjects : List (String × Spec) → List Json
  | [] => []
  | (value, s) :: cs =>
    .object [("value", ofText value), ("then", .object ((typeKey, ofText s.kind.name) :: s.fieldMembers))]
      :: caseObjects cs
  termination_by structural cs => cs

end

/-- The members of an object for a spec. -/
def members (s : Spec) : List (String × Json) :=
  (typeKey, ofText s.kind.name) :: s.fieldMembers

theorem tagged_members (s : Spec) : Tagged s.kind s.members := by
  cases s <;> rfl

mutual

/-- The members written for a spec give its fields. -/
theorem fields_members (s : Spec) (h : s.Fits) : s.Fields s.members := by
  match s with
  | exec command replacing => exact ⟨rfl, .inl rfl⟩
  | interpret text | comment text | leave code => rfl
  | appendFile path payload => exact ⟨rfl, rfl⟩
  | list body => exact ⟨objects body, rfl, describesAll_objects body h⟩
  | switchArg index cases => exact ⟨rfl, caseObjects cases, rfl, describesCases_objects cases h.2⟩
  | exportVar name value => exact ⟨rfl, rfl⟩
  | call function args => exact ⟨rfl, .inl rfl⟩
  | leaveWith code => exact ⟨h, rfl⟩
  termination_by structural s

theorem describesAll_objects (ss : List Spec) (h : FitsAll ss) : DescribesAll ss (objects ss) := by
  match ss with
  | [] => trivial
  | s :: ss => exact ⟨⟨tagged_members s, fields_members s h.1⟩, describesAll_objects ss h.2⟩
  termination_by structural ss

theorem describesCases_objects (cs : List (String × Spec)) (h : FitsCases cs) : DescribesCases cs (caseObjects cs) := by
  match cs with
  | [] => trivial
  | (value, s) :: cs =>
    exact ⟨⟨rfl, s.members, rfl, tagged_members s, fields_members s h.1⟩, describesCases_objects cs h.2⟩
  termination_by structural cs

end

theorem isWritten_ofText (text : String) : (ofText text).IsWritten := by
  simp [ofText, Json.IsWritten, Json.lexemes, Json.Scalar.lexeme, Json.Lexeme.isWritten]

theorem isWritten_flag (value : Bool) : (Json.scalar (.bool value)).IsWritten := by
  simp [Json.IsWritten, Json.lexemes, Json.Scalar.lexeme, Json.Lexeme.isWritten]

theorem isWritten_ofTexts (texts : List String) : (ofTexts texts).IsWritten := by
  refine Json.isWritten_array fun j hj => ?_
  obtain ⟨text, -, rfl⟩ := List.mem_map.1 hj
  exact isWritten_ofText text

theorem isWritten_ofInt {n : Int} (hmin : -Json.Numeral.maxNegative ≤ n) (hmax : n ≤ Json.Numeral.maxSignificand) :
    (ofInt n).IsWritten := by
  simp [ofInt, Json.IsWritten, Json.lexemes, Json.Scalar.lexeme, Json.Lexeme.isWritten, hmin, hmax]

mutual

/-- The members written for a spec have a spelling. -/
theorem isWritten_members (s : Spec) (h : s.Fits) : ∀ m ∈ s.members, m.2.IsWritten := by
  rw [members, List.forall_mem_cons, fieldMembers.eq_def]
  refine ⟨isWritten_ofText _, ?_⟩
  match s with
  | exec command replacing => simp [isWritten_ofText, isWritten_flag]
  | interpret text | comment text | leave code | exportVar name value => simp [isWritten_ofText]
  | appendFile path texts | call path texts => simp [isWritten_ofText, isWritten_ofTexts]
  | list body =>
    have hbody := Json.isWritten_array (isWritten_objects body h)
    simp [hbody]
  | switchArg index cases =>
    have hindex : (ofInt index).IsWritten := isWritten_ofInt (by omega) (by exact_mod_cast h.1)
    have hcases := Json.isWritten_array (isWritten_caseObjects cases h.2)
    simp [hindex, hcases]
  | leaveWith code =>
    have hmin : (0x80000000 : Int) ≤ Json.Numeral.maxNegative := by decide
    have hmax : (0x7FFFFFFF : Int) ≤ Json.Numeral.maxSignificand := by decide
    have hcode : (ofInt code).IsWritten := isWritten_ofInt (by have := h.1; omega) (by have := h.2; omega)
    simp [hcode]
  termination_by structural s

theorem isWritten_objects (ss : List Spec) (h : FitsAll ss) : ∀ j ∈ objects ss, j.IsWritten := by
  match ss with
  | [] => simp [objects]
  | s :: ss =>
    rw [objects, List.forall_mem_cons]
    exact ⟨Json.isWritten_object (isWritten_members s h.1), isWritten_objects ss h.2⟩
  termination_by structural ss

theorem isWritten_caseObjects (cs : List (String × Spec)) (h : FitsCases cs) : ∀ j ∈ caseObjects cs, j.IsWritten := by
  match cs with
  | [] => simp [caseObjects]
  | (value, s) :: cs =>
    have hthen := Json.isWritten_object (isWritten_members s h.1)
    have hcase : ∀ m ∈ [("value", ofText value), ("then", .object s.members)], m.2.IsWritten := by
      simp [isWritten_ofText, hthen]
    rw [caseObjects, List.forall_mem_cons]
    exact ⟨Json.isWritten_object hcase, isWritten_caseObjects cs h.2⟩
  termination_by structural cs

end

/-- For specs whose numbers fit there is a document that holds them, and a text that spells it. -/
theorem exists_source (specs : List Spec) (h : FitsAll specs) :
    ∃ (items : List Json) (source : String), DescribesAll specs items ∧
      Json.Spells (Json.object [("statements", .array items)]).lexemes source.toList := by
  have hitems := Json.isWritten_array (isWritten_objects specs h)
  have hroot : (Json.object [("statements", .array (objects specs))]).IsWritten :=
    Json.isWritten_object (by simp [hitems])
  let row := (Json.object [("statements", .array (objects specs))]).lexemes
  refine ⟨objects specs, String.ofList (row.flatMap Json.Lexeme.written), describesAll_objects specs h, ?_⟩
  rw [String.toList_ofList]
  exact Json.spells_written hroot

end Spec
end Scriptwright
