/-
What a value says as a statement, said without the order in which its parts are
looked at. The members of an object give each field its value in one of them, or
by leaving it out; the elements of a list give it by their position. Records are
read accordingly (`readRecord_eq_ok_iff`, `readItems_eq_ok_iff`), and so are
statements and cases.
-/
import Mathlib.Data.List.Forall2
import Scriptwright.Proofs.Document.Specs

namespace Scriptwright.Document

/-- What a field may hold, read from a value. -/
def FieldType.Reads (t : FieldType) (j : Json) (v : t.Value) : Prop :=
  readField j t = .ok v

/-- A kind, read from a value inside a statement: its name or its number. -/
def ReadsKind (j : Json) (k : Kind) : Prop :=
  kindOf j = .ok k

/-! ## Members -/

section

variable {α : Type} {key other : String} {R : Json → α → Prop} {absent found : Option α} {a : α}
variable {j : Json} {ms : List (String × Json)}

/-- The members of an object give a key what one of them holds, or what stands for it when none is there. -/
def GivesBy (key : String) (R : Json → α → Prop) (absent : Option α) (ms : List (String × Json)) (a : α) : Prop :=
  (∃ j, valuesOf key ms = [j] ∧ R j a) ∨ valuesOf key ms = [] ∧ absent = some a

/-- What a key gives has been found, and does not come again; or it is still to come. -/
def GivesStill (key : String) (R : Json → α → Prop) (absent : Option α) :
    Option α → List (String × Json) → α → Prop
  | some b, ms, a => b = a ∧ valuesOf key ms = []
  | none, ms, a => GivesBy key R absent ms a

theorem givesStill_nil : GivesStill key R absent found [] a ↔ (found <|> absent) = some a := by
  cases found <;> simp [GivesStill, GivesBy]

theorem givesStill_cons_of_ne (h : other ≠ key) :
    GivesStill key R absent found ((other, j) :: ms) a ↔ GivesStill key R absent found ms a := by
  cases found <;> simp only [GivesStill, GivesBy, valuesOf_cons_of_ne h]

theorem givesStill_cons_self :
    GivesStill key R absent found ((key, j) :: ms) a ↔
      found = none ∧ ∃ b, R j b ∧ GivesStill key R absent (some b) ms a := by
  cases found with
  | some b => simp [GivesStill, valuesOf_cons_self]
  | none =>
    simp only [GivesStill, GivesBy, valuesOf_cons_self, List.cons.injEq, reduceCtorEq, false_and, or_false, true_and]
    constructor
    · rintro ⟨j', ⟨rfl, hnone⟩, hR⟩
      exact ⟨a, hR, rfl, hnone⟩
    · rintro ⟨b, hR, rfl, hnone⟩
      exact ⟨j, ⟨rfl, hnone⟩, hR⟩

end

/-! ## Records -/

/-- The members of an object give the fields of a record what they hold, of which some is known. -/
def FillsAll (ms : List (String × Json)) : (fields : List Field) → Slots fields → Record fields → Prop
  | [], _, _ => True
  | field :: fields, (found, slots), (v, record) =>
    GivesStill field.name field.type.Reads field.absent found ms v ∧
      FillsAll ms fields slots record

/-- The elements of a list give the fields of a record what they hold, in order; at the end some may be left out. -/
def ListsAll : List Json → (fields : List Field) → Record fields → Prop
  | [], [], _ => True
  | [], field :: fields, (v, record) => field.absent = some v ∧ ListsAll [] fields record
  | _ :: _, [], _ => False
  | j :: js, field :: fields, (v, record) => field.type.Reads j v ∧ ListsAll js fields record

section

variable {ms : List (String × Json)} {fields : List Field} {slots : Slots fields} {record : Record fields}

theorem fillsAll_nil : FillsAll [] fields slots record ↔ slots.finish = .ok record := by
  induction fields with
  | nil => exact ⟨fun _ => rfl, fun _ => trivial⟩
  | cons field fields ih =>
    obtain ⟨found, slots⟩ := slots
    obtain ⟨v, record⟩ := record
    rw [FillsAll, givesStill_nil, ih, Slots.finish, Iff.comm]
    cases found <|> field.absent with
    | none => simp
    | some w =>
      rw [Option.some.injEq]
      exact pair_ok_iff

theorem fillsAll_cons_of_forall_ne {key : String} {j : Json} (h : ∀ f ∈ fields, f.name ≠ key) :
    FillsAll ((key, j) :: ms) fields slots record ↔ FillsAll ms fields slots record := by
  induction fields with
  | nil => rfl
  | cons field fields ih =>
    obtain ⟨found, slots⟩ := slots
    obtain ⟨v, record⟩ := record
    obtain ⟨hfirst, hrest⟩ := List.forall_mem_cons.1 h
    rw [FillsAll, FillsAll, givesStill_cons_of_ne hfirst.symm, ih hrest]

/-- Taking the value of a key and going on is having its member in front. -/
theorem exists_put_iff {key : String} {j : Json} (hnames : (fields.map Field.name).Nodup) :
    (∃ next, Slots.put key (readField j) fields slots = .ok next ∧ FillsAll ms fields next record) ↔
      FillsAll ((key, j) :: ms) fields slots record := by
  induction fields with
  | nil => simp [FillsAll, Slots.put]
  | cons field fields ih =>
    obtain ⟨found, slots⟩ := slots
    obtain ⟨v, record⟩ := record
    rw [List.map_cons, List.nodup_cons] at hnames
    obtain ⟨hfield, hnames⟩ := hnames
    by_cases hkey : field.name = key
    · subst hkey
      -- No later field has this name, so the member is of no interest to them.
      have hothers : ∀ f ∈ fields, f.name ≠ field.name := fun f hf hname => hfield (List.mem_map.2 ⟨f, hf, hname⟩)
      rw [Slots.put_of_eq rfl, FillsAll, givesStill_cons_self, fillsAll_cons_of_forall_ne hothers]
      cases found with
      | some w => simp
      | none =>
        constructor
        · rintro ⟨next, hput, hfills⟩
          obtain ⟨w, hw, hnext⟩ := bind_ok_iff.1 hput
          cases hnext
          exact ⟨⟨rfl, w, hw, hfills.1⟩, hfills.2⟩
        · rintro ⟨⟨-, w, hw, hown⟩, hothers⟩
          exact ⟨.cons (some w) slots, bind_ok_iff.2 ⟨w, hw, rfl⟩, hown, hothers⟩
    · rw [Slots.put_of_ne hkey, FillsAll, givesStill_cons_of_ne (Ne.symm hkey), ← ih hnames]
      constructor
      · rintro ⟨next, hput, hfills⟩
        obtain ⟨slots', hslots, hnext⟩ := bind_ok_iff.1 hput
        cases hnext
        exact ⟨hfills.1, slots', hslots, hfills.2⟩
      · rintro ⟨hown, slots', hslots, hothers⟩
        exact ⟨.cons found slots', bind_ok_iff.2 ⟨slots', hslots, rfl⟩, hown, hothers⟩

theorem readMembers_finish_eq_ok_iff (hnames : (fields.map Field.name).Nodup) :
    (readMembers ms fields slots >>= Slots.finish fields) = .ok record ↔ FillsAll ms fields slots record := by
  induction ms generalizing slots with
  | nil => exact fillsAll_nil.symm
  | cons m ms ih =>
    obtain ⟨key, j⟩ := m
    rw [readMembers_eq_bind, bind_assoc, bind_ok_iff, ← exists_put_iff hnames]
    simp only [ih]

/-- The members of an object give every field of a record what it holds. -/
def GivesAll (ms : List (String × Json)) (fields : List Field) (record : Record fields) : Prop :=
  FillsAll ms fields (.empty fields) record

theorem readRecord_eq_ok_iff (hnames : (fields.map Field.name).Nodup) :
    readRecord ms fields = .ok record ↔ GivesAll ms fields record :=
  readMembers_finish_eq_ok_iff hnames

theorem fillsAll_congr {ms' : List (String × Json)} (h : ∀ f ∈ fields, valuesOf f.name ms' = valuesOf f.name ms) :
    FillsAll ms' fields slots record ↔ FillsAll ms fields slots record := by
  induction fields with
  | nil => rfl
  | cons field fields ih =>
    obtain ⟨found, slots⟩ := slots
    obtain ⟨v, record⟩ := record
    obtain ⟨hfirst, hrest⟩ := List.forall_mem_cons.1 h
    rw [FillsAll, FillsAll, ih hrest]
    cases found <;> simp only [GivesStill, GivesBy, hfirst]

theorem readItems_eq_ok_iff {js : List Json} {name : String} {count length : Nat} :
    readItems js fields name count length = .ok record ↔ ListsAll js fields record := by
  induction js generalizing fields with
  | nil =>
    -- The elements have come to an end; the fields that are left take what stands for them when absent.
    rw [readItems]
    induction fields with
    | nil => exact ⟨fun _ => trivial, fun _ => rfl⟩
    | cons field fields ih =>
      obtain ⟨v, record⟩ := record
      rw [Record.ofAbsent, ListsAll]
      cases field.absent with
      | none => simp
      | some w =>
        rw [← ih, Option.some.injEq]
        exact pair_ok_iff
  | cons j js ih =>
    cases fields with
    | nil => simp [readItems, ListsAll]
    | cons field fields =>
      obtain ⟨v, record⟩ := record
      rw [readItems, ListsAll, ← ih]
      exact bind_pair_ok_iff

end

/-! ## Statements -/

theorem nodup_names (k : Kind) : (k.fields.map Field.name).Nodup := by
  cases k <;> decide

theorem name_ne_typeKey {k : Kind} : ∀ f ∈ k.fields, f.name ≠ typeKey := by
  cases k <;> decide

theorem kindOfMembers_eq_ok_iff {found : Option Kind} {ms : List (String × Json)} {k : Kind} :
    kindOfMembers found ms = .ok k ↔ GivesStill typeKey ReadsKind none found ms k := by
  induction ms generalizing found with
  | nil =>
    rw [givesStill_nil]
    cases found <;> simp [kindOfMembers]
  | cons m ms ih =>
    obtain ⟨key, j⟩ := m
    by_cases hkey : key = typeKey
    · rw [hkey, givesStill_cons_self]
      cases found with
      | some b => simp [kindOfMembers]
      | none =>
        rw [kindOfMembers, if_pos rfl]
        simp only [bind_ok_iff, ih, ReadsKind, true_and]
    · rw [givesStill_cons_of_ne hkey, ← ih]
      simp only [kindOfMembers, if_neg hkey]

/-- What a value says as a statement whose kind is given in some way: as an object in which one member gives the kind
and others the fields, or as a list of the kind and the fields. -/
def StatementBy (K : Json → Kind → Prop) : Json → Statement → Prop
  | .object ms, s =>
    ∃ k record, GivesBy typeKey K none ms k ∧ GivesAll ms k.fields record ∧ statementOf k record = .ok s
  | .array (tag :: js), s => ∃ k record, K tag k ∧ ListsAll js k.fields record ∧ statementOf k record = .ok s
  | _, _ => False

theorem statementOfMembers_eq_ok_iff {ms : List (String × Json)} {k : Kind} {s : Statement} :
    (do
      let slots ← readMembers ms k.fields (.empty k.fields)
      statementOf k (← slots.finish)) = .ok s ↔
      ∃ record, GivesAll ms k.fields record ∧ statementOf k record = .ok s := by
  rw [← bind_assoc, bind_ok_iff]
  simp only [← readRecord_eq_ok_iff (nodup_names k), readRecord]

theorem statementOfItems_eq_ok_iff {js : List Json} {k : Kind} {name : String} {count length : Nat} {s : Statement} :
    (do statementOf k (← readItems js k.fields name count length)) = .ok s ↔
      ∃ record, ListsAll js k.fields record ∧ statementOf k record = .ok s := by
  rw [bind_ok_iff]
  simp only [readItems_eq_ok_iff]

/-- A statement inside another one is read as what its value says. -/
theorem readField_statement_iff {j : Json} {s : Statement} :
    readField j .statement = .ok s ↔ StatementBy ReadsKind j s := by
  cases j with
  | scalar value => exact iff_of_false (by rintro ⟨⟩) id
  | array items =>
    cases items with
    | nil => exact iff_of_false (by rintro ⟨⟩) id
    | cons tag items =>
      rw [readField, StatementBy, bind_ok_iff]
      simp only [statementOfItems_eq_ok_iff, ReadsKind, exists_and_left]
  | object ms =>
    rw [readField, StatementBy, bind_ok_iff]
    simp only [statementOfMembers_eq_ok_iff, kindOfMembers_eq_ok_iff, GivesStill, exists_and_left]

/-! ## Cases -/

/-- What a value says as a name, or another text, and something else: as an object in which two members give them, or as
a list of both. -/
def PairOf {α : Type} (first second : String) (R : Json → α → Prop) : Json → String × α → Prop
  | .object ms, (text, a) => GivesBy first FieldType.text.Reads none ms text ∧ GivesBy second R none ms a
  | .array [j, j'], (text, a) => FieldType.text.Reads j text ∧ R j' a
  | _, _ => False

/-- A case is read as what its value says. -/
theorem readCase_eq_ok_iff {j : Json} {c : String × Statement} :
    readCase j = .ok c ↔ PairOf "value" "then" FieldType.statement.Reads j c := by
  obtain ⟨value, body⟩ := c
  let record : Record caseFields := .cons value (.cons body .nil)
  have hrecord : ∀ x : Except Mismatch (Record caseFields),
      (x >>= fun record => pure (record.1, record.2.1)) = .ok (value, body) ↔ x = .ok record := by
    intro x
    rw [bind_ok_iff]
    constructor
    · rintro ⟨⟨value', body', ⟨⟩⟩, hx, hc⟩
      cases hc
      exact hx
    · intro hx
      exact ⟨_, hx, rfl⟩
  cases j with
  | scalar value => exact iff_of_false (by rintro ⟨⟩) id
  | array items =>
    have hread : readCase (.array items) = readItems items caseFields caseRecord caseFields.length items.length >>=
        fun record => pure (record.1, record.2.1) := by
      rw [readCase]
      rfl
    rw [hread, hrecord, readItems_eq_ok_iff]
    rcases items with _ | ⟨j, _ | ⟨j', _ | ⟨j'', js⟩⟩⟩
    · exact iff_of_false (by rintro ⟨⟨⟩, -⟩) id
    · exact iff_of_false (by rintro ⟨-, ⟨⟩, -⟩) id
    · exact ⟨fun h => ⟨h.1, h.2.1⟩, fun h => ⟨h.1, h.2, trivial⟩⟩
    · exact iff_of_false (fun h => h.2.2) id
  | object ms =>
    have hread : readCase (.object ms) = readRecord ms caseFields >>= fun record => pure (record.1, record.2.1) := by
      rw [readCase, readRecord, bind_assoc]
      rfl
    rw [hread, hrecord, readRecord_eq_ok_iff (by decide)]
    exact ⟨fun h => ⟨h.1, h.2.1⟩, fun h => ⟨h.1, h.2, trivial⟩⟩

/-! ## Lists -/

/-- What a value says as a list. -/
def ListOf {α : Type} (R : Json → α → Prop) (j : Json) (as : List α) : Prop :=
  ∃ js, j = .array js ∧ List.Forall₂ R js as

/-- Reading values one after another is reading each of them. -/
theorem readAll_eq_ok_iff {α : Type} {R : Json → α → Prop} {read : Json → Except Mismatch α}
    (readAll : List Json → Except Mismatch (List α)) (hread : ∀ j a, read j = .ok a ↔ R j a)
    (hnil : readAll [] = .ok []) (hcons : ∀ j js, readAll (j :: js) = do
      let a ← read j
      return a :: (← readAll js)) {js : List Json} {as : List α} : readAll js = .ok as ↔ List.Forall₂ R js as := by
  induction js generalizing as with
  | nil => rw [hnil, List.forall₂_nil_left_iff, Except.ok.injEq, eq_comm]
  | cons j js ih =>
    rw [hcons, bind_cons_ok_iff, List.forall₂_cons_left_iff]
    simp only [hread, ih]

theorem listOf_array_iff {α : Type} {R : Json → α → Prop} {js : List Json} {as : List α} :
    ListOf R (.array js) as ↔ List.Forall₂ R js as := by
  simp [ListOf]

theorem reads_text_iff {j : Json} {text : String} : FieldType.text.Reads j text ↔ textOf j = .ok text := by
  cases j <;> rfl

theorem reads_texts_iff {j : Json} {texts : List String} :
    FieldType.texts.Reads j texts ↔ ListOf FieldType.text.Reads j texts := by
  cases j with
  | scalar | object => exact iff_of_false (by rintro ⟨⟩) (by rintro ⟨_, ⟨⟩, -⟩)
  | array items =>
    rw [listOf_array_iff]
    exact readAll_eq_ok_iff (List.mapM textOf) (fun _ _ => reads_text_iff.symm) rfl fun _ _ => List.mapM_cons

theorem reads_statements_iff {j : Json} {body : List Statement} :
    FieldType.statements.Reads j body ↔ ListOf FieldType.statement.Reads j body := by
  cases j with
  | scalar | object => exact iff_of_false (by rintro ⟨⟩) (by rintro ⟨_, ⟨⟩, -⟩)
  | array items =>
    rw [listOf_array_iff]
    exact readAll_eq_ok_iff readStatements (fun _ _ => Iff.rfl) rfl fun _ _ => rfl

theorem reads_cases_iff {j : Json} {cases : List (String × Statement)} :
    FieldType.cases.Reads j cases ↔ ListOf (PairOf "value" "then" FieldType.statement.Reads) j cases := by
  cases j with
  | scalar | object => exact iff_of_false (by rintro ⟨⟩) (by rintro ⟨_, ⟨⟩, -⟩)
  | array items =>
    rw [listOf_array_iff]
    exact readAll_eq_ok_iff readCases (fun _ _ => readCase_eq_ok_iff) rfl fun _ _ => rfl

end Scriptwright.Document
