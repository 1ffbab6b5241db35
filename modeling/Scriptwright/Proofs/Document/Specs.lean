/-
Statements described by objects. A `Spec` is what a statement is to be, before
any constructor has looked at it; `Spec.build` hands it to the constructors,
parts before wholes. An object that describes a spec has the members of its
kind, in any order and with others between them. Reading it gives what building
the spec gives, the statement or the first refusal (`readAs_of_fields`).
-/
import Scriptwright.Document
import Scriptwright.Proofs.Statement.Lines

namespace Scriptwright

/-- What a statement is to be. -/
inductive Spec where
  | exec (command : String) (replacing : Bool)
  | interpret (text : String)
  | appendFile (path : String) (payload : List String)
  | list (body : List Spec)
  | switchArg (index : Nat) (cases : List (String × Spec))
  | exportVar (name value : String)
  | call (function : String) (args : List String)
  | comment (text : String)
  | leaveWith (code : Int)
  | leave (code : String)

namespace Spec

/-- The kind of the statement. -/
def kind : Spec → Kind
  | exec .. => .exec
  | interpret _ => .interpret
  | appendFile .. => .appendFile
  | list _ => .list
  | switchArg .. => .switchArg
  | exportVar .. => .exportVar
  | call .. => .call
  | comment _ => .comment
  | leaveWith _ | leave _ => .leave

mutual

/-- Builds a statement with the constructors, its parts first. -/
def build : Spec → Except Refusal Statement
  | exec command replacing => .ok (.exec command replacing)
  | interpret text => .ok (.interpret text)
  | appendFile path payload => Statement.makeAppendFile path payload
  | list body => do
    let body ← buildAll body
    return .list body
  | switchArg index cases => do
    let cases ← buildCases cases
    Statement.makeSwitch index cases
  | exportVar name value => Statement.makeExport name value
  | call function args => Statement.makeCall function args
  | comment text => .ok (.comment text)
  | leaveWith code => .ok (Statement.leaveWith code)
  | leave code => Statement.makeLeave code
  termination_by structural s => s

/-- Builds statements in order. -/
def buildAll : List Spec → Except Refusal (List Statement)
  | [] => .ok []
  | s :: ss => do
    let first ← s.build
    let rest ← buildAll ss
    return first :: rest
  termination_by structural ss => ss

/-- Builds the statements of cases in order. -/
def buildCases : List (String × Spec) → Except Refusal (List (String × Statement))
  | [] => .ok []
  | (value, s) :: cs => do
    let first ← s.build
    let rest ← buildCases cs
    return (value, first) :: rest
  termination_by structural cs => cs

end

end Spec

namespace Document

/-! ## Objects -/

/-- The values of the members of a key, in order. -/
def valuesOf (key : String) (members : List (String × Json)) : List Json :=
  (members.filter fun m => m.1 == key).map Prod.snd

/-- A text, as a value. -/
def ofText (text : String) : Json :=
  .scalar (.string text)

/-- Texts, as a list. -/
def ofTexts (texts : List String) : Json :=
  .array (texts.map ofText)

/-- A whole number, as a value. -/
def ofInt (value : Int) : Json :=
  .scalar (.number (.integer value))

/-- The members of an object say which kind of statement it is. -/
def Tagged (k : Kind) (members : List (String × Json)) : Prop :=
  valuesOf typeKey members = [ofText k.name]

end Document

open Document

namespace Spec

mutual

/-- The members of an object give the fields of a spec: each is there once, unless it may be left out and is. -/
def Fields : Spec → List (String × Json) → Prop
  | exec command replacing, ms =>
    valuesOf "command" ms = [ofText command] ∧
      (valuesOf "replace_shell" ms = [.scalar (.bool replacing)] ∨
        valuesOf "replace_shell" ms = [] ∧ replacing = false)
  | interpret text, ms | comment text, ms => valuesOf "text" ms = [ofText text]
  | appendFile path payload, ms => valuesOf "path" ms = [ofText path] ∧ valuesOf "lines" ms = [ofTexts payload]
  | list body, ms => ∃ items, valuesOf "statements" ms = [.array items] ∧ DescribesAll body items
  | switchArg index cases, ms =>
    valuesOf "index" ms = [ofInt index] ∧ ∃ items, valuesOf "cases" ms = [.array items] ∧ DescribesCases cases items
  | exportVar name value, ms => valuesOf "name" ms = [ofText name] ∧ valuesOf "value" ms = [ofText value]
  | call function args, ms =>
    valuesOf "function" ms = [ofText function] ∧
      (valuesOf "args" ms = [ofTexts args] ∨ valuesOf "args" ms = [] ∧ args = [])
  | leaveWith code, ms => (-0x80000000 ≤ code ∧ code ≤ 0x7FFFFFFF) ∧ valuesOf "code" ms = [ofInt code]
  | leave code, ms => valuesOf "code" ms = [ofText code]
  termination_by structural s => s

/-- Objects that describe specs in order. -/
def DescribesAll : List Spec → List Json → Prop
  | [], [] => True
  | s :: ss, .object ms :: js => (Tagged s.kind ms ∧ s.Fields ms) ∧ DescribesAll ss js
  | _, _ => False
  termination_by structural ss => ss

/-- Objects that describe cases in order: each has the value and what is to be done then. -/
def DescribesCases : List (String × Spec) → List Json → Prop
  | [], [] => True
  | (value, s) :: cs, .object ms :: js =>
    (valuesOf "value" ms = [ofText value] ∧
      ∃ then_, valuesOf "then" ms = [.object then_] ∧ Tagged s.kind then_ ∧ s.Fields then_) ∧ DescribesCases cs js
  | _, _ => False
  termination_by structural cs => cs

end

end Spec

namespace Document

variable {key : String} {ms : List (String × Json)} {j : Json}

@[simp] theorem valuesOf_nil (key : String) : valuesOf key [] = [] := rfl

theorem valuesOf_cons_self (key : String) (j : Json) (ms : List (String × Json)) :
    valuesOf key ((key, j) :: ms) = j :: valuesOf key ms := by
  simp [valuesOf]

theorem valuesOf_cons_of_ne {other : String} (h : other ≠ key) (j : Json) (ms : List (String × Json)) :
    valuesOf key ((other, j) :: ms) = valuesOf key ms := by
  simp [valuesOf, h]

/-! ## Kinds -/

theorem kindOf_name (k : Kind) : kindOf (ofText k.name) = .ok k := by
  simp only [ofText, kindOf, Kind.ofName?_name]

theorem kindOfMembers_some {k : Kind} (h : valuesOf typeKey ms = []) : kindOfMembers (some k) ms = .ok k := by
  induction ms with
  | nil => rfl
  | cons m ms ih =>
    obtain ⟨key, j⟩ := m
    by_cases hkey : key = typeKey
    · rw [hkey, valuesOf_cons_self] at h
      cases h
    · rw [valuesOf_cons_of_ne hkey] at h
      rw [kindOfMembers, if_neg hkey, ih h]

theorem kindOfMembers_of_tagged {k : Kind} (h : Tagged k ms) : kindOfMembers none ms = .ok k := by
  induction ms with
  | nil => cases h
  | cons m ms ih =>
    obtain ⟨key, j⟩ := m
    rw [Tagged] at h ih
    by_cases hkey : key = typeKey
    · rw [hkey, valuesOf_cons_self, List.cons.injEq] at h
      rw [kindOfMembers, if_pos hkey, h.1, kindOf_name]
      exact kindOfMembers_some h.2
    · rw [valuesOf_cons_of_ne hkey] at h
      rw [kindOfMembers, if_neg hkey, ih h]

/-! ## Records -/

/-- The record of the members of an object. -/
def readRecord (ms : List (String × Json)) (fields : List Field) : Except Mismatch (Record fields) := do
  let slots ← readMembers ms fields (.empty fields)
  slots.finish

variable {field : Field} {fields : List Field}

/-- A key that is no field is of no interest. -/
theorem put_of_forall_ne {read : (t : FieldType) → Except Mismatch t.Value} (h : ∀ f ∈ fields, f.name ≠ key)
    (slots : Slots fields) : Slots.put key read fields slots = .ok slots := by
  induction fields with
  | nil => rfl
  | cons f fs ih =>
    obtain ⟨value, slots⟩ := slots
    rw [Slots.put_of_ne (h f List.mem_cons_self), ih fun g hg => h g (List.mem_cons_of_mem _ hg)]
    rfl

theorem readMembers_eq_bind (key : String) (j : Json) (ms : List (String × Json)) (fields : List Field)
    (slots : Slots fields) :
    readMembers ((key, j) :: ms) fields slots = Slots.put key (readField j) fields slots >>= readMembers ms fields :=
  rfl

/-- A field that no member gives stays as it is, whatever the other fields are. -/
theorem readMembers_cons_of_nil (h : valuesOf field.name ms = []) (value : Option field.type.Value)
    (slots : Slots fields) :
    readMembers ms (field :: fields) (.cons value slots) = Slots.cons value <$> readMembers ms fields slots := by
  induction ms generalizing slots with
  | nil => rfl
  | cons m ms ih =>
    obtain ⟨key, j⟩ := m
    by_cases hkey : key = field.name
    · rw [hkey, valuesOf_cons_self] at h
      cases h
    · rw [valuesOf_cons_of_ne hkey] at h
      rw [readMembers_eq_bind, readMembers_eq_bind, Slots.put_of_ne (Ne.symm hkey)]
      cases hput : Slots.put key (readField j) fields slots with
      | error mismatch => rfl
      | ok slots' => exact ih h slots'

/-- A field that one member gives, and that is read, does not touch the other fields. -/
theorem readMembers_cons {v : field.type.Value} (hother : ∀ f ∈ fields, f.name ≠ field.name)
    (h : valuesOf field.name ms = [j]) (hread : readField j field.type = .ok v) (slots : Slots fields) :
    readMembers ms (field :: fields) (.cons none slots) = Slots.cons (some v) <$> readMembers ms fields slots := by
  induction ms generalizing slots with
  | nil => cases h
  | cons m ms ih =>
    obtain ⟨key, j'⟩ := m
    by_cases hkey : key = field.name
    · rw [hkey, valuesOf_cons_self, List.cons.injEq] at h
      obtain ⟨rfl, h⟩ := h
      rw [hkey, readMembers_eq_bind, readMembers_eq_bind, Slots.put_of_eq rfl, put_of_forall_ne hother]
      simp only [hread]
      exact readMembers_cons_of_nil h (some v) slots
    · rw [valuesOf_cons_of_ne hkey] at h
      rw [readMembers_eq_bind, readMembers_eq_bind, Slots.put_of_ne (Ne.symm hkey)]
      cases hput : Slots.put key (readField j') fields slots with
      | error mismatch => rfl
      | ok slots' => exact ih h slots'

/-- The members give a field its value: in one of them, or by leaving it out. -/
def Gives (ms : List (String × Json)) (field : Field) (v : field.type.Value) : Prop :=
  (∃ j, valuesOf field.name ms = [j] ∧ readField j field.type = .ok v) ∨
    valuesOf field.name ms = [] ∧ field.absent = some v

theorem Gives.of_value {v : field.type.Value} (h : valuesOf field.name ms = [j])
    (hread : readField j field.type = .ok v) : Gives ms field v :=
  .inl ⟨j, h, hread⟩

theorem readRecord_cons {v : field.type.Value} (hother : ∀ f ∈ fields, f.name ≠ field.name) (h : Gives ms field v) :
    readRecord ms (field :: fields) = Record.cons v <$> readRecord ms fields := by
  rcases h with ⟨j, hvalue, hread⟩ | ⟨hnone, habsent⟩
  · have hmembers := readMembers_cons hother hvalue hread (.empty fields)
    rw [readRecord, readRecord, Slots.empty, hmembers]
    cases readMembers ms fields (.empty fields) with
    | error mismatch => rfl
    | ok slots => rfl
  · have hmembers := readMembers_cons_of_nil hnone none (Slots.empty fields)
    rw [readRecord, readRecord, Slots.empty, hmembers]
    cases readMembers ms fields (.empty fields) with
    | error mismatch => rfl
    | ok slots =>
      have hfinish : Slots.finish (field :: fields) (.cons none slots) = Record.cons v <$> slots.finish := by
        rw [Slots.finish, habsent]
        rfl
      exact hfinish

theorem readRecord_nil (ms : List (String × Json)) : readRecord ms [] = .ok .nil := by
  have hmembers : ∀ slots : Slots [], readMembers ms [] slots = .ok slots := by
    induction ms with
    | nil => exact fun slots => rfl
    | cons m ms ih => exact ih
  rw [readRecord, hmembers]
  rfl

theorem readMembers_eq_error {mismatch : Mismatch} (h : valuesOf field.name ms = [j])
    (hread : readField j field.type = .error mismatch) (slots : Slots []) :
    readMembers ms [field] (.cons none slots) = .error mismatch := by
  induction ms with
  | nil => cases h
  | cons m ms ih =>
    obtain ⟨key, j'⟩ := m
    by_cases hkey : key = field.name
    · rw [hkey, valuesOf_cons_self, List.cons.injEq] at h
      obtain ⟨rfl, -⟩ := h
      rw [hkey, readMembers_eq_bind, Slots.put_of_eq rfl]
      simp only [hread]
      rfl
    · rw [valuesOf_cons_of_ne hkey] at h
      rw [readMembers_eq_bind, Slots.put_of_ne (Ne.symm hkey)]
      exact ih h

/-- In a record of one field, what goes wrong with the field goes wrong with the record. -/
theorem readRecord_single (h : valuesOf field.name ms = [j]) :
    readRecord ms [field] = (fun v => Record.cons v .nil) <$> readField j field.type := by
  cases hread : readField j field.type with
  | ok v =>
    rw [readRecord_cons (fun f hf => absurd hf List.not_mem_nil) (.of_value h hread), readRecord_nil]
    rfl
  | error mismatch =>
    rw [readRecord, Slots.empty, readMembers_eq_error h hread]
    rfl

/-! ## Specs -/

theorem textsOf_ofTexts (texts : List String) : textsOf (ofTexts texts) = .ok texts := by
  rw [ofTexts, textsOf]
  induction texts with
  | nil => rfl
  | cons text texts ih =>
    rw [List.map_cons, List.mapM_cons, ih]
    rfl

theorem indexOf_ofInt (index : Nat) : indexOf (ofInt index) = .ok index := by
  simp [ofInt, indexOf]

theorem readRecord_one {field : Field} {v : field.type.Value} (h : Gives ms field v) :
    readRecord ms [field] = .ok (.cons v .nil) := by
  rw [readRecord_cons (fun f hf => absurd hf List.not_mem_nil) h, readRecord_nil]
  rfl

theorem readRecord_pair {first second : Field} {v : first.type.Value} {w : second.type.Value}
    (hne : second.name ≠ first.name) (hfirst : Gives ms first v) (hsecond : Gives ms second w) :
    readRecord ms [first, second] = .ok (.cons v (.cons w .nil)) := by
  rw [readRecord_cons (fun f hf => List.mem_singleton.1 hf ▸ hne) hfirst, readRecord_one hsecond]
  rfl

/-- What a statement of a kind is read as from the members of an object. -/
def readAs (k : Kind) (ms : List (String × Json)) : Except Mismatch Statement :=
  readRecord ms k.fields >>= statementOf k

theorem readField_object {k : Kind} (h : Tagged k ms) : readField (.object ms) .statement = readAs k ms := by
  rw [readField, kindOfMembers_of_tagged h, readAs, readRecord, bind_assoc]
  rfl

end Document

namespace Spec

open Document

variable {ms : List (String × Json)}

/-- Reading the members of a leaf gives what building it gives. -/
theorem readAs_leaf {s : Spec} (h : s.Fields ms) (hlist : ∀ body, s ≠ .list body)
    (hswitch : ∀ index cases, s ≠ .switchArg index cases) : readAs s.kind ms = s.build.mapError .refused := by
  cases s with
  | exec command replacing =>
    have hreplacing : Gives ms ⟨"replace_shell", .flag, some false⟩ replacing :=
      h.2.imp (fun hvalue => ⟨_, hvalue, rfl⟩) (fun hnone => ⟨hnone.1, congrArg some hnone.2.symm⟩)
    have hread : readRecord ms Kind.exec.fields = .ok (.cons command (.cons replacing .nil)) :=
      readRecord_pair (by decide) (.of_value h.1 rfl) hreplacing
    rw [readAs, kind, hread]
    rfl
  | interpret text =>
    have hread : readRecord ms Kind.interpret.fields = .ok (.cons text .nil) := readRecord_one (.of_value h rfl)
    rw [readAs, kind, hread]
    rfl
  | appendFile path payload =>
    have hread : readRecord ms Kind.appendFile.fields = .ok (.cons path (.cons payload .nil)) :=
      readRecord_pair (by decide) (.of_value h.1 rfl) (.of_value h.2 (textsOf_ofTexts payload))
    rw [readAs, kind, hread]
    rfl
  | exportVar name value =>
    have hread : readRecord ms Kind.exportVar.fields = .ok (.cons name (.cons value .nil)) :=
      readRecord_pair (by decide) (.of_value h.1 rfl) (.of_value h.2 rfl)
    rw [readAs, kind, hread]
    rfl
  | call function args =>
    have hargs : Gives ms ⟨"args", .texts, some []⟩ args :=
      h.2.imp (fun hvalue => ⟨ofTexts args, hvalue, textsOf_ofTexts args⟩)
        (fun hnone => ⟨hnone.1, congrArg some hnone.2.symm⟩)
    have hread : readRecord ms Kind.call.fields = .ok (.cons function (.cons args .nil)) :=
      readRecord_pair (by decide) (.of_value h.1 rfl) hargs
    rw [readAs, kind, hread]
    rfl
  | comment text =>
    have hread : readRecord ms Kind.comment.fields = .ok (.cons text .nil) := readRecord_one (.of_value h rfl)
    rw [readAs, kind, hread]
    rfl
  | leaveWith code =>
    have hcode : codeOf (ofInt code) = .ok (.inl code) := by
      rw [ofInt, codeOf, if_pos h.1]
    have hread : readRecord ms Kind.leave.fields = .ok (.cons (.inl code) .nil) := readRecord_one (.of_value h.2 hcode)
    rw [readAs, kind, hread]
    rfl
  | leave code =>
    have hread : readRecord ms Kind.leave.fields = .ok (.cons (.inr code) .nil) := readRecord_one (.of_value h rfl)
    rw [readAs, kind, hread]
    rfl
  | list body => exact absurd rfl (hlist body)
  | switchArg index cases => exact absurd rfl (hswitch index cases)

theorem readCase_object {value : String} {then_ : Json} (hvalue : valuesOf "value" ms = [ofText value])
    (hthen : valuesOf "then" ms = [then_]) :
    readCase (.object ms) = (fun s => (value, s)) <$> readField then_ .statement := by
  have hother : ∀ f ∈ [(⟨"then", .statement, none⟩ : Field)], f.name ≠ "value" := by simp
  have hfirst : Gives ms ⟨"value", .text, none⟩ value := .of_value hvalue rfl
  have hsecond : readRecord ms [⟨"then", .statement, none⟩]
      = (fun s => Record.cons s .nil) <$> readField then_ .statement := readRecord_single hthen
  have hread : readRecord ms caseFields
      = Record.cons value <$> (fun s => Record.cons s .nil) <$> readField then_ .statement :=
    (readRecord_cons hother hfirst).trans (congrArg _ hsecond)
  have hcase : readCase (.object ms) = do
      let record ← readRecord ms caseFields
      return (record.1, record.2.1) := by
    rw [readCase, readRecord, bind_assoc]
    rfl
  rw [hcase, hread]
  cases readField then_ .statement <;> rfl

mutual

/-- Reading the members of a spec gives what building it gives. -/
theorem readAs_of_fields (s : Spec) {ms : List (String × Json)} (h : s.Fields ms) :
    readAs s.kind ms = s.build.mapError .refused := by
  cases s with
  | list body =>
    obtain ⟨items, hitems, hbody⟩ := h
    have hread : readRecord ms Kind.list.fields
        = (fun v => Record.cons v .nil) <$> readField (.array items) .statements := readRecord_single hitems
    rw [readAs, kind, hread, readField, readStatements_of_describes body hbody, build]
    cases buildAll body <;> rfl
  | switchArg index cases =>
    obtain ⟨hindex, items, hitems, hcases⟩ := h
    have hother : ∀ f ∈ [(⟨"cases", .cases, none⟩ : Field)], f.name ≠ "index" := by simp
    have hfirst : Gives ms ⟨"index", .index, none⟩ index := .of_value hindex (indexOf_ofInt index)
    have hsecond : readRecord ms [⟨"cases", .cases, none⟩]
        = (fun v => Record.cons v .nil) <$> readField (.array items) .cases := readRecord_single hitems
    have hread : readRecord ms Kind.switchArg.fields
        = Record.cons index <$> (fun v => Record.cons v .nil) <$> readField (.array items) .cases :=
      (readRecord_cons hother hfirst).trans (congrArg _ hsecond)
    rw [readAs, kind, hread, readField, readCases_of_describes cases hcases, build]
    cases buildCases cases <;> rfl
  | _ => exact readAs_leaf h (by simp) (by simp)
  termination_by structural s

theorem readStatements_of_describes (ss : List Spec) {js : List Json} (h : DescribesAll ss js) :
    readStatements js = (buildAll ss).mapError .refused := by
  match ss, js, h with
  | [], [], _ => rfl
  | s :: ss, .object ms :: js, ⟨⟨htag, hfields⟩, hrest⟩ =>
    rw [readStatements, readField_object htag, readAs_of_fields s hfields, readStatements_of_describes ss hrest,
      buildAll]
    cases s.build with
    | error refusal => rfl
    | ok first => cases buildAll ss <;> rfl
  termination_by structural ss

theorem readCases_of_describes (cs : List (String × Spec)) {js : List Json} (h : DescribesCases cs js) :
    readCases js = (buildCases cs).mapError .refused := by
  match cs, js, h with
  | [], [], _ => rfl
  | (value, s) :: cs, .object ms :: js, ⟨⟨hvalue, then_, hthen, htag, hfields⟩, hrest⟩ =>
    rw [readCases, readCase_object hvalue hthen, readField_object htag, readAs_of_fields s hfields,
      readCases_of_describes cs hrest, buildCases]
    cases s.build with
    | error refusal => rfl
    | ok first => cases buildCases cs <;> rfl
  termination_by structural cs

end

end Spec
end Scriptwright
