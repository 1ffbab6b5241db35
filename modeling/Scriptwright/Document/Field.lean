/-
Records and their fields. A record of a document may be written as an object, in
any order of its keys, or as a list of its fields in the order of their
declaration. This module says what a field may hold and which fields each kind
of statement has, and does the bookkeeping of both ways of writing; what the
fields of a record hold once they are all there is a `Record`.
-/
import Scriptwright.Document.Fault
import Scriptwright.Statement.Checked

namespace Scriptwright.Document

/-- What a field may hold. -/
inductive FieldType where
  | text
  | flag
  /-- A number that is not negative. -/
  | index
  | texts
  /-- An exit code: an integer of 32 bits, or a text. -/
  | code
  | statement
  | statements
  | cases
  deriving DecidableEq, Repr

/-- The values of a field. -/
abbrev FieldType.Value : FieldType → Type
  | text => String
  | flag => Bool
  | index => Nat
  | texts => List String
  | code => Int ⊕ String
  | statement => Statement
  | statements => List Statement
  | cases => List (String × Statement)

/-- A field of a record: its name, what it may hold, and what it holds when it is not there. -/
structure Field where
  name : String
  type : FieldType
  absent : Option type.Value := none

/-- What the fields of a record hold, in order. -/
def Record : List Field → Type
  | [] => Unit
  | field :: fields => field.type.Value × Record fields

/-- What is known so far of the fields of a record, in order. -/
def Slots : List Field → Type
  | [] => Unit
  | field :: fields => Option field.type.Value × Slots fields

/-- The record of no fields. -/
abbrev Record.nil : Record [] :=
  ()

/-- What a first field and the others hold. -/
abbrev Record.cons {field : Field} {fields : List Field} (value : field.type.Value) (rest : Record fields) :
    Record (field :: fields) :=
  (value, rest)

/-- What is known of a first field and of the others. -/
abbrev Slots.cons {field : Field} {fields : List Field} (value : Option field.type.Value) (rest : Slots fields) :
    Slots (field :: fields) :=
  (value, rest)

/-- Nothing is known yet. -/
def Slots.empty : (fields : List Field) → Slots fields
  | [] => ()
  | _ :: fields => (none, empty fields)

/-- Takes the value of a key. A key that is no field is ignored, whatever its value; one
that comes again is refused before its value is looked at. -/
def Slots.put (key : String) (read : (t : FieldType) → Except Mismatch t.Value) :
    (fields : List Field) → Slots fields → Except Mismatch (Slots fields)
  | [], slots => .ok slots
  | field :: fields, (value, slots) =>
    if field.name = key then
      match value with
      | some _ => .error (.duplicateField key)
      | none => do
        let value ← read field.type
        return (some value, slots)
    else do
      let slots ← put key read fields slots
      return (value, slots)

section

variable {key : String} {read : (t : FieldType) → Except Mismatch t.Value} {field : Field} {fields : List Field}

theorem Slots.put_of_eq (h : field.name = key) (value : Option field.type.Value) (slots : Slots fields) :
    put key read (field :: fields) (cons value slots) =
      match value with
      | some _ => .error (.duplicateField key)
      | none => do
        let value ← read field.type
        return cons (some value) slots :=
  if_pos h

theorem Slots.put_of_ne (h : field.name ≠ key) (value : Option field.type.Value) (slots : Slots fields) :
    put key read (field :: fields) (cons value slots) = do
      let slots ← put key read fields slots
      return cons value slots :=
  if_neg h

end

/-- The record, unless a field is missing; of several the first is reported. -/
def Slots.finish : (fields : List Field) → Slots fields → Except Mismatch (Record fields)
  | [], _ => .ok ()
  | field :: fields, (value, slots) =>
    match value <|> field.absent with
    | none => .error (.missingField field.name)
    | some value => do
      let rest ← finish fields slots
      return (value, rest)

/-- The record when its list has ended early, after some of its elements. -/
def Record.ofAbsent (length : Nat) (expected : String) :
    (fields : List Field) → Except Mismatch (Record fields)
  | [] => .ok ()
  | field :: fields =>
    match field.absent with
    | none => .error (.wrongLength length expected)
    | some value => do
      let rest ← ofAbsent length expected fields
      return (value, rest)

/-- So many elements, in words. -/
def elements (count : Nat) : String :=
  toString count ++ if count = 1 then " element" else " elements"

/-- What is expected of a record written as a list. -/
def structWith (name : String) (count : Nat) : String :=
  "struct " ++ name ++ " with " ++ elements count

end Document

open Document

namespace Kind

/-- The fields of a statement of a kind, besides its type. -/
def fields : Kind → List Field
  | exec => [⟨"command", .text, none⟩, ⟨"replace_shell", .flag, some false⟩]
  | interpret => [⟨"text", .text, none⟩]
  | appendFile => [⟨"path", .text, none⟩, ⟨"lines", .texts, none⟩]
  | list => [⟨"statements", .statements, none⟩]
  | switchArg => [⟨"index", .index, none⟩, ⟨"cases", .cases, none⟩]
  | exportVar => [⟨"name", .text, none⟩, ⟨"value", .text, none⟩]
  | call => [⟨"function", .text, none⟩, ⟨"args", .texts, some []⟩]
  | comment => [⟨"text", .text, none⟩]
  | leave => [⟨"code", .code, none⟩]

/-- The name of the record of a kind, in messages. -/
def recordName : Kind → String
  | exec => "Exec"
  | interpret => "Interpret"
  | appendFile => "RawAppendFile"
  | list => "StatementList"
  | switchArg => "RawSwitchArg"
  | exportVar => "RawExport"
  | call => "RawCall"
  | comment => "Comment"
  | leave => "RawReturn"

/-- The statement of a record, unless it is refused. -/
def make : (k : Kind) → Record k.fields → Except Refusal Statement
  | exec, (command, replacing, ()) => .ok (.exec command replacing)
  | interpret, (text, ()) => .ok (.interpret text)
  | appendFile, (path, payload, ()) => Statement.makeAppendFile path payload
  | list, (body, ()) => .ok (.list body)
  | switchArg, (index, cases, ()) => Statement.makeSwitch index cases
  | exportVar, (name, value, ()) => Statement.makeExport name value
  | call, (function, args, ()) => Statement.makeCall function args
  | comment, (text, ()) => .ok (.comment text)
  | leave, (.inl code, ()) => .ok (Statement.leaveWith code)
  | leave, (.inr code, ()) => Statement.makeLeave code

end Kind
end Scriptwright
