/-
Statements from JSON values. A statement is an object with a member `type`
anywhere in it, or a list that begins with its type; the rest are the fields of
its kind. Everything below a statement is read from values, not from text, so
what is wrong here has no place of its own.
-/
import Scriptwright.Document.Field

namespace Scriptwright.Document

/-- A value of a type that is not wanted. -/
def mismatch {α : Type} (j : Json) (expected : String) : Except Mismatch α :=
  .error (.wrongType (.ofJson j) expected)

/-- A text. -/
def textOf : Json → Except Mismatch String
  | .scalar (.string text) => .ok text
  | j => mismatch j "a string"

/-- A list of texts. -/
def textsOf : Json → Except Mismatch (List String)
  | .array items => items.mapM textOf
  | j => mismatch j "a sequence"

/-- A truth value. -/
def flagOf : Json → Except Mismatch Bool
  | .scalar (.bool value) => .ok value
  | j => mismatch j "a boolean"

/-- A number that is not negative. -/
def indexOf : Json → Except Mismatch Nat
  | .scalar (.number (.integer value)) =>
    if 0 ≤ value then .ok value.toNat
    else .error (.wrongValue (.scalar (.number (.integer value))) "usize")
  | j => mismatch j "usize"

/-- An exit code. -/
def codeOf : Json → Except Mismatch (Int ⊕ String)
  | .scalar (.number (.integer value)) =>
    if -0x80000000 ≤ value ∧ value ≤ 0x7FFFFFFF then .ok (.inl value) else .error .wrongCode
  | .scalar (.string text) => .ok (.inr text)
  | _ => .error .wrongCode

/-- What the type of a statement must be. -/
def kindExpected : String := "variant identifier"

/-- The kind of a statement below another one: by its name, or by its number. -/
def kindOf : Json → Except Mismatch Kind
  | .scalar (.string name) =>
    match Kind.ofName? name with
    | some k => .ok k
    | none => .error (.unknownKind name)
  | .scalar (.number (.integer value)) =>
    if value < 0 then mismatch (.scalar (.number (.integer value))) kindExpected
    else match Kind.all[value.toNat]? with
      | some k => .ok k
      | none => .error (.wrongValue (.scalar (.number (.integer value)))
          ("variant index 0 <= i < " ++ toString Kind.all.length))
  | j => mismatch j kindExpected

/-- The key of a statement's kind. -/
def typeKey : String := "type"

/-- The kind of a statement written as an object, from the one its members have had so far. -/
def kindOfMembers (found : Option Kind) : List (String × Json) → Except Mismatch Kind
  | [] =>
    match found with
    | some k => .ok k
    | none => .error (.missingField typeKey)
  | (key, value) :: rest =>
    if key = typeKey then
      match found with
      | some _ => .error (.duplicateField typeKey)
      | none => do
        let k ← kindOf value
        kindOfMembers (some k) rest
    else kindOfMembers found rest

/-- The statement of a record. -/
def statementOf (k : Kind) (fields : Record k.fields) : Except Mismatch Statement :=
  (k.make fields).mapError Mismatch.refused

/-- The fields of a case. -/
def caseFields : List Field :=
  [⟨"value", .text, none⟩, ⟨"then", .statement, none⟩]

/-- The name of the record of a case, in messages. -/
def caseRecord : String := "RawCase"

/-- What a statement must be. -/
def statementExpected : String := "internally tagged enum Statement"

mutual

/-- The value of a field. -/
def readField : Json → (t : FieldType) → Except Mismatch t.Value
  | j, .text => textOf j
  | j, .flag => flagOf j
  | j, .index => indexOf j
  | j, .texts => textsOf j
  | j, .code => codeOf j
  | .array [], .statement => .error (.missingField typeKey)
  | .array (tag :: items), .statement => do
    let k ← kindOf tag
    statementOf k (← readItems items k.fields k.recordName k.fields.length items.length)
  | .object members, .statement => do
    let k ← kindOfMembers none members
    let slots ← readMembers members k.fields (.empty k.fields)
    statementOf k (← slots.finish)
  | j, .statement => mismatch j statementExpected
  | .array items, .statements => readStatements items
  | j, .statements => mismatch j "a sequence"
  | .array items, .cases => readCases items
  | j, .cases => mismatch j "a sequence"
  termination_by structural j => j

/-- Statements in order. -/
def readStatements : List Json → Except Mismatch (List Statement)
  | [] => .ok []
  | j :: js => do
    let s ← readField j .statement
    return s :: (← readStatements js)
  termination_by structural js => js

/-- A case of a switch. -/
def readCase : Json → Except Mismatch (String × Statement)
  | .array items => do
    let (value, body, _) ← readItems items caseFields caseRecord caseFields.length items.length
    return (value, body)
  | .object members => do
    let slots ← readMembers members caseFields (.empty caseFields)
    let (value, body, _) ← slots.finish
    return (value, body)
  | .scalar value => mismatch (.scalar value) ("struct " ++ caseRecord)
  termination_by structural j => j

/-- Cases in order. -/
def readCases : List Json → Except Mismatch (List (String × Statement))
  | [] => .ok []
  | j :: js => do
    let c ← readCase j
    return c :: (← readCases js)
  termination_by structural js => js

/-- The fields of a record from a list. How many fields there are in all and how many
elements, and the record's name, are for the messages. -/
def readItems : List Json → (fields : List Field) → String → Nat → Nat → Except Mismatch (Record fields)
  | [], fields, name, count, length =>
    Record.ofAbsent length (structWith name count) fields
  | _ :: _, [], _, count, length => .error (.wrongLength length (elements count ++ " in sequence"))
  | j :: js, field :: fields, name, count, length => do
    let value ← readField j field.type
    let rest ← readItems js fields name count length
    return (value, rest)
  termination_by structural js => js

/-- The fields of a record from the members of an object. -/
def readMembers : List (String × Json) → (fields : List Field) → Slots fields →
    Except Mismatch (Slots fields)
  | [], _, slots => .ok slots
  | (key, value) :: rest, fields, slots => do
    let slots ← slots.put key (readField value) fields
    readMembers rest fields slots
  termination_by structural members => members

end

end Scriptwright.Document
