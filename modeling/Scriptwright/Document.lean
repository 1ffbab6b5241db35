/-
Documents: the JSON description of a whole script. `Document.parse` reads one
from its text, from left to right, so that of several things wrong with it the
first is reported; `Document.toScript` puts what was read into a script.

A document is a record of variables, functions and statements, each of which may
be left out. Everything in it is looked at as soon as it has been read, but for a
statement, which is looked at as a whole: what is wrong with the text of a
statement, or with its type, comes before what is wrong with its fields.
-/
import Scriptwright.Document.Nested
import Scriptwright.Json.Outline
import Scriptwright.Script

namespace Scriptwright

/-- What a document describes. -/
structure Document where
  exports : List (String × String) := []
  functions : List (String × List Statement) := []
  statements : List Statement := []
  deriving DecidableEq, Repr

namespace Document

/-- A mismatch at a place. -/
def fail {α : Type} (cause : Mismatch) (place : Nat) : Except Fault α :=
  .error ⟨.data cause, place⟩

/-- The result of reading a value, at a place. -/
def placed {α : Type} (place : Nat) (result : Except Mismatch α) : Except Fault α :=
  result.mapError fun cause => ⟨.data cause, place⟩

/-- The result of reading text. -/
def spelled {α : Type} (result : Except Json.Fault α) : Except Fault α :=
  result.mapError Fault.ofJson

/-- An outline of a type that is not wanted. A scalar is reported after it, a list or an
object where it starts. -/
def unexpected {α : Type} (o : Json.Outline) (expected : String) : Except Fault α :=
  match o with
  | .scalar value stop => fail (.wrongType (.scalar value) expected) stop
  | .array start _ => fail (.wrongType .list expected) start
  | .object start _ => fail (.wrongType .object expected) start
  | .broken fault => .error (.ofJson fault)

/-- A text. -/
def textAt : Json.Outline → Except Fault String
  | .scalar (.string text) _ => .ok text
  | o => unexpected o "a string"

/-! ## Lists -/

/-- The elements of a list, each read with the place after what follows it. -/
def readElements {α : Type} (read : Nat → Json.Outline → Except Fault α) :
    Json.Items → Except Fault (List α)
  | .closed _ => .ok []
  | .broken fault => .error (.ofJson fault)
  | .cons _ head next tail => do
    let value ← read next head
    return value :: (← readElements read tail)

/-- A list. -/
def readList {α : Type} (read : Nat → Json.Outline → Except Fault α) :
    Json.Outline → Except Fault (List α)
  | .array _ items => readElements read items
  | o => unexpected o "a sequence"

/-- The end of a list whose elements are the fields of a record, when all have been read.
Whatever is not the bracket is then too much. -/
def readEnd : Json.Items → Except Fault Unit
  | .closed _ => .ok ()
  | .broken fault =>
    if fault.flaw = .expectedCommaOrBracket then .error ⟨.text .trailingCharacters, fault.place⟩
    else .error (.ofJson fault)
  | .cons first _ _ _ => .error ⟨.text .trailingCharacters, first⟩

/-! ## Statements -/

/-- The kind of a statement that is not below another one: by its name only. -/
def kindAt : Json.Outline → Except Fault Kind
  | .scalar (.string name) stop =>
    match Kind.ofName? name with
    | some k => .ok k
    | none => fail (.unknownKind name) stop
  | o => unexpected o kindExpected

/-- The kind and the other members of a statement, from the kind it has had so far. -/
def taggedMembers (found : Option Kind) : Json.Members → Except Fault (Kind × List (String × Json))
  | .closed stop =>
    match found with
    | some k => .ok (k, [])
    | none => fail (.missingField typeKey) stop
  | .broken fault => .error (.ofJson fault)
  | .cons key next value tail =>
    if key = typeKey then
      match found with
      | some _ => fail (.duplicateField typeKey) next
      | none => do
        let k ← kindAt value
        taggedMembers (some k) tail
    else do
      let value ← spelled value.toJson
      let (k, rest) ← taggedMembers found tail
      return (k, (key, value) :: rest)

/-- A statement. What is wrong with its fields is reported after what follows it. -/
def readStatementAt (next : Nat) : Json.Outline → Except Fault Statement
  | .object _ members => do
    let (k, members) ← taggedMembers none members
    placed next do
      let slots ← readMembers members k.fields (.empty k.fields)
      statementOf k (← slots.finish)
  | .array _ (.closed stop) => fail (.missingField typeKey) stop
  | .array _ (.broken fault) => .error (.ofJson fault)
  | .array _ (.cons _ tag _ tail) => do
    let k ← kindAt tag
    let items ← spelled tail.toList
    placed next do
      statementOf k (← readItems items k.fields k.recordName k.fields.length items.length)
  | o => unexpected o statementExpected

/-! ## Variables and functions -/

/-- The key of the name of a variable or function. -/
def nameKey : String := "name"

/-- A name and something else, from the members of an object. Other members are of no interest. -/
def pairOfMembers {α : Type} (key : String) (read : Json.Outline → Except Fault α)
    (name : Option String) (second : Option α) : Json.Members → Except Fault (String × α)
  | .closed stop =>
    match name, second with
    | none, _ => fail (.missingField nameKey) stop
    | some _, none => fail (.missingField key) stop
    | some name, some value => .ok (name, value)
  | .broken fault => .error (.ofJson fault)
  | .cons other next value tail =>
    if other = nameKey then
      match name with
      | some _ => fail (.duplicateField nameKey) next
      | none => do
        let name ← textAt value
        pairOfMembers key read (some name) second tail
    else if other = key then
      match second with
      | some _ => fail (.duplicateField key) next
      | none => do
        let value ← read value
        pairOfMembers key read name (some value) tail
    else do
      let _ ← spelled value.toJson
      pairOfMembers key read name second tail

/-- A record of a name and something else. -/
def readPair {α : Type} (record key : String) (read : Json.Outline → Except Fault α) :
    Json.Outline → Except Fault (String × α)
  | .object _ members => pairOfMembers key read none none members
  | .array _ (.closed stop) => fail (.wrongLength 0 (structWith record 2)) stop
  | .array _ (.broken fault) => .error (.ofJson fault)
  | .array _ (.cons _ head _ tail) => do
    let name ← textAt head
    match tail with
    | .closed stop => fail (.wrongLength 1 (structWith record 2)) stop
    | .broken fault => .error (.ofJson fault)
    | .cons _ head _ tail => do
      let value ← read head
      readEnd tail
      return (name, value)
  | o => unexpected o ("struct " ++ record)

/-- A variable and its value. -/
def readVariable : Json.Outline → Except Fault (String × String) :=
  readPair "Variable" "value" textAt

/-- A function and its body. -/
def readFunction : Json.Outline → Except Fault (String × List Statement) :=
  readPair "FunctionDef" "body" (readList readStatementAt)

/-! ## Whole documents -/

/-- The variables of a document. -/
def readVariables : Json.Outline → Except Fault (List (String × String)) :=
  readList fun _ => readVariable

/-- The functions of a document. -/
def readFunctions : Json.Outline → Except Fault (List (String × List Statement)) :=
  readList fun _ => readFunction

/-- The statements of a document. -/
def readStatementsAt : Json.Outline → Except Fault (List Statement) :=
  readList readStatementAt

/-- The keys of a document. -/
def keys : List String :=
  ["variables", "functions", "statements"]

/-- A document, from the members of an object. -/
def ofMembers (exports : Option (List (String × String)))
    (functions : Option (List (String × List Statement))) (statements : Option (List Statement)) :
    Json.Members → Except Fault Document
  | .closed _ => .ok ⟨exports.getD [], functions.getD [], statements.getD []⟩
  | .broken fault => .error (.ofJson fault)
  | .cons key next value tail =>
    if key = "variables" then
      if exports.isSome then fail (.duplicateField key) next
      else do
        let exports ← readVariables value
        ofMembers (some exports) functions statements tail
    else if key = "functions" then
      if functions.isSome then fail (.duplicateField key) next
      else do
        let functions ← readFunctions value
        ofMembers exports (some functions) statements tail
    else if key = "statements" then
      if statements.isSome then fail (.duplicateField key) next
      else do
        let statements ← readStatementsAt value
        ofMembers exports functions (some statements) tail
    else fail (.unknownField key keys) next

/-- The next element of a list, if there is one, and the rest; nothing for one that is not there. -/
def readOptional {α : Type} (read : Json.Outline → Except Fault (List α)) :
    Json.Items → Except Fault (List α × Json.Items)
  | .closed stop => .ok ([], .closed stop)
  | .broken fault => .error (.ofJson fault)
  | .cons _ head _ tail => do
    let value ← read head
    return (value, tail)

/-- A document, from its outline. -/
def ofOutline : Json.Outline → Except Fault Document
  | .object _ members => ofMembers none none none members
  | .array _ items => do
    let (exports, items) ← readOptional readVariables items
    let (functions, items) ← readOptional readFunctions items
    let (statements, items) ← readOptional readStatementsAt items
    readEnd items
    return ⟨exports, functions, statements⟩
  | o => unexpected o "struct ScriptDocument"

/-- What matters in the text of a document. Members of a variable or a function that mean
nothing are skipped; those of a statement are read, and those of a document refused. -/
def shape : Json.Shape :=
  .record
    [("variables", .list (.record [(nameKey, .all), ("value", .all)] .skipped)),
      ("functions", .list (.record [(nameKey, .all), ("body", .all)] .skipped)),
      ("statements", .all)]
    .all

/-- The document of a text. -/
def parse (source : String) : Except Fault Document :=
  let (root, left) := Json.outline shape source
  match ofOutline root, left with
  | .error fault, _ => .error fault
  | .ok _, some fault => .error (.ofJson fault)
  | .ok document, none => .ok document

/-! ## Scripts -/

/-- Exports variables in order. -/
def exportAll (script : Script) : List (String × String) → Except Refusal Script
  | [] => .ok script
  | (name, value) :: rest => do
    let script ← script.exportVariable name value
    exportAll script rest

/-- Defines functions in order; the body of each is a list. -/
def defineAll (script : Script) : List (String × List Statement) → Except Refusal Script
  | [] => .ok script
  | (name, body) :: rest => do
    let script ← script.defineFunction name (.list body)
    defineAll script rest

/-- The script that a document describes. -/
def toScript (document : Document) : Except Refusal Script := do
  let script ← exportAll {} document.exports
  let script ← defineAll script document.functions
  return script.addStatements document.statements

end Document
end Scriptwright
