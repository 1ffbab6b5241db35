/-
What can be wrong with a document. Either its text is no JSON, or the JSON is
not what a document holds, which includes statements that are refused. The
message says which, and the position follows it.
-/
import Scriptwright.Decimal.Shortest
import Scriptwright.Json.Value
import Scriptwright.Refusal
import Scriptwright.Statement
import Scriptwright.Text.Position

namespace Scriptwright.Document

/-- What is there in place of what is wanted. -/
inductive Found where
  | scalar (value : Json.Scalar)
  | list
  | object

/-- How a message shows what is there. -/
def Found.text : Found → String
  | .scalar .null => "null"
  | .scalar (.bool value) => "boolean \x60" ++ toString value ++ "\x60"
  | .scalar (.number (.integer value)) => "integer \x60" ++ toString value ++ "\x60"
  | .scalar (.number (.float value)) => "floating point \x60" ++ Decimal.ofFloat value ++ "\x60"
  | .scalar (.string value) => "string " ++ Text.quoted value
  | .list => "sequence"
  | .object => "map"

/-- What a value is, seen from outside. -/
def Found.ofJson : Json → Found
  | .scalar value => .scalar value
  | .array _ => .list
  | .object _ => .object

/-- The ways in which a JSON value is no document, or no part of one. -/
inductive Mismatch where
  /-- A value of another type. -/
  | wrongType (found : Found) (expected : String)
  /-- A value of the type, but out of its range. -/
  | wrongValue (found : Found) (expected : String)
  /-- A record written as a list has another number of elements. -/
  | wrongLength (length : Nat) (expected : String)
  | unknownField (name : String) (known : List String)
  | duplicateField (name : String)
  | missingField (name : String)
  | unknownKind (name : String)
  /-- An exit code is neither an integer of 32 bits nor a text. -/
  | wrongCode
  /-- A statement is well written and still refused. -/
  | refused (refusal : Refusal)

/-- A name in a message. -/
def named (name : String) : String :=
  "\x60" ++ name ++ "\x60"

/-- A choice of names in a message. -/
def oneOf (names : List String) : String :=
  "one of " ++ ", ".intercalate (names.map named)

/-- The message of a mismatch. -/
def Mismatch.message : Mismatch → String
  | wrongType found expected => "invalid type: " ++ found.text ++ ", expected " ++ expected
  | wrongValue found expected => "invalid value: " ++ found.text ++ ", expected " ++ expected
  | wrongLength length expected => "invalid length " ++ toString length ++ ", expected " ++ expected
  | unknownField name known => "unknown field " ++ named name ++ ", expected " ++ oneOf known
  | duplicateField name => "duplicate field " ++ named name
  | missingField name => "missing field " ++ named name
  | unknownKind name =>
    "unknown variant " ++ named name ++ ", expected " ++ oneOf (Kind.all.map Kind.name)
  | wrongCode => "data did not match any variant of untagged enum RawCode"
  | refused refusal => refusal.message

/-- What is wrong with a document. -/
inductive Cause where
  | text (flaw : Json.Flaw)
  | data (mismatch : Mismatch)

/-- What is wrong with a document, and the place that is reported for it. -/
structure Fault where
  cause : Cause
  place : Nat

/-- A flaw of the text, as a fault of the document. -/
def Fault.ofJson (fault : Json.Fault) : Fault :=
  ⟨.text fault.flaw, fault.place⟩

/-- The message of a fault, without its position. -/
def Fault.message (fault : Fault) : String :=
  match fault.cause with
  | .text flaw =>
    (if flaw.isEnd then "unexpected end of document: " else "invalid JSON: ") ++ flaw.message
  | .data mismatch => "invalid document: " ++ mismatch.message

/-- The position of a fault in the text of the document. -/
def Fault.position (fault : Fault) (source : String) : Text.Position :=
  Text.position source fault.place

/-- The message of a fault and its position. -/
def Fault.report (fault : Fault) (source : String) : String :=
  let position := fault.position source
  fault.message ++ " at line " ++ toString position.line ++ " column " ++ toString position.column

end Scriptwright.Document
