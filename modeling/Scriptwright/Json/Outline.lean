/-
What the lexemes of a text amount to: a value as far as it can be read, with the
places that messages may have to name. Where the text goes wrong the outline has
a broken end that says how, so that a reader of the outline meets that flaw when
it gets there, and not before what is wrong further ahead.

A shape says which parts of the value nobody will look at. Those are only
skipped, which allows more than reading does, and are null in the outline.
-/
import Scriptwright.Json.Value

namespace Scriptwright.Json

/-! ## Outlines -/

mutual

/-- A value as far as the text shows it. -/
inductive Outline where
  /-- A scalar, and the place after it. -/
  | scalar (value : Scalar) (stop : Nat)
  /-- A list, and the place of its bracket. -/
  | array (start : Nat) (items : Items)
  /-- An object, and the place of its brace. -/
  | object (start : Nat) (members : Members)
  /-- No value, and why. -/
  | broken (fault : Fault)

/-- The elements of a list. -/
inductive Items where
  /-- The closing bracket, and the place after it. -/
  | closed (stop : Nat)
  /-- No further element and no bracket, and why. -/
  | broken (fault : Fault)
  /-- An element. First comes the place after its first byte; behind the element comes the
  place after whatever follows it: the bracket, or the comma and the space after that. -/
  | cons (first : Nat) (head : Outline) (next : Nat) (tail : Items)

/-- The members of an object. -/
inductive Members where
  /-- The closing brace, and the place after it. -/
  | closed (stop : Nat)
  /-- No further member and no brace, and why. -/
  | broken (fault : Fault)
  /-- A member. Behind the key comes the place after it, the space after it, and the brace if
  that follows. -/
  | cons (key : String) (next : Nat) (value : Outline) (tail : Members)

end

mutual

/-- The value of an outline, or the first flaw in it. -/
def Outline.toJson : Outline → Except Fault Json
  | .scalar value _ => .ok (.scalar value)
  | .array _ items => do return .array (← items.toList)
  | .object _ members => do return .object (← members.toList)
  | .broken fault => .error fault

/-- The values of the elements of a list. -/
def Items.toList : Items → Except Fault (List Json)
  | .closed _ => .ok []
  | .broken fault => .error fault
  | .cons _ head _ tail => do
    let value ← head.toJson
    return value :: (← tail.toList)

/-- The members of an object, in order. -/
def Members.toList : Members → Except Fault (List (String × Json))
  | .closed _ => .ok []
  | .broken fault => .error fault
  | .cons key _ value tail => do
    let value ← value.toJson
    return (key, value) :: (← tail.toList)

end

/-! ## Shapes -/

/-- Which parts of a value matter. -/
inductive Shape where
  /-- All of it. -/
  | all
  /-- Nothing but that it is well spelled. -/
  | skipped
  /-- Of a list, what matters of each element. -/
  | list (item : Shape)
  /-- Of an object, what matters of the members of some keys and of other members; of a list,
  what matters of the first elements, in the order of the keys. -/
  | record (fields : List (String × Shape)) (other : Shape)

/-- What matters of the member of a key. -/
def Shape.member (key : String) : Shape → Shape
  | .record fields other => (fields.lookup key).getD other
  | _ => .all

/-- What matters of the next element. -/
def Shape.head : Shape → Shape
  | .list item => item
  | .record ((_, first) :: _) _ => first
  | _ => .all

/-- What matters of a list after its next element. -/
def Shape.tail : Shape → Shape
  | .record (_ :: fields) other => .record fields other
  | shape => shape

/-! ## Reading lexemes -/

/-- The place of the next lexeme, or of the end of the text. -/
def startOf (finish : Nat) : List Located → Nat
  | [] => finish
  | t :: _ => t.start

/-- The place after the first byte of the next lexeme, or of the end of the text. -/
def firstOf (finish : Nat) : List Located → Nat
  | [] => finish
  | t :: _ => t.start + 1

/-- The place after what follows an element: the bracket, or the comma and the space after it. -/
def afterItem (finish : Nat) : List Located → Nat
  | ⟨.closeBracket, _, stop⟩ :: _ => stop
  | ⟨.comma, _, _⟩ :: ts => startOf finish ts
  | ts => startOf finish ts

/-- The place after what follows a key, if that is the brace; else the place where it starts. -/
def afterKey (finish : Nat) : List Located → Nat
  | ⟨.closeBrace, _, stop⟩ :: _ => stop
  | ts => startOf finish ts

mutual

/-- The lexemes after a value that is only skipped. -/
def skipValue (finish : Nat) : Nat → List Located → Except Fault (List Located)
  | 0, _ | _, [] => .error ⟨.endInValue, finish⟩
  | fuel + 1, t :: ts =>
    match t.lexeme with
    | .plain _ skipped | .string _ skipped => do
      skipped
      return ts
    | .openBracket => skipItems finish fuel true ts
    | .openBrace => skipMembers finish fuel true ts
    | _ => .error ⟨.expectedValue, t.start + 1⟩
  termination_by structural fuel => fuel

/-- The lexemes after the rest of a list that is only skipped. -/
def skipItems (finish : Nat) : Nat → Bool → List Located → Except Fault (List Located)
  | 0, _, _ | _, _, [] => .error ⟨.endInList, finish⟩
  | fuel + 1, isFirst, t :: ts =>
    match t.lexeme, isFirst with
    | .closeBracket, _ => .ok ts
    | .comma, false => do skipItems finish fuel false (← skipValue finish fuel ts)
    | _, true => do skipItems finish fuel false (← skipValue finish fuel (t :: ts))
    | _, false => .error ⟨.expectedCommaOrBracket, t.start + 1⟩
  termination_by structural fuel => fuel

/-- The lexemes after the rest of an object that is only skipped. -/
def skipMembers (finish : Nat) : Nat → Bool → List Located → Except Fault (List Located)
  | 0, _, _ | _, _, [] => .error ⟨.endInObject, finish⟩
  | fuel + 1, isFirst, t :: ts =>
    match t.lexeme, isFirst with
    | .closeBrace, _ => .ok ts
    | .comma, false => skipMember finish fuel ts
    | _, true => skipMember finish fuel (t :: ts)
    | _, false => .error ⟨.expectedCommaOrBrace, t.start + 1⟩
  termination_by structural fuel => fuel

/-- The lexemes after a member and the rest of an object that is only skipped. -/
def skipMember (finish : Nat) : Nat → List Located → Except Fault (List Located)
  | 0, _ | _, [] => .error ⟨.endInObject, finish⟩
  | fuel + 1, t :: ts =>
    match t.lexeme with
    | .string _ skipped => do
      skipped
      match ts with
      | [] => .error ⟨.endInObject, finish⟩
      | u :: us =>
        match u.lexeme with
        | .colon => skipMembers finish fuel false (← skipValue finish fuel us)
        | _ => .error ⟨.expectedColon, u.start + 1⟩
    | _ => .error ⟨.keyNotString, t.start + 1⟩
  termination_by structural fuel => fuel

end

mutual

/-- The outline of the value ahead, of which only the shape matters and which may nest so
deep; and what follows it, unless it is broken. -/
def readValue (finish : Nat) : Nat → Nat → Shape → List Located → Outline × Option (List Located)
  | 0, _, _, _ | _, _, _, [] => (.broken ⟨.endInValue, finish⟩, none)
  | fuel + 1, _, .skipped, t :: ts =>
    match skipValue finish fuel (t :: ts) with
    | .ok rest => (.scalar .null t.stop, some rest)
    | .error fault => (.broken fault, none)
  | fuel + 1, depth, shape, t :: ts =>
    match t.lexeme, depth with
    | .plain (.ok value) _, _ => (.scalar value t.stop, some ts)
    | .string (.ok text) _, _ => (.scalar (.string text) t.stop, some ts)
    | .plain (.error fault) _, _ | .string (.error fault) _, _ => (.broken fault, none)
    | .openBracket, 0 | .openBrace, 0 => (.broken ⟨.tooDeep, t.start + 1⟩, none)
    | .openBracket, depth + 1 =>
      let (items, rest) := readItems finish fuel depth shape true ts
      (.array t.start items, rest)
    | .openBrace, depth + 1 =>
      let (members, rest) := readMembers finish fuel depth shape true ts
      (.object t.start members, rest)
    | _, _ => (.broken ⟨.expectedValue, t.start + 1⟩, none)
  termination_by structural fuel => fuel

/-- The outline of the rest of a list. -/
def readItems (finish : Nat) :
    Nat → Nat → Shape → Bool → List Located → Items × Option (List Located)
  | 0, _, _, _, _ | _, _, _, _, [] => (.broken ⟨.endInList, finish⟩, none)
  | fuel + 1, depth, shape, isFirst, t :: ts =>
    match t.lexeme, isFirst with
    | .closeBracket, _ => (.closed t.stop, some ts)
    | .comma, false =>
      match ts with
      | ⟨.closeBracket, start, _⟩ :: _ => (.broken ⟨.trailingComma, start + 1⟩, none)
      | _ => readItem finish fuel depth shape ts
    | _, true => readItem finish fuel depth shape (t :: ts)
    | _, false => (.broken ⟨.expectedCommaOrBracket, t.start + 1⟩, none)
  termination_by structural fuel => fuel

/-- The outline of an element and the rest of a list. -/
def readItem (finish : Nat) : Nat → Nat → Shape → List Located → Items × Option (List Located)
  | 0, _, _, _ => (.broken ⟨.endInValue, finish⟩, none)
  | fuel + 1, depth, shape, ts =>
    match readValue finish fuel depth shape.head ts with
    | (head, some rest) =>
      let (tail, rest') := readItems finish fuel depth shape.tail false rest
      (.cons (firstOf finish ts) head (afterItem finish rest) tail, rest')
    | (head, none) => (.cons (firstOf finish ts) head finish (.closed finish), none)
  termination_by structural fuel => fuel

/-- The outline of the rest of an object. -/
def readMembers (finish : Nat) :
    Nat → Nat → Shape → Bool → List Located → Members × Option (List Located)
  | 0, _, _, _, _ | _, _, _, _, [] => (.broken ⟨.endInObject, finish⟩, none)
  | fuel + 1, depth, shape, isFirst, t :: ts =>
    match t.lexeme, isFirst with
    | .closeBrace, _ => (.closed t.stop, some ts)
    | .comma, false =>
      match ts with
      | ⟨.closeBrace, start, _⟩ :: _ => (.broken ⟨.trailingComma, start + 1⟩, none)
      | _ => readMember finish fuel depth shape ts
    | _, true => readMember finish fuel depth shape (t :: ts)
    | _, false => (.broken ⟨.expectedCommaOrBrace, t.start + 1⟩, none)
  termination_by structural fuel => fuel

/-- The outline of a member and the rest of an object. -/
def readMember (finish : Nat) : Nat → Nat → Shape → List Located → Members × Option (List Located)
  | 0, _, _, _ | _, _, _, [] => (.broken ⟨.endInValue, finish⟩, none)
  | fuel + 1, depth, shape, t :: ts =>
    match t.lexeme with
    | .string (.error fault) _ => (.broken fault, none)
    | .string (.ok key) _ =>
      let next := afterKey finish ts
      let cutOff := fun (flaw : Flaw) (place : Nat) =>
        (Members.cons key next (.broken ⟨flaw, place⟩) (.closed finish), none)
      match ts with
      | [] => cutOff .endInObject finish
      | u :: us =>
        match u.lexeme with
        | .colon =>
          match readValue finish fuel depth (shape.member key) us with
          | (value, some rest) =>
            let (tail, rest') := readMembers finish fuel depth shape false rest
            (.cons key next value tail, rest')
          | (value, none) => (.cons key next value (.closed finish), none)
        | _ => cutOff .expectedColon (u.start + 1)
    | _ => (.broken ⟨.keyNotString, t.start + 1⟩, none)
  termination_by structural fuel => fuel

end

/-- How deep brackets may nest. -/
def maxDepth : Nat := 127

/-- The outline of a whole text, and a flaw behind it if something is left. -/
def outline (shape : Shape) (text : String) : Outline × Option Fault :=
  let ts := Lexeme.scan text
  match readValue text.utf8ByteSize (3 * ts.length + 3) maxDepth shape ts with
  | (root, some (t :: _)) => (root, some ⟨.trailingCharacters, t.start + 1⟩)
  | (root, _) => (root, none)

end Scriptwright.Json
