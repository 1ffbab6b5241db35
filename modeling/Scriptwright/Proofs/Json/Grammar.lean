/-
The grammar of JSON over rows of lexemes, and what a text shows of its value
(`Json.Shows`). Each relation says that a row begins with a value, or with the
rest of a list or object, and which row is left behind it. What a shape leaves
out follows a grammar of its own, which asks less of words and strings and gives
no value; it is null in what is shown.
-/
import Scriptwright.Proofs.Json.Spelling

namespace Scriptwright.Json

/-- An element or member with the comma before it, unless it is the first. -/
def separated : Bool → List Lexeme → List Lexeme
  | true, ls => ls
  | false, ls => .comma :: ls

mutual

/-- A row begins with a value that is well spelled as far as skipping goes. -/
inductive SkipsValue : List Lexeme → List Lexeme → Prop where
  | plain {value : Except Fault Scalar} {rest : List Lexeme} : SkipsValue (.plain value (.ok ()) :: rest) rest
  | string {value : Except Fault String} {rest : List Lexeme} : SkipsValue (.string value (.ok ()) :: rest) rest
  | array {ls rest : List Lexeme} (items : SkipsItems true ls rest) : SkipsValue (.openBracket :: ls) rest
  | object {ls rest : List Lexeme} (members : SkipsMembers true ls rest) : SkipsValue (.openBrace :: ls) rest

/-- A row begins with the rest of a list that is skipped. -/
inductive SkipsItems : Bool → List Lexeme → List Lexeme → Prop where
  | close {isFirst : Bool} {rest : List Lexeme} : SkipsItems isFirst (.closeBracket :: rest) rest
  | cons {isFirst : Bool} {ls behind rest : List Lexeme} (head : SkipsValue ls behind)
      (tail : SkipsItems false behind rest) : SkipsItems isFirst (separated isFirst ls) rest

/-- A row begins with the rest of an object that is skipped. -/
inductive SkipsMembers : Bool → List Lexeme → List Lexeme → Prop where
  | close {isFirst : Bool} {rest : List Lexeme} : SkipsMembers isFirst (.closeBrace :: rest) rest
  | cons {isFirst : Bool} {key : Except Fault String} {ls behind rest : List Lexeme} (value : SkipsValue ls behind)
      (tail : SkipsMembers false behind rest) :
      SkipsMembers isFirst (separated isFirst (.string key (.ok ()) :: .colon :: ls)) rest

end

mutual

/-- A row begins with a value, of which a shape shows this. -/
inductive ShowsValue : Shape → List Lexeme → Json → List Lexeme → Prop where
  | skipped {ls rest : List Lexeme} (value : SkipsValue ls rest) : ShowsValue .skipped ls (.scalar .null) rest
  | plain {shape : Shape} {value : Scalar} {skipped : Except Fault Unit} {rest : List Lexeme}
      (hshape : shape ≠ .skipped) : ShowsValue shape (.plain (.ok value) skipped :: rest) (.scalar value) rest
  | string {shape : Shape} {text : String} {skipped : Except Fault Unit} {rest : List Lexeme}
      (hshape : shape ≠ .skipped) : ShowsValue shape (.string (.ok text) skipped :: rest) (.scalar (.string text)) rest
  | array {shape : Shape} {ls rest : List Lexeme} {js : List Json} (hshape : shape ≠ .skipped)
      (items : ShowsItems shape true ls js rest) : ShowsValue shape (.openBracket :: ls) (.array js) rest
  | object {shape : Shape} {ls rest : List Lexeme} {ms : List (String × Json)} (hshape : shape ≠ .skipped)
      (members : ShowsMembers shape true ls ms rest) : ShowsValue shape (.openBrace :: ls) (.object ms) rest

/-- A row begins with the rest of a list, and its elements show these values. -/
inductive ShowsItems : Shape → Bool → List Lexeme → List Json → List Lexeme → Prop where
  | close {shape : Shape} {isFirst : Bool} {rest : List Lexeme} :
      ShowsItems shape isFirst (.closeBracket :: rest) [] rest
  | cons {shape : Shape} {isFirst : Bool} {ls behind rest : List Lexeme} {j : Json} {js : List Json}
      (head : ShowsValue shape.head ls j behind) (tail : ShowsItems shape.tail false behind js rest) :
      ShowsItems shape isFirst (separated isFirst ls) (j :: js) rest

/-- A row begins with the rest of an object, and its members show these keys and values. -/
inductive ShowsMembers : Shape → Bool → List Lexeme → List (String × Json) → List Lexeme → Prop where
  | close {shape : Shape} {isFirst : Bool} {rest : List Lexeme} :
      ShowsMembers shape isFirst (.closeBrace :: rest) [] rest
  | cons {shape : Shape} {isFirst : Bool} {key : String} {skipped : Except Fault Unit}
      {ls behind rest : List Lexeme} {j : Json} {ms : List (String × Json)}
      (value : ShowsValue (shape.member key) ls j behind) (tail : ShowsMembers shape false behind ms rest) :
      ShowsMembers shape isFirst (separated isFirst (.string (.ok key) skipped :: .colon :: ls)) ((key, j) :: ms) rest

end

/-- A text is one value and no more, and a shape shows this of it. -/
def Shows (shape : Shape) (text : String) (j : Json) : Prop :=
  ShowsValue shape ((Lexeme.scan text).map Located.lexeme) j []

/-! ## Rows get shorter -/

theorem length_le_separated (isFirst : Bool) (ls : List Lexeme) : ls.length ≤ (separated isFirst ls).length := by
  cases isFirst <;> simp [separated]

mutual

theorem SkipsValue.length_lt {ls rest : List Lexeme} (h : SkipsValue ls rest) : rest.length < ls.length := by
  match h with
  | .plain | .string => simp
  | .array items => exact Nat.lt_succ_of_lt (SkipsItems.length_lt items)
  | .object members => exact Nat.lt_succ_of_lt (SkipsMembers.length_lt members)
  termination_by structural h

theorem SkipsItems.length_lt {isFirst : Bool} {ls rest : List Lexeme} (h : SkipsItems isFirst ls rest) :
    rest.length < ls.length := by
  match h with
  | .close => simp
  | @SkipsItems.cons _ row _ _ head tail =>
    have hrow := length_le_separated isFirst row
    have hhead := SkipsValue.length_lt head
    have htail := SkipsItems.length_lt tail
    omega
  termination_by structural h

theorem SkipsMembers.length_lt {isFirst : Bool} {ls rest : List Lexeme} (h : SkipsMembers isFirst ls rest) :
    rest.length < ls.length := by
  match h with
  | .close => simp
  | @SkipsMembers.cons _ key row _ _ value tail =>
    have hrow := length_le_separated isFirst (.string key (.ok ()) :: .colon :: row)
    have hvalue := SkipsValue.length_lt value
    have htail := SkipsMembers.length_lt tail
    simp only [List.length_cons] at hrow
    omega
  termination_by structural h

end

mutual

theorem ShowsValue.length_lt {shape : Shape} {ls rest : List Lexeme} {j : Json} (h : ShowsValue shape ls j rest) :
    rest.length < ls.length := by
  match h with
  | .skipped value => exact value.length_lt
  | .plain _ | .string _ => simp
  | .array _ items => exact Nat.lt_succ_of_lt (ShowsItems.length_lt items)
  | .object _ members => exact Nat.lt_succ_of_lt (ShowsMembers.length_lt members)
  termination_by structural h

theorem ShowsItems.length_lt {shape : Shape} {isFirst : Bool} {ls rest : List Lexeme} {js : List Json}
    (h : ShowsItems shape isFirst ls js rest) : rest.length < ls.length := by
  match h with
  | .close => simp
  | @ShowsItems.cons _ _ row _ _ _ _ head tail =>
    have hrow := length_le_separated isFirst row
    have hhead := ShowsValue.length_lt head
    have htail := ShowsItems.length_lt tail
    omega
  termination_by structural h

theorem ShowsMembers.length_lt {shape : Shape} {isFirst : Bool} {ls rest : List Lexeme} {ms : List (String × Json)}
    (h : ShowsMembers shape isFirst ls ms rest) : rest.length < ls.length := by
  match h with
  | .close => simp
  | @ShowsMembers.cons _ _ key skipped row _ _ _ _ value tail =>
    have hrow := length_le_separated isFirst (.string (.ok key) skipped :: .colon :: row)
    have hvalue := ShowsValue.length_lt value
    have htail := ShowsMembers.length_lt tail
    simp only [List.length_cons] at hrow
    omega
  termination_by structural h

end

/-! ## The lexemes of a value -/

mutual

/-- What a shape lets through of a value: where it looks at nothing there is null. -/
def view : Json → Shape → Json
  | _, .skipped => .scalar .null
  | .scalar value, _ => .scalar value
  | .array items, shape => .array (viewItems items shape)
  | .object members, shape => .object (viewMembers members shape)
  termination_by structural j => j

def viewItems : List Json → Shape → List Json
  | [], _ => []
  | j :: js, shape => j.view shape.head :: viewItems js shape.tail
  termination_by structural js => js

def viewMembers : List (String × Json) → Shape → List (String × Json)
  | [], _ => []
  | (key, j) :: ms, shape => (key, j.view (shape.member key)) :: viewMembers ms shape
  termination_by structural ms => ms

end

mutual

theorem skips_lexemes (j : Json) {rest : List Lexeme} : SkipsValue (j.lexemes ++ rest) rest := by
  match j with
  | .scalar value => cases value <;> constructor
  | .array [] => exact .array .close
  | .array (j :: js) =>
    rw [lexemes, itemLexemes, List.cons_append, List.append_assoc]
    exact .array (.cons (skips_lexemes j) (skips_moreItemLexemes js))
  | .object [] => exact .object .close
  | .object ((key, j) :: ms) =>
    rw [lexemes, memberLexemes]
    simp only [List.cons_append, List.append_assoc]
    exact .object (.cons (skips_lexemes j) (skips_moreMemberLexemes ms))
  termination_by structural j

theorem skips_moreItemLexemes (js : List Json) {rest : List Lexeme} :
    SkipsItems false (moreItemLexemes js ++ rest) rest := by
  match js with
  | [] => exact .close
  | j :: js =>
    rw [moreItemLexemes, List.cons_append, List.append_assoc]
    exact .cons (skips_lexemes j) (skips_moreItemLexemes js)
  termination_by structural js

theorem skips_moreMemberLexemes (ms : List (String × Json)) {rest : List Lexeme} :
    SkipsMembers false (moreMemberLexemes ms ++ rest) rest := by
  match ms with
  | [] => exact .close
  | (key, j) :: ms =>
    rw [moreMemberLexemes]
    simp only [List.cons_append, List.append_assoc]
    exact .cons (skips_lexemes j) (skips_moreMemberLexemes ms)
  termination_by structural ms

end

section

variable {shape : Shape}

theorem view_skipped (j : Json) : j.view .skipped = .scalar .null := by
  cases j <;> rfl

theorem view_scalar (hshape : shape ≠ .skipped) (value : Scalar) : (Json.scalar value).view shape = .scalar value := by
  cases shape <;> first | rfl | contradiction

theorem view_array (hshape : shape ≠ .skipped) (items : List Json) :
    (Json.array items).view shape = .array (viewItems items shape) := by
  cases shape <;> first | rfl | contradiction

theorem view_object (hshape : shape ≠ .skipped) (members : List (String × Json)) :
    (Json.object members).view shape = .object (viewMembers members shape) := by
  cases shape <;> first | rfl | contradiction

end

mutual

/-- The lexemes of a value show what the shape lets through of it. -/
theorem shows_lexemes (j : Json) (shape : Shape) {rest : List Lexeme} :
    ShowsValue shape (j.lexemes ++ rest) (j.view shape) rest := by
  by_cases hshape : shape = .skipped
  · rw [hshape, view_skipped]
    exact .skipped (skips_lexemes j)
  match j with
  | .scalar value =>
    rw [view_scalar hshape]
    cases value with
    | string => exact .string hshape
    | null | bool | number => exact .plain hshape
  | .array [] =>
    rw [view_array hshape]
    exact .array hshape .close
  | .array (j :: js) =>
    rw [view_array hshape, viewItems, lexemes, itemLexemes, List.cons_append, List.append_assoc]
    exact .array hshape (.cons (shows_lexemes j shape.head) (shows_moreItemLexemes js shape.tail))
  | .object [] =>
    rw [view_object hshape]
    exact .object hshape .close
  | .object ((key, j) :: ms) =>
    rw [view_object hshape, viewMembers, lexemes, memberLexemes]
    simp only [List.cons_append, List.append_assoc]
    exact .object hshape (.cons (shows_lexemes j (shape.member key)) (shows_moreMemberLexemes ms shape))
  termination_by structural j

theorem shows_moreItemLexemes (js : List Json) (shape : Shape) {rest : List Lexeme} :
    ShowsItems shape false (moreItemLexemes js ++ rest) (viewItems js shape) rest := by
  match js with
  | [] => exact .close
  | j :: js =>
    rw [moreItemLexemes, viewItems, List.cons_append, List.append_assoc]
    exact .cons (shows_lexemes j shape.head) (shows_moreItemLexemes js shape.tail)
  termination_by structural js

theorem shows_moreMemberLexemes (ms : List (String × Json)) (shape : Shape) {rest : List Lexeme} :
    ShowsMembers shape false (moreMemberLexemes ms ++ rest) (viewMembers ms shape) rest := by
  match ms with
  | [] => exact .close
  | (key, j) :: ms =>
    rw [moreMemberLexemes, viewMembers]
    simp only [List.cons_append, List.append_assoc]
    exact .cons (shows_lexemes j (shape.member key)) (shows_moreMemberLexemes ms shape)
  termination_by structural ms

end

end Scriptwright.Json
