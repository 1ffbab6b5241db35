/-
JSON values, and the walk over a value on which proofs about it follow.
-/
import Scriptwright.Json.Lexeme

namespace Scriptwright

/-- A JSON value; an object keeps its members in the order written, repeated keys and all. -/
inductive Json where
  | scalar (value : Json.Scalar)
  | array (items : List Json)
  | object (members : List (String × Json))
  deriving Repr

/-- A value is a scalar, a list of values, or an object of values. -/
@[elab_as_elim]
theorem Json.induction {motive : Json → Prop} (scalar : ∀ value, motive (.scalar value))
    (array : ∀ items, (∀ j ∈ items, motive j) → motive (.array items))
    (object : ∀ members, (∀ m ∈ members, motive m.2) → motive (.object members)) : ∀ j, motive j
  | .scalar value => scalar value
  | .array items => array items fun j _ => induction scalar array object j
  | .object members => object members fun m _ => induction scalar array object m.2
termination_by j => sizeOf j
decreasing_by
  · have := List.sizeOf_lt_of_mem ‹_ ∈ items›
    simp only [Json.array.sizeOf_spec]
    omega
  · have := List.sizeOf_lt_of_mem ‹_ ∈ members›
    obtain ⟨key, j⟩ := m
    simp only [Json.object.sizeOf_spec, Prod.mk.sizeOf_spec] at this ⊢
    omega

end Scriptwright
