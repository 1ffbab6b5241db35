/-
One document has many layouts. The keys of an object may stand in any order, a
statement may be written as a list of its type and its fields, a variable, a
function or a case as a list of its two parts, and a statement may have members
that mean nothing to it. A step from one layout to another (`Relaid`) is taken
at one place of a value. No step changes what is read (`Relaid.reads`), so texts
whose values are any number of steps apart are the same document
(`parse_relaid`).
-/
import Mathlib.Logic.Relation
import Scriptwright.Proofs.Document.Places

namespace Scriptwright.Document

/-! ## Steps -/

/-- A value stands for a field of an object: it is the one that the members give, or one that says what the field is
when they leave it out. -/
def Supplies (ms : List (String × Json)) (field : Field) (j : Json) : Prop :=
  valuesOf field.name ms = [j] ∨ valuesOf field.name ms = [] ∧ ∃ v, field.absent = some v ∧ field.type.Reads j v

/-- One step from a layout of a value to another one. -/
inductive Relaid : Place → Json → Json → Prop where
  /-- Members change places. -/
  | reorder {p : Place} {ms ms' : List (String × Json)} (h : ms.Perm ms') : Relaid p (.object ms) (.object ms')
  /-- A statement becomes a list of its type and all its fields; members that mean nothing to it are left out. -/
  | statementList {p : Place} {ms : List (String × Json)} {tag : Json} {k : Kind} {js : List Json}
      (hp : p.IsStatement) (hkind : HasKind ms tag k) (hjs : List.Forall₂ (Supplies ms) k.fields js) :
      Relaid p (.object ms) (.array (tag :: js))
  /-- A variable, function or case becomes a list of its two parts. -/
  | pairList {first second : String} {distinct : first ≠ second} {value : Place} {ms : List (String × Json)}
      {j j' : Json} (hfirst : valuesOf first ms = [j]) (hsecond : valuesOf second ms = [j']) :
      Relaid (.pair first second distinct value) (.object ms) (.array [j, j'])
  /-- A statement gets a member that its kind does not know. -/
  | newMember {p : Place} {ms : List (String × Json)} {tag : Json} {k : Kind} {key : String} {j : Json}
      (hp : p.IsStatement) (hkind : HasKind ms tag k) (htype : key ≠ typeKey)
      (hunknown : ∀ f ∈ k.fields, f.name ≠ key) : Relaid p (.object ms) (.object ((key, j) :: ms))
  /-- A step is taken in the value of a member. -/
  | member {p : Place} {ms : List (String × Json)} {i : Nat} {key : String} {j j' : Json}
      (hi : ms[i]? = some (key, j)) (h : Relaid (p.member ms key) j j') :
      Relaid p (.object ms) (.object (ms.set i (key, j')))
  /-- A step is taken in an element. -/
  | element {p : Place} {js : List Json} {i : Nat} {j j' : Json} (hi : js[i]? = some j)
      (h : Relaid (p.element js i) j j') : Relaid p (.array js) (.array (js.set i j'))

/-! ## Objects that become lists -/

theorem GivesBy.of_eq {α : Type} {key : String} {R : Json → α → Prop} {absent : Option α} {a : α}
    {ms : List (String × Json)} {j : Json} (h : GivesBy key R absent ms a) (hj : valuesOf key ms = [j]) : R j a := by
  rcases h with ⟨j', hj', hR⟩ | ⟨hnone, -⟩
  · rw [hj] at hj'
    obtain rfl := (List.cons.inj hj').1
    exact hR
  · rw [hj] at hnone
    cases hnone

theorem ListsAll.of_supplies {ms : List (String × Json)} {fields : List Field} {record : Record fields} {js : List Json}
    (hjs : List.Forall₂ (Supplies ms) fields js) (h : GivesAll ms fields record) : ListsAll js fields record := by
  induction hjs with
  | nil => trivial
  | @cons field j fields js hfirst hrest ih =>
    obtain ⟨v, record⟩ := record
    obtain ⟨hgives, hothers⟩ := h
    refine ⟨?_, ih hothers⟩
    rcases hfirst with hj | ⟨hnone, w, habsent, hw⟩
    · exact hgives.of_eq hj
    · rcases hgives with ⟨j', hj', -⟩ | ⟨-, hv⟩
      · rw [hnone] at hj'
        cases hj'
      · rw [habsent] at hv
        obtain rfl := Option.some.inj hv
        exact hw

theorem StatementBy.toList {K : Json → Kind → Prop} (hK : ∀ {j k}, K j k → ReadsKind j k) {ms : List (String × Json)}
    {tag : Json} {k : Kind} {js : List Json} {s : Statement} (hkind : HasKind ms tag k)
    (hjs : List.Forall₂ (Supplies ms) k.fields js) (h : StatementBy K (.object ms) s) :
    StatementBy K (.array (tag :: js)) s := by
  obtain ⟨k', record, hk', hrecord, hs⟩ := h
  have htag : K tag k' := hk'.of_eq hkind.1
  obtain rfl : k = k' := Except.ok.inj (hkind.2.symm.trans (hK htag))
  exact ⟨k, record, htag, .of_supplies hjs hrecord, hs⟩

/-! ## Any number of steps -/

/-- What a value stands for is not changed by a step. -/
theorem Relaid.reads {p : Place} {j j' : Json} (h : Relaid p j j') : ∀ v, p.Reads j v → p.Reads j' v := by
  induction h with
  | reorder hperm =>
    intro v
    exact reads_object (fun _ hknown m hm => hknown m (hperm.mem_iff.2 hm)) fun key q _ => .of_perm hperm
  | @statementList p ms tag k js hp hkind hjs =>
    intro s h
    rcases hp with rfl | rfl
    · exact StatementBy.toList NamesKind.readsKind hkind hjs h
    · exact readField_statement_iff.2 (StatementBy.toList (fun h => h) hkind hjs (readField_statement_iff.1 h))
  | pairList hfirst hsecond =>
    rintro ⟨text, a⟩ ⟨htext, ha⟩
    exact ⟨htext.of_eq hfirst, ha.of_eq hsecond⟩
  | @newMember p ms tag k key j hp hkind htype hunknown =>
    intro v
    have hdocument : p ≠ .document := by rcases hp with rfl | rfl <;> simp
    refine reads_object (fun h => absurd h hdocument) fun key' q hq => .of_eq (valuesOf_cons_of_ne ?_ j ms)
    rintro rfl
    rw [member?_unknown hp hkind htype hunknown] at hq
    cases hq
  | @member p ms i key j j' hi h ih =>
    intro v
    refine reads_object (fun _ hknown m hm => ?_) fun key' q hq => ?_
    · rcases List.mem_or_eq_of_mem_set hm with hm | rfl
      · exact hknown m hm
      · exact hknown (key, j) (List.mem_of_getElem? hi)
    · by_cases hkey : key = key'
      · subst hkey
        rw [Place.member, hq] at ih
        exact .of_set hi ih
      · exact .of_eq (valuesOf_set_of_ne hi hkey)
  | @element p js i j j' hi h ih =>
    intro v
    refine reads_array hi fun q hq => ?_
    rw [Place.element, hq] at ih
    exact ih

/-- Nor is it changed by any number of steps. -/
theorem reads_of_steps {p : Place} {j j' : Json} (h : Relation.ReflTransGen (Relaid p) j j') {v : p.Value}
    (hj : p.Reads j v) : p.Reads j' v := by
  induction h with
  | refl => exact hj
  | tail _ hstep ih => exact hstep.reads v ih

/-- Take any text that is accepted as a document. It shows a value; and any text whose value is any number of steps away
from that, at whatever places they are taken, is accepted as the same document, if it does not nest too deep. -/
theorem parse_relaid {source : String} {document : Document} (h : parse source = .ok document) :
    (∃ j, Json.Shows shape source j) ∧
      ∀ (j j' : Json) (source' : String), Json.Shows shape source j → Relation.ReflTransGen (Relaid .document) j j' →
        Json.Shows shape source' j' → j'.depth ≤ Json.maxDepth → parse source' = .ok document := by
  obtain ⟨j₀, hshows₀, -, hreads⟩ := parse_eq_ok_iff.1 h
  refine ⟨⟨j₀, hshows₀⟩, fun j j' source' hshows hsteps hshows' hdepth => ?_⟩
  obtain rfl := hshows.unique hshows₀
  have hreads' : DocumentOf j' document := reads_of_steps hsteps hreads
  exact parse_eq_ok_iff.2 ⟨j', hshows', hdepth, hreads'⟩

/-- A switch in two layouts. Its case is an object or a list, and so is the call in it, whose arguments are left out or
written; its keys are in different orders, and one of them means nothing. -/
theorem parse_relaid_of_switch :
    let source := "\x7b\"statements\":[\x7b\"index\":1,\"cases\":[\x7b\"then\":\x7b\"function\":\"f\"," ++
      "\"type\":\"call\"\x7d,\"value\":\"a\"\x7d],\"type\":\"switch_arg\"\x7d]\x7d"
    let source' := "\x7b\"statements\":[\x7b\"x\":[null],\"type\":\"switch_arg\",\"index\":1," ++
      "\"cases\":[[\"a\",[\"call\",\"f\",[]]]]\x7d]\x7d"
    ∃ document, parse source = .ok document ∧ parse source' = .ok document := by
  intro source source'
  let call : Json := .object [("function", ofText "f"), ("type", ofText "call")]
  let switch : Json → List (String × Json) := fun arm =>
    [("index", ofInt 1), ("cases", .array [arm]), ("type", ofText "switch_arg")]
  let root : Json → Json := fun s => .object [("statements", .array [s])]
  let first := root (.object (switch (.object [("then", call), ("value", ofText "a")])))
  let arm := Json.array [ofText "a", .array [ofText "call", ofText "f", .array []]]
  let last := root (.object [("x", .array [.scalar .null]), ("type", ofText "switch_arg"), ("index", ofInt 1),
    ("cases", .array [arm])])
  have hroot : ∀ {s s'}, Relaid .statement s s' → Relaid .document (root s) (root s') := fun h =>
    .member (i := 0) rfl (.element (i := 0) rfl h)
  have hswitch : ∀ {a a'}, Relaid .case a a' → Relaid .statement (.object (switch a)) (.object (switch a')) := fun h =>
    .member (i := 1) rfl (.element (i := 0) rfl h)
  have hpair : Relaid .case (.object [("then", call), ("value", ofText "a")]) (.array [ofText "a", call]) :=
    .pairList rfl rfl
  have hcall : Relaid .case (.array [ofText "a", call]) arm :=
    .element (i := 1) rfl (.statementList (k := .call) (.inr rfl) ⟨rfl, rfl⟩
      (.cons (.inl rfl) (.cons (.inr ⟨rfl, [], rfl, rfl⟩) .nil)))
  have hnew : Relaid .statement (.object (switch arm)) (.object (("x", .array [.scalar .null]) :: switch arm)) :=
    .newMember (k := .switchArg) (.inl rfl) ⟨rfl, rfl⟩ (by decide) (by decide)
  have hsteps : Relation.ReflTransGen (Relaid .document) first last :=
    .head (hroot (hswitch hpair)) (.head (hroot (hswitch hcall)) (.head (hroot hnew)
      (.single (hroot (.reorder (.cons _ (@List.perm_append_comm _ [_, _] [_])))))))
  have hshows : ∀ {j : Json} {text : String}, (∀ l ∈ j.lexemes, l.isWritten = true) →
      j.lexemes.flatMap Json.Lexeme.written = text.toList → Json.Shows shape text (j.view shape) :=
    fun hsound htext => Json.shows_of_spells (htext ▸ Json.spells_written hsound) shape
  have hfirst : Json.Shows shape source first := hshows (j := first) (by decide) (by decide +kernel)
  have hlast : Json.Shows shape source' last := hshows (j := last) (by decide) (by decide +kernel)
  have hdepth : last.depth ≤ Json.maxDepth := by decide
  obtain ⟨document, h⟩ : ∃ document, parse source = .ok document := exists_ok_of_isOk (by decide +kernel)
  exact ⟨document, h, (parse_relaid h).2 first last source' hfirst hsteps hlast hdepth⟩

end Scriptwright.Document
