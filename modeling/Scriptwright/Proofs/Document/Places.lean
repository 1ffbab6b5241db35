/-
The places of a document, and what values stand for there. A value inside
another one has a place by the key or the index that leads to it. If a part of a
value is exchanged for one that stands for the same at its place, or if members
that mean something pass on what they give, then the whole stands for the same
(`reads_object`, `reads_array`).
-/
import Scriptwright.Proofs.Document.Outlines

namespace Scriptwright.Document

/-! ## Places -/

/-- Where in a document a value stands, as far as reading goes. -/
inductive Place where
  | document
  /-- A list, by the place of its elements. -/
  | list (item : Place)
  /-- A record of a text and something else, by the keys of both and the place of the other. -/
  | pair (first second : String) (distinct : first ≠ second) (value : Place)
  /-- A statement that is in no other. -/
  | statement
  /-- A field of a statement, or the statement of a case. -/
  | field (type : FieldType)
  /-- The kind of a statement. -/
  | kind
  /-- A value that means nothing. -/
  | other

namespace Place

/-- The variables of a document. -/
abbrev exports : Place :=
  .list (.pair nameKey "value" (by decide) (.field .text))

/-- The functions of a document. -/
abbrev functions : Place :=
  .list (.pair nameKey "body" (by decide) (.list .statement))

/-- The statements of a document. -/
abbrev statements : Place :=
  .list .statement

/-- A case of a switch. -/
abbrev case : Place :=
  .pair "value" "then" (by decide) (.field .statement)

/-- What values there stand for. -/
def Value : Place → Type
  | document => Document
  | list item => List item.Value
  | pair _ _ _ value => String × value.Value
  | statement => Statement
  | field type => type.Value
  | kind => Json.Scalar
  | other => Unit

/-- What a value there stands for. -/
def Reads : (p : Place) → Json → p.Value → Prop
  | document => DocumentOf
  | list item => ListOf item.Reads
  | pair first second _ value => PairOf first second value.Reads
  | statement => StatementBy NamesKind
  | field type => type.Reads
  | kind => fun j value => j = .scalar value
  | other => fun _ _ => True

/-- Values there stand for statements. -/
def IsStatement (p : Place) : Prop :=
  p = statement ∨ p = field .statement

/-- The place of a field of a kind, if there is one. -/
def ofField (k : Except Mismatch Kind) (find : List Field → Option Field) : Option Place :=
  match k with
  | .ok k => (find k.fields).map fun f => field f.type
  | .error _ => none

/-- The place of the value of a key in an object there, if the key means anything. -/
def member? : Place → List (String × Json) → String → Option Place
  | document, _, key => [("variables", exports), ("functions", functions), ("statements", statements)].lookup key
  | pair first second _ value, _, key => [(first, field .text), (second, value)].lookup key
  | statement, ms, key | field .statement, ms, key =>
    if key = typeKey then some kind
    else ofField (kindOfMembers none ms) fun fields => fields.find? fun f => f.name = key
  | _, _, _ => none

/-- The place of the element of an index in a list there, if there can be one. -/
def element? : Place → List Json → Nat → Option Place
  | document, _, i => [exports, functions, statements][i]?
  | list item, _, _ => some item
  | pair _ _ _ value, _, i => [field .text, value][i]?
  | statement, _, 0 | field .statement, _, 0 => some kind
  | statement, tag :: _, i + 1 | field .statement, tag :: _, i + 1 => ofField (kindOf tag) fun fields => fields[i]?
  | field .texts, _, _ => some (field .text)
  | field .statements, _, _ => some (field .statement)
  | field .cases, _, _ => some case
  | _, _, _ => none

/-- The place of the value of a key in an object there. -/
def member (p : Place) (ms : List (String × Json)) (key : String) : Place :=
  (p.member? ms key).getD other

/-- The place of the element of an index in a list there. -/
def element (p : Place) (js : List Json) (i : Nat) : Place :=
  (p.element? js i).getD other

end Place

/-! ## Members that pass on what others give -/

/-- Members pass on to others what they give a key: if no value, then none; if one value, then one that says whatever it
says. -/
def Passes {α : Type} (key : String) (R : Json → α → Prop) (ms ms' : List (String × Json)) : Prop :=
  (valuesOf key ms = [] → valuesOf key ms' = []) ∧
    ∀ j, valuesOf key ms = [j] → ∃ j', valuesOf key ms' = [j'] ∧ ∀ a, R j a → R j' a

section

variable {α : Type} {key : String} {R : Json → α → Prop} {absent : Option α} {a : α}
variable {ms ms' : List (String × Json)}

theorem Passes.of_eq (h : valuesOf key ms' = valuesOf key ms) : Passes key R ms ms' :=
  ⟨fun hnone => h.trans hnone, fun j hj => ⟨j, h.trans hj, fun _ ha => ha⟩⟩

theorem Passes.of_perm (h : ms.Perm ms') : Passes key R ms ms' := by
  have hvalues : (valuesOf key ms).Perm (valuesOf key ms') := (h.filter _).map _
  constructor
  · intro hnone
    rw [hnone] at hvalues
    exact hvalues.nil_eq.symm
  · intro j hj
    rw [hj] at hvalues
    exact ⟨j, (List.singleton_perm.1 hvalues).symm, fun _ ha => ha⟩

theorem exists_valuesOf_set {i : Nat} {j : Json} (hi : ms[i]? = some (key, j)) (j' : Json) :
    ∃ n, (valuesOf key ms)[n]? = some j ∧ valuesOf key (ms.set i (key, j')) = (valuesOf key ms).set n j' := by
  induction ms generalizing i with
  | nil => cases hi
  | cons m ms ih =>
    cases i with
    | zero =>
      obtain rfl := Option.some.inj hi
      rw [List.set_cons_zero, valuesOf_cons_self, valuesOf_cons_self]
      exact ⟨0, rfl, rfl⟩
    | succ i =>
      obtain ⟨n, hn, hset⟩ := ih hi
      obtain ⟨other, k⟩ := m
      rw [List.set_cons_succ]
      by_cases hkey : other = key
      · subst hkey
        rw [valuesOf_cons_self, valuesOf_cons_self, hset]
        exact ⟨n + 1, hn, rfl⟩
      · rw [valuesOf_cons_of_ne hkey, valuesOf_cons_of_ne hkey]
        exact ⟨n, hn, hset⟩

theorem valuesOf_set_of_ne {other : String} {i : Nat} {j j' : Json} (hi : ms[i]? = some (other, j))
    (hne : other ≠ key) : valuesOf key (ms.set i (other, j')) = valuesOf key ms := by
  induction ms generalizing i with
  | nil => rfl
  | cons m ms ih =>
    cases i with
    | zero =>
      obtain rfl := Option.some.inj hi
      rw [List.set_cons_zero, valuesOf_cons_of_ne hne, valuesOf_cons_of_ne hne]
    | succ i =>
      obtain ⟨k, j₀⟩ := m
      rw [List.set_cons_succ]
      by_cases hk : k = key
      · subst hk
        rw [valuesOf_cons_self, valuesOf_cons_self, ih hi]
      · rw [valuesOf_cons_of_ne hk, valuesOf_cons_of_ne hk, ih hi]

theorem Passes.of_set {i : Nat} {j j' : Json} (hi : ms[i]? = some (key, j)) (hR : ∀ a, R j a → R j' a) :
    Passes key R ms (ms.set i (key, j')) := by
  obtain ⟨n, hn, hset⟩ := exists_valuesOf_set hi j'
  rw [Passes, hset]
  constructor
  · intro hnone
    rw [hnone] at hn
    cases hn
  · intro j₀ hj₀
    rw [hj₀] at hn ⊢
    cases n with
    | zero =>
      obtain rfl := Option.some.inj hn
      exact ⟨j', rfl, hR⟩
    | succ n => cases hn

theorem Passes.givesBy (h : Passes key R ms ms') (hgives : GivesBy key R absent ms a) : GivesBy key R absent ms' a := by
  rcases hgives with ⟨j, hj, ha⟩ | ⟨hnone, habsent⟩
  · obtain ⟨j', hj', hR⟩ := h.2 j hj
    exact .inl ⟨j', hj', hR a ha⟩
  · exact .inr ⟨h.1 hnone, habsent⟩

theorem GivesAll.of_passes {fields : List Field} {record : Record fields}
    (h : ∀ f ∈ fields, Passes f.name f.type.Reads ms ms') (hgives : GivesAll ms fields record) :
    GivesAll ms' fields record := by
  induction fields with
  | nil => trivial
  | cons field fields ih =>
    obtain ⟨v, record⟩ := record
    obtain ⟨hfirst, hrest⟩ := List.forall_mem_cons.1 h
    exact ⟨hfirst.givesBy hgives.1, ih hrest hgives.2⟩

end

/-! ## Objects -/

/-- The members of an object give a statement its kind. -/
def HasKind (ms : List (String × Json)) (tag : Json) (k : Kind) : Prop :=
  valuesOf typeKey ms = [tag] ∧ kindOf tag = .ok k

section

variable {p : Place} {ms ms' : List (String × Json)} {tag : Json} {k : Kind}

theorem HasKind.kindOfMembers (h : HasKind ms tag k) : kindOfMembers none ms = .ok k :=
  kindOfMembers_eq_ok_iff.2 (.inl ⟨tag, h⟩)

theorem find?_field {f : Field} (hf : f ∈ k.fields) : k.fields.find? (fun g => g.name = f.name) = some f := by
  cases k <;> simp only [Kind.fields, List.mem_cons, List.not_mem_nil, or_false] at hf
  all_goals rcases hf with rfl | rfl <;> rfl

theorem member?_type (hp : p.IsStatement) : p.member? ms typeKey = some .kind := by
  rcases hp with rfl | rfl <;> rfl

theorem member?_of_ne {key : String} (hp : p.IsStatement) (h : HasKind ms tag k) (hkey : key ≠ typeKey) :
    p.member? ms key = (k.fields.find? fun f => f.name = key).map fun f => Place.field f.type := by
  rcases hp with rfl | rfl
  all_goals rw [Place.member?, if_neg hkey, h.kindOfMembers, Place.ofField]

theorem member?_field (hp : p.IsStatement) (h : HasKind ms tag k) {f : Field} (hf : f ∈ k.fields) :
    p.member? ms f.name = some (.field f.type) := by
  rw [member?_of_ne hp h (name_ne_typeKey f hf), find?_field hf]
  rfl

theorem member?_unknown (hp : p.IsStatement) (h : HasKind ms tag k) {key : String} (hkey : key ≠ typeKey)
    (hunknown : ∀ f ∈ k.fields, f.name ≠ key) : p.member? ms key = none := by
  rw [member?_of_ne hp h hkey, List.find?_eq_none.2 fun f hf => by simpa using hunknown f hf]
  rfl

theorem NamesKind.readsKind {j : Json} (h : NamesKind j k) : ReadsKind j k := by
  rw [h]
  exact kindOf_name k

theorem ReadsKind.exists_scalar {j : Json} (h : ReadsKind j k) : ∃ value, j = .scalar value := by
  cases j with
  | scalar value => exact ⟨value, rfl⟩
  | array | object => cases h

/-- An object stands for the same statement if its members pass on the type and the fields. -/
theorem StatementBy.of_passes {K : Json → Kind → Prop} (hK : ∀ {j k}, K j k → ReadsKind j k) {s : Statement}
    (hp : p.IsStatement) (hpass : ∀ key q, p.member? ms key = some q → Passes key q.Reads ms ms')
    (h : StatementBy K (.object ms) s) : StatementBy K (.object ms') s := by
  obtain ⟨k, record, ⟨tag, htag, hk⟩ | ⟨-, ⟨⟩⟩, hrecord, hs⟩ := h
  obtain ⟨value, rfl⟩ := (hK hk).exists_scalar
  have hkind : HasKind ms (.scalar value) k := ⟨htag, hK hk⟩
  -- The kind is a scalar, and nothing but itself stands for the same.
  obtain ⟨tag, htag', hsame⟩ := (hpass typeKey .kind (member?_type hp)).2 _ htag
  obtain rfl : tag = .scalar value := hsame value rfl
  have hfields : ∀ f ∈ k.fields, Passes f.name f.type.Reads ms ms' := fun f hf =>
    hpass f.name (.field f.type) (member?_field hp hkind hf)
  exact ⟨k, record, .inl ⟨_, htag', hk⟩, hrecord.of_passes hfields, hs⟩

/-- An object stands for the same if its members pass on all that matters there. -/
theorem reads_object {v : p.Value} (hknown : p = .document → (∀ m ∈ ms, m.1 ∈ keys) → ∀ m ∈ ms', m.1 ∈ keys)
    (hpass : ∀ key q, p.member? ms key = some q → Passes key q.Reads ms ms') (h : p.Reads (.object ms) v) :
    p.Reads (.object ms') v := by
  match p with
  | .document =>
    obtain ⟨hkeys, hexports, hfunctions, hstatements⟩ := h
    exact ⟨hknown rfl hkeys, (hpass "variables" .exports rfl).givesBy hexports,
      (hpass "functions" .functions rfl).givesBy hfunctions, (hpass "statements" .statements rfl).givesBy hstatements⟩
  | .list item =>
    obtain ⟨js, hjs, -⟩ := h
    cases hjs
  | .pair first second distinct value =>
    obtain ⟨hfirst, hsecond⟩ := h
    have hfirst' : (Place.pair first second distinct value).member? ms first = some (.field .text) :=
      List.lookup_cons_self
    have hsecond' : (Place.pair first second distinct value).member? ms second = some value := by
      rw [Place.member?, List.lookup_cons, beq_false_of_ne distinct.symm]
      exact List.lookup_cons_self
    exact ⟨(hpass _ _ hfirst').givesBy hfirst, (hpass _ _ hsecond').givesBy hsecond⟩
  | .statement => exact StatementBy.of_passes NamesKind.readsKind (.inl rfl) hpass h
  | .field .statement =>
    exact readField_statement_iff.2 (StatementBy.of_passes (fun h => h) (.inr rfl) hpass (readField_statement_iff.1 h))
  | .field .text | .field .flag | .field .index | .field .texts | .field .code | .field .statements
    | .field .cases => cases h
  | .kind => cases h
  | .other => trivial

end

/-! ## Lists -/

section

variable {α : Type} {R : Json → α → Prop} {js : List Json} {j j' : Json} {i : Nat}

theorem forall₂_set {as : List α} (h : List.Forall₂ R js as) (hi : js[i]? = some j) (hR : ∀ a, R j a → R j' a) :
    List.Forall₂ R (js.set i j') as := by
  induction h generalizing i with
  | nil => exact .nil
  | cons hfirst hrest ih =>
    cases i with
    | zero =>
      obtain rfl := Option.some.inj hi
      exact .cons (hR _ hfirst) hrest
    | succ i => exact .cons hfirst (ih hi)

theorem ListOf.set {as : List α} (h : ListOf R (.array js) as) (hi : js[i]? = some j) (hR : ∀ a, R j a → R j' a) :
    ListOf R (.array (js.set i j')) as :=
  listOf_array_iff.2 (forall₂_set (listOf_array_iff.1 h) hi hR)

theorem MaySay.set {R : Json → List α → Prop} {n : Nat} {as : List α} (h : MaySay R js[n]? as) (hi : js[i]? = some j)
    (hR : i = n → ∀ as, R j as → R j' as) : MaySay R (js.set i j')[n]? as := by
  by_cases hn : i = n
  · subst hn
    rw [List.getElem?_set_self (List.getElem?_eq_some_iff.1 hi).1]
    rw [hi] at h
    exact hR rfl as h
  · rwa [List.getElem?_set_ne hn]

theorem ListsAll.set {fields : List Field} {record : Record fields} (h : ListsAll js fields record)
    (hi : js[i]? = some j) (hR : ∀ f, fields[i]? = some f → ∀ v, f.type.Reads j v → f.type.Reads j' v) :
    ListsAll (js.set i j') fields record := by
  induction js generalizing fields i with
  | nil => cases hi
  | cons first js ih =>
    cases fields with
    | nil => cases h
    | cons field fields =>
      obtain ⟨v, record⟩ := record
      obtain ⟨hfirst, hrest⟩ := h
      cases i with
      | zero =>
        obtain rfl := Option.some.inj hi
        exact ⟨hR field rfl v hfirst, hrest⟩
      | succ i => exact ⟨hfirst, ih hrest hi fun f hf => hR f hf⟩

theorem element?_zero {p : Place} (hp : p.IsStatement) : p.element? js 0 = some .kind := by
  rcases hp with rfl | rfl <;> rfl

theorem element?_succ {p : Place} (hp : p.IsStatement) {tag : Json} {k : Kind} (hk : ReadsKind tag k) :
    p.element? (tag :: js) (i + 1) = k.fields[i]?.map fun f => Place.field f.type := by
  rcases hp with rfl | rfl
  all_goals rw [Place.element?, hk, Place.ofField]

/-- A list stands for the same statement if an element of it is exchanged for one that stands for the same. -/
theorem StatementBy.set {K : Json → Kind → Prop} (hK : ∀ {j k}, K j k → ReadsKind j k) {p : Place} {s : Statement}
    (hp : p.IsStatement) (hi : js[i]? = some j)
    (hR : ∀ q, p.element? js i = some q → ∀ v, q.Reads j v → q.Reads j' v) (h : StatementBy K (.array js) s) :
    StatementBy K (.array (js.set i j')) s := by
  cases js with
  | nil => cases h
  | cons tag js =>
    obtain ⟨k, record, hk, hrecord, hs⟩ := h
    cases i with
    | zero =>
      obtain rfl := Option.some.inj hi
      obtain ⟨value, rfl⟩ := (hK hk).exists_scalar
      obtain rfl : j' = .scalar value := hR .kind (element?_zero hp) value rfl
      exact ⟨k, record, hk, hrecord, hs⟩
    | succ i =>
      have hfields : ∀ f, k.fields[i]? = some f → ∀ v, f.type.Reads j v → f.type.Reads j' v := by
        intro f hf
        refine hR (.field f.type) ?_
        rw [element?_succ hp (hK hk), hf]
        rfl
      exact ⟨k, record, hk, hrecord.set hi hfields, hs⟩

/-- A list stands for the same if an element of it is exchanged for one that stands for the same. -/
theorem reads_array {p : Place} {v : p.Value} (hi : js[i]? = some j)
    (hR : ∀ q, p.element? js i = some q → ∀ v, q.Reads j v → q.Reads j' v) (h : p.Reads (.array js) v) :
    p.Reads (.array (js.set i j')) v := by
  match p with
  | .document =>
    obtain ⟨hexports, hfunctions, hstatements, hlength⟩ := h
    refine ⟨hexports.set hi ?_, hfunctions.set hi ?_, hstatements.set hi ?_, (List.length_set).trans_le hlength⟩
    all_goals
      rintro rfl
      exact hR _ rfl
  | .list item => exact ListOf.set h hi (hR item rfl)
  | .pair first second distinct value =>
    match js, i, h with
    | [a, b], 0, ⟨hfirst, hsecond⟩ =>
      obtain rfl := Option.some.inj hi
      exact ⟨hR (.field .text) rfl _ hfirst, hsecond⟩
    | [a, b], 1, ⟨hfirst, hsecond⟩ =>
      obtain rfl := Option.some.inj hi
      exact ⟨hfirst, hR value rfl _ hsecond⟩
    | [a, b], i + 2, _ => cases hi
  | .statement => exact StatementBy.set NamesKind.readsKind (.inl rfl) hi hR h
  | .field .statement =>
    exact readField_statement_iff.2 (StatementBy.set (fun h => h) (.inr rfl) hi hR (readField_statement_iff.1 h))
  | .field .texts => exact reads_texts_iff.2 (ListOf.set (reads_texts_iff.1 h) hi (hR (.field .text) rfl))
  | .field .statements =>
    exact reads_statements_iff.2 (ListOf.set (reads_statements_iff.1 h) hi (hR (.field .statement) rfl))
  | .field .cases => exact reads_cases_iff.2 (ListOf.set (reads_cases_iff.1 h) hi (hR .case rfl))
  | .field .text | .field .flag | .field .index | .field .code => cases h
  | .kind => cases h
  | .other => trivial

end

end Scriptwright.Document
