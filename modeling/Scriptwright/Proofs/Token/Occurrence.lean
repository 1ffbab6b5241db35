/-
Names in braces, and that tokens are replaced in one pass over all of them at
once. Two places where a name stands in braces are one place or lie apart
(`Occurrence.eq_or_apart`), so a search from left to right that goes on behind
each name it finds (`Search`) finds every one of them (`Search.exists_found`).
Cutting a text into tokens does the same without looking at names that no token
has (`Search.flatMap_expand`), and texts joined where no name in braces is cut
in two are replaced each on its own (`scan_append_of_uncut`).
-/
import Mathlib.Order.WellFounded
import Scriptwright.Proofs.Token.Scan

namespace Scriptwright.Token

/-! ## Places -/

/-- A name that can stand in braces: small letters, at least one. -/
structure IsName (name : List Char) : Prop where
  ne_nil : name ≠ []
  isLower : ∀ c ∈ name, c.isLower = true

/-- A name between braces. -/
def braced (name : List Char) : List Char :=
  '\x7b' :: (name ++ ['\x7d'])

/-- A place in a text where a name stands in braces. -/
@[ext] structure Occurrence (cs : List Char) where
  before : List Char
  name : List Char
  behind : List Char
  isName : IsName name
  spelled : before ++ (braced name ++ behind) = cs

variable {cs a b : List Char}

namespace Occurrence

/-- One place ends before another starts. -/
def EndsBefore (x y : Occurrence cs) : Prop :=
  x.before ++ braced x.name <+: y.before

end Occurrence

theorem IsName.openBrace_not_mem {name : List Char} (h : IsName name) : '\x7b' ∉ name ++ ['\x7d'] := by
  have hname : '\x7b' ∉ name := fun hm => absurd (h.isLower _ hm) (by decide)
  simp [hname]

/-- A name is told by the text after its opening brace. -/
theorem IsName.eq_of_append {name name' : List Char} (h : IsName name) (h' : IsName name')
    (he : braced name ++ a = braced name' ++ b) : name = name' ∧ a = b := by
  have hword : ∀ {name : List Char}, IsName name → ∀ a, (name ++ '\x7d' :: a).takeWhile Char.isLower = name := by
    intro name h a
    rw [List.takeWhile_append_of_pos h.isLower]
    simp
  simp only [braced, List.cons_append, List.append_assoc, List.nil_append, List.cons.injEq, true_and] at he
  obtain rfl : name = name' := by rw [← hword h a, he, hword h' b]
  simpa using he

/-- Behind the start of a name in braces the next opening brace comes after the closing one. -/
theorem IsName.braced_prefix {name : List Char} (h : IsName name) {d : List Char} (hd : d ≠ [])
    (he : braced name ++ a = d ++ '\x7b' :: b) : braced name <+: d := by
  rcases List.append_eq_append_iff.1 he with ⟨rest, rfl, -⟩ | ⟨rest, hname, hrest⟩
  · exact List.prefix_append _ _
  · cases rest with
    | nil => simp [hname]
    | cons c rest =>
      obtain rfl : '\x7b' = c := (List.cons.inj hrest).1
      obtain ⟨c, d, rfl⟩ := List.exists_cons_of_ne_nil hd
      rw [braced, List.cons_append, List.cons.injEq] at hname
      exact absurd (hname.2 ▸ by simp) h.openBrace_not_mem

/-- A name in braces holds no other name in braces. -/
theorem IsName.name_eq {name : List Char} (h : IsName name) (x : Occurrence (braced name)) : x.name = name := by
  obtain ⟨before, other, behind, hother, hspelled⟩ := x
  cases before with
  | nil => exact (hother.eq_of_append h (hspelled.trans (List.append_nil _).symm)).1
  | cons c before =>
    have hlater : before ++ (braced other ++ behind) = name ++ ['\x7d'] := (List.cons.inj hspelled).2
    exact absurd (hlater ▸ by simp [braced]) h.openBrace_not_mem

namespace Occurrence

/-- Of two places the one that starts no later is the other one or ends before it. -/
theorem eq_or_endsBefore {x y : Occurrence cs} (h : x.before <+: y.before) : x = y ∨ x.EndsBefore y := by
  obtain ⟨d, hd⟩ := h
  have he : braced x.name ++ x.behind = d ++ (braced y.name ++ y.behind) := by
    have hwhole := x.spelled.trans y.spelled.symm
    rwa [← hd, List.append_assoc, List.append_cancel_left_eq] at hwhole
  by_cases hnil : d = []
  · subst hnil
    obtain ⟨hname, hbehind⟩ := x.isName.eq_of_append y.isName he
    exact .inl (Occurrence.ext (by simpa using hd) hname hbehind)
  · obtain ⟨e, rfl⟩ := x.isName.braced_prefix hnil he
    refine .inr ⟨e, ?_⟩
    rw [← hd, List.append_assoc]

/-- No two places overlap. -/
theorem eq_or_apart (x y : Occurrence cs) : x = y ∨ x.EndsBefore y ∨ y.EndsBefore x := by
  have hx : x.before <+: cs := ⟨_, x.spelled⟩
  have hy : y.before <+: cs := ⟨_, y.spelled⟩
  rcases List.prefix_or_prefix_of_prefix hx hy with h | h
  · rcases eq_or_endsBefore h with h | h
    · exact .inl h
    · exact .inr (.inl h)
  · rcases eq_or_endsBefore h with h | h
    · exact .inl h.symm
    · exact .inr (.inr h)

/-- A place that ends before another starts before it. -/
theorem EndsBefore.length_lt {x y : Occurrence cs} (h : x.EndsBefore y) : x.before.length < y.before.length := by
  have hle := h.length_le
  simp only [braced, List.length_append, List.length_cons] at hle
  omega

/-- The place of a name at the start of a text. -/
def atStart {name : List Char} (h : IsName name) (rest : List Char) : Occurrence (braced name ++ rest) :=
  ⟨[], name, rest, h, rfl⟩

end Occurrence

theorem isName_name (t : Token) : IsName t.name.toList := by
  have all : ∀ t : Token, (t.name.toList.all Char.isLower && !t.name.toList.isEmpty) = true := by
    intro t; cases t <;> decide
  have h := all t
  rw [Bool.and_eq_true, List.all_eq_true] at h
  exact ⟨by simpa using h.2, h.1⟩

theorem ofName?_eq_some_iff {name : String} {t : Token} : ofName? name = some t ↔ t.name = name := by
  constructor
  · intro h
    simpa using List.find?_some h
  · rintro rfl
    exact ofName?_name t

/-- A text without names in braces is cut into its characters, and so is one whose names no token has. -/
theorem scan_eq_map_plain_of_occurrences
    (h : ∀ x : Occurrence cs, ofName? (String.ofList x.name) = none) : scan cs = cs.map .plain := by
  refine scan_eq_map_plain fun t ht => ?_
  obtain ⟨p, q, hpq⟩ := infix_of_token_mem_scan ht
  have hname := h ⟨p, t.name.toList, q, isName_name t, by rw [← hpq, List.append_assoc]; rfl⟩
  rw [String.ofList_toList, ofName?_name] at hname
  cases hname

/-- No name in braces has its start in one text and its end in the other. -/
def Uncut (a b : List Char) : Prop :=
  ∀ x : Occurrence (a ++ b), x.before ++ braced x.name <+: a ∨ a <+: x.before

theorem scan_append_of_uncut (h : Uncut a b) : scan (a ++ b) = scan a ++ scan b := by
  refine scan_append_of_not_crosses a fun t ⟨left, right, hleft, hright, ht, ⟨p, hp⟩, ⟨q, hq⟩⟩ => ?_
  have hbraced : braced t.name.toList = left ++ right := ht
  have hspelled : p ++ (braced t.name.toList ++ q) = a ++ b := by
    rw [← hp, ← hq, hbraced]
    simp
  have hl := List.length_pos_iff.2 hleft
  have hr := List.length_pos_iff.2 hright
  have ha : a.length = p.length + left.length := by rw [← hp, List.length_append]
  rcases h ⟨p, t.name.toList, q, isName_name t, hspelled⟩ with hin | hbehind
  · have hle : (p ++ braced t.name.toList).length ≤ a.length := hin.length_le
    rw [hbraced, List.length_append, List.length_append] at hle
    omega
  · have hle : a.length ≤ p.length := hbehind.length_le
    omega

/-! ## The search from left to right -/

/-- A part of a text: a name in braces, or the characters up to one. -/
inductive Segment where
  | kept (cs : List Char)
  | found (name : List Char)

/-- What a part is in the text. -/
def Segment.spelling : Segment → List Char
  | .kept cs => cs
  | .found name => braced name

/-- What a part is replaced by: the text of the token that has the name, if there is one. -/
def Segment.write (family : Family) : Segment → List Char
  | .kept cs => cs
  | .found name =>
    match ofName? (String.ofList name) with
    | some t => (t.text family).toList
    | none => braced name

/-- The parts that a search gives: it takes the first name in braces, then the first one in what is behind it, and so
on. -/
inductive Search : List Char → List Segment → Prop
  | done {cs : List Char} (hnone : IsEmpty (Occurrence cs)) : Search cs [.kept cs]
  | next {before name behind : List Char} {parts : List Segment} (hname : IsName name)
      (hfirst : ∀ x : Occurrence (before ++ (braced name ++ behind)), before <+: x.before)
      (hrest : Search behind parts) :
      Search (before ++ (braced name ++ behind)) (.kept before :: .found name :: parts)

theorem exists_search (cs : List Char) : ∃ parts, Search cs parts := by
  rcases isEmpty_or_nonempty (Occurrence cs) with hnone | hsome
  · exact ⟨_, .done hnone⟩
  · -- of all places the one with the least text before it
    obtain ⟨x, -, hleast⟩ := WellFounded.has_min (measure fun x : Occurrence cs => x.before.length).wf Set.univ
      ⟨hsome.some, trivial⟩
    have hfirst : ∀ y : Occurrence cs, x.before <+: y.before := by
      intro y
      rcases x.eq_or_apart y with rfl | h | h
      · exact List.prefix_refl _
      · exact (List.prefix_append _ _).trans h
      · exact absurd h.length_lt (hleast y trivial)
    obtain ⟨before, name, behind, hname, hspelled⟩ := x
    have hshorter : behind.length < cs.length := by
      rw [← hspelled]
      simp only [braced, List.length_append, List.length_cons]
      omega
    obtain ⟨parts, hparts⟩ := exists_search behind
    subst hspelled
    exact ⟨_, .next hname hfirst hparts⟩
termination_by cs.length

namespace Search

variable {parts : List Segment}

theorem flatMap_spelling (h : Search cs parts) : parts.flatMap Segment.spelling = cs := by
  induction h with
  | done => simp [Segment.spelling]
  | next _ _ _ ih => simp [Segment.spelling, ih]

/-- The search passes over no name in braces. -/
theorem exists_found (h : Search cs parts) (x : Occurrence cs) :
    ∃ front back, parts = front ++ .found x.name :: back ∧ front.flatMap Segment.spelling = x.before ∧
      back.flatMap Segment.spelling = x.behind := by
  induction h with
  | done hnone => exact (hnone.false x).elim
  | @next before name behind parts hname hfirst hrest ih =>
    rcases Occurrence.eq_or_endsBefore (x := ⟨before, name, behind, hname, rfl⟩) (hfirst x) with rfl | ⟨d, hd⟩
    · exact ⟨[.kept before], parts, rfl, by simp [Segment.spelling], hrest.flatMap_spelling⟩
    · -- the place is behind the first one, so the rest of the search finds it
      have hbehind : d ++ (braced x.name ++ x.behind) = behind := by
        have hwhole := x.spelled
        rw [← hd] at hwhole
        simpa only [List.append_assoc, List.append_cancel_left_eq] using hwhole
      obtain ⟨front, back, hparts, hfront, hback⟩ := ih ⟨d, x.name, x.behind, x.isName, hbehind⟩
      refine ⟨.kept before :: .found name :: front, back, by rw [hparts]; rfl, ?_, hback⟩
      rw [← hd]
      simp [Segment.spelling, hfront]

/-- What stands before the first name in braces holds no token. -/
theorem scan_before {before name behind : List Char}
    (hfirst : ∀ x : Occurrence (before ++ (braced name ++ behind)), before <+: x.before) :
    scan before = before.map .plain := by
  refine scan_eq_map_plain_of_occurrences fun x => ?_
  have hspelled : x.before ++ (braced x.name ++ (x.behind ++ (braced name ++ behind)))
      = before ++ (braced name ++ behind) := by
    conv => rhs; rw [← x.spelled]
    simp
  have hle := (hfirst ⟨x.before, x.name, _, x.isName, hspelled⟩).length_le
  have hlength := congrArg List.length x.spelled
  simp only [braced, List.length_append, List.length_cons] at hle hlength
  omega

/-- A name in braces ends with its closing brace, whatever follows. -/
theorem uncut_braced {name : List Char} (h : IsName name) (behind : List Char) : Uncut (braced name) behind := by
  intro x
  rcases (Occurrence.atStart h behind).eq_or_apart x with rfl | hx | hx
  · exact .inl (List.prefix_refl _)
  · exact .inr hx
  · exact absurd hx.length_lt (Nat.not_lt_zero _)

/-- A name in braces is one token, or characters if no token has the name. -/
theorem expand_braced {name : List Char} (h : IsName name) (family : Family) :
    (scan (braced name)).flatMap (Piece.expand family) = (Segment.found name).write family := by
  rw [Segment.write]
  cases hname : ofName? (String.ofList name) with
  | some t =>
    obtain rfl : t.name.toList = name := by
      rw [ofName?_eq_some_iff.1 hname, String.toList_ofList]
    have hscan := scan_spelling_append t []
    rw [List.append_nil, scan_nil] at hscan
    rw [show braced t.name.toList = Token.spelling t from rfl, hscan]
    exact List.flatMap_singleton _ _
  | none =>
    rw [scan_eq_map_plain_of_occurrences fun x => by rw [h.name_eq x, hname], flatMap_expand_map_plain]

/-- Cutting a text into tokens replaces what the search finds, and nothing else. -/
theorem flatMap_expand (h : Search cs parts) (family : Family) :
    (scan cs).flatMap (Piece.expand family) = parts.flatMap (Segment.write family) := by
  induction h with
  | @done cs hnone =>
    rw [scan_eq_map_plain_of_occurrences fun x => (hnone.false x).elim, flatMap_expand_map_plain]
    simp [Segment.write]
  | next hname hfirst _ ih =>
    rw [scan_append_of_uncut fun x => .inr (hfirst x), scan_before hfirst, scan_append_of_uncut (uncut_braced hname _),
      List.flatMap_append, List.flatMap_append, flatMap_expand_map_plain, expand_braced hname, ih]
    rfl

end Search

/-! ## One pass -/

/-- No two names in braces overlap, so a search for them that always takes the first one and goes on behind it is there
for each text and finds all of them. A text is replaced by its parts as such a search gives them: a name in braces by
what the token of that name stands for, if there is one, and everything else by itself. So texts joined where no name
in braces is cut in two are replaced each on its own, and a text in which no token is named stays as it is. -/
theorem expand_one_pass (family : Family) (text : String) :
    (∀ x y : Occurrence text.toList, x = y ∨ x.EndsBefore y ∨ y.EndsBefore x) ∧
      (∃ parts, Search text.toList parts) ∧
      (∀ parts, Search text.toList parts →
        parts.flatMap Segment.spelling = text.toList ∧
        (∀ x : Occurrence text.toList, ∃ front back, parts = front ++ .found x.name :: back ∧
          front.flatMap Segment.spelling = x.before ∧ back.flatMap Segment.spelling = x.behind) ∧
        (expand family text).toList = parts.flatMap (Segment.write family)) ∧
      (∀ a b : String, text = a ++ b → Uncut a.toList b.toList →
        expand family text = expand family a ++ expand family b) ∧
      ((∀ x : Occurrence text.toList, ofName? (String.ofList x.name) = none) → expand family text = text) := by
  refine ⟨Occurrence.eq_or_apart, exists_search _, fun parts h => ⟨h.flatMap_spelling, h.exists_found, ?_⟩, ?_, ?_⟩
  · rw [expand, String.toList_ofList, h.flatMap_expand]
  · rintro a b rfl huncut
    apply String.toList_injective
    simp only [expand, String.toList_append, scan_append_of_uncut huncut, List.flatMap_append, String.toList_ofList]
  · intro hnone
    rw [expand, scan_eq_map_plain_of_occurrences hnone, flatMap_expand_map_plain, String.ofList_toList]

/-- What is written for a token spells another token with its neighbours, and that one is not replaced. -/
theorem expand_one_pass_of_neighbours :
    ∃ parts, Search "\x7bf\x7bvarr\x7ds\x7d\x7bnope\x7d".toList parts ∧
      parts.flatMap (Segment.write .unix) = "\x7bfs\x7d\x7bnope\x7d".toList := by
  obtain ⟨-, ⟨parts, hparts⟩, hsearch, -, -⟩ := expand_one_pass .unix "\x7bf\x7bvarr\x7ds\x7d\x7bnope\x7d"
  obtain ⟨-, -, hexpand⟩ := hsearch parts hparts
  refine ⟨parts, hparts, ?_⟩
  rw [← hexpand]
  decide

end Scriptwright.Token
