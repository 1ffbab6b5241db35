/-
Texts that are written anew character by character, and then cut into lines.
A class of characters may stay as it is while no other character is written with
one of them (`Keeps`). Where line breaks do (`KeepsBreaks`), a text is cut at the
same places as before: the lines of the new text are those of the old one, each
written anew (`lines_flatMap`).
-/
import Scriptwright.Text.Basic
import Scriptwright.Text.Breaks

namespace Scriptwright.Text

/-! ## One character at a time -/

theorem dropBreak_cons {c : Char} (h : isBreakChar c = false) (cs : List Char) :
    dropBreak (c :: cs) = c :: dropBreak cs := by
  rw [dropBreak]
  · rintro rfl -
    cases h
  · rintro rfl -
    cases h

theorem dropReturn_cons {c : Char} (h : isBreakChar c = false) (cs : List Char) :
    dropReturn (c :: cs) = c :: dropReturn cs := by
  rw [dropReturn]
  rintro rfl -
  cases h

theorem pieces_cons {separator c : Char} (h : c ≠ separator) (cs : List Char) :
    pieces separator (c :: cs) = (pieces separator cs).modifyHead (c :: ·) := by
  rw [pieces, if_neg h]
  cases hp : pieces separator cs with
  | nil => exact absurd hp (pieces_ne_nil separator cs)
  | cons piece rest => rfl

/-- What leaves each character as it is that breaks no line, leaves a text of such characters as it is. -/
theorem append_of_cons {g : List Char → List Char} (hg : ∀ c, isBreakChar c = false → ∀ cs, g (c :: cs) = c :: g cs)
    {a : List Char} (h : ∀ c ∈ a, isBreakChar c = false) (b : List Char) : g (a ++ b) = a ++ g b := by
  induction a with
  | nil => rfl
  | cons c a ih =>
    rw [List.cons_append, hg c (h c List.mem_cons_self), ih fun d hd => h d (List.mem_cons_of_mem _ hd)]
    rfl

theorem dropBreak_append {a : List Char} (h : ∀ c ∈ a, isBreakChar c = false) (b : List Char) :
    dropBreak (a ++ b) = a ++ dropBreak b :=
  append_of_cons (fun _ => dropBreak_cons) h b

theorem dropReturn_append {a : List Char} (h : ∀ c ∈ a, isBreakChar c = false) (b : List Char) :
    dropReturn (a ++ b) = a ++ dropReturn b :=
  append_of_cons (fun _ => dropReturn_cons) h b

theorem pieces_append {separator : Char} {a : List Char} (h : separator ∉ a) (b : List Char) :
    pieces separator (a ++ b) = (pieces separator b).modifyHead (a ++ ·) := by
  induction a with
  | nil =>
    rw [List.nil_append]
    cases pieces separator b <;> rfl
  | cons c a ih =>
    simp only [List.mem_cons, not_or] at h
    rw [List.cons_append, pieces_cons (Ne.symm h.1), ih h.2, List.modifyHead_modifyHead]
    rfl

/-! ## Writing anew -/

/-- What holds of no text and of two together if of both, holds of texts one after another if of each. -/
theorem flatMap_of_append {α : Type} {P : List Char → Prop} (nil : P []) (append : ∀ {a b}, P a → P b → P (a ++ b))
    {f : α → List Char} {xs : List α} (h : ∀ x ∈ xs, P (f x)) : P (xs.flatMap f) := by
  induction xs with
  | nil => exact nil
  | cons x xs ih =>
    rw [List.flatMap_cons]
    exact append (h x List.mem_cons_self) (ih fun y hy => h y (List.mem_cons_of_mem _ hy))

/-- A way to write characters that leaves those of a class as they are, and writes every other one with characters that
are not of the class, one at least. -/
structure Keeps (own : Char → Bool) (f : Char → List Char) : Prop where
  keep : ∀ c, own c = true → f c = [c]
  away : ∀ c, own c = false → f c ≠ [] ∧ ∀ d ∈ f c, own d = false

variable {own : Char → Bool} {f g : Char → List Char}

theorem keeps_singleton (own : Char → Bool) : Keeps own fun c => [c] where
  keep _ _ := rfl
  away c hc := by simpa using hc

/-- Writing anew only characters that are not of the class, and with such characters, keeps the class. -/
theorem keeps_of {p : Char → Prop} [DecidablePred p]
    (hp : ∀ c, p c → own c = false ∧ g c ≠ [] ∧ (g c).any own = false) :
    Keeps own fun c => if p c then g c else [c] where
  keep c hc := by
    by_cases h : p c
    · simp [(hp c h).1] at hc
    · simp [h]
  away c hc := by
    by_cases h : p c
    · simpa [h] using (hp c h).2
    · simp [h, hc]

/-- Characters may be written anew twice. -/
theorem Keeps.comp (hf : Keeps own f) (hg : Keeps own g) : Keeps own fun c => (f c).flatMap g where
  keep c hc := by rw [hf.keep c hc, List.flatMap_singleton, hg.keep c hc]
  away c hc := by
    obtain ⟨hne, haway⟩ := hf.away c hc
    constructor
    · obtain ⟨d, ds, hd⟩ := List.exists_cons_of_ne_nil hne
      rw [hd, List.flatMap_cons]
      exact List.append_ne_nil_of_left_ne_nil (hg.away d (haway d (hd ▸ List.mem_cons_self))).1 _
    · intro e he
      obtain ⟨d, hd, he⟩ := List.mem_flatMap.1 he
      exact (hg.away d (haway d hd)).2 e he

theorem Keeps.flatMap_eq_nil_iff (h : Keeps own f) {cs : List Char} : cs.flatMap f = [] ↔ cs = [] := by
  constructor
  · intro he
    cases cs with
    | nil => rfl
    | cons c cs =>
      have hc := List.flatMap_eq_nil_iff.1 he c List.mem_cons_self
      cases hown : own c with
      | true =>
        rw [h.keep c hown] at hc
        cases hc
      | false => exact absurd hc (h.away c hown).1
  · rintro rfl
    rfl

/-! ## Line breaks -/

/-- Line breaks stay as they are, and every other character is written with no break. -/
abbrev KeepsBreaks (f : Char → List Char) : Prop :=
  Keeps isBreakChar f

/-- Only a line feed alone is written as one. -/
theorem KeepsBreaks.flatMap_eq_feed_iff (h : KeepsBreaks f) {cs : List Char} : cs.flatMap f = ['\n'] ↔ cs = ['\n'] := by
  constructor
  · intro he
    cases cs with
    | nil => cases he
    | cons c cs =>
      rw [List.flatMap_cons] at he
      cases hb : isBreakChar c with
      | true =>
        rw [h.keep c hb, List.singleton_append] at he
        obtain ⟨rfl, hrest⟩ := List.cons.inj he
        rw [h.flatMap_eq_nil_iff.1 hrest]
      | false =>
        obtain ⟨hne, haway⟩ := h.away c hb
        obtain ⟨d, ds, hd⟩ := List.exists_cons_of_ne_nil hne
        rw [hd, List.cons_append] at he
        have hfeed := haway d (hd ▸ List.mem_cons_self)
        rw [(List.cons.inj he).1] at hfeed
        cases hfeed
  · rintro rfl
    rw [List.flatMap_singleton, h.keep '\n' rfl]

theorem KeepsBreaks.dropBreak_flatMap (h : KeepsBreaks f) (cs : List Char) :
    dropBreak (cs.flatMap f) = (dropBreak cs).flatMap f := by
  fun_induction dropBreak cs with
  | case1 => rfl
  | case2 => rw [List.flatMap_singleton, h.keep '\n' rfl]; rfl
  | case3 => rw [List.flatMap_cons, List.flatMap_singleton, h.keep '\r' rfl, h.keep '\n' rfl]; rfl
  | case4 c cs hfeed hreturn ih =>
    rw [List.flatMap_cons, List.flatMap_cons, ← ih]
    cases hb : isBreakChar c with
    | false => exact dropBreak_append (h.away c hb).2 _
    | true =>
      rw [h.keep c hb, List.singleton_append, List.singleton_append, dropBreak]
      · exact fun hc hcs => hfeed hc (h.flatMap_eq_nil_iff.1 hcs)
      · exact fun hc hcs => hreturn hc (h.flatMap_eq_feed_iff.1 hcs)

theorem KeepsBreaks.dropReturn_flatMap (h : KeepsBreaks f) (cs : List Char) :
    dropReturn (cs.flatMap f) = (dropReturn cs).flatMap f := by
  fun_induction dropReturn cs with
  | case1 => rfl
  | case2 => rw [List.flatMap_singleton, h.keep '\r' rfl]; rfl
  | case3 c cs hreturn ih =>
    rw [List.flatMap_cons, List.flatMap_cons, ← ih]
    cases hb : isBreakChar c with
    | false => exact dropReturn_append (h.away c hb).2 _
    | true =>
      rw [h.keep c hb, List.singleton_append, List.singleton_append, dropReturn]
      exact fun hc hcs => hreturn hc (h.flatMap_eq_nil_iff.1 hcs)

theorem KeepsBreaks.feed_not_mem (h : KeepsBreaks f) {c : Char} (hc : c ≠ '\n') : '\n' ∉ f c := by
  cases hb : isBreakChar c with
  | true =>
    rw [h.keep c hb, List.mem_singleton]
    exact Ne.symm hc
  | false =>
    intro hm
    have hfeed := (h.away c hb).2 '\n' hm
    cases hfeed

theorem KeepsBreaks.pieces_flatMap (h : KeepsBreaks f) (cs : List Char) :
    pieces '\n' (cs.flatMap f) = (pieces '\n' cs).map (List.flatMap f) := by
  induction cs with
  | nil => rfl
  | cons c cs ih =>
    rw [List.flatMap_cons]
    by_cases hc : c = '\n'
    · rw [hc, h.keep '\n' rfl, List.singleton_append, pieces, pieces, if_pos rfl, if_pos rfl, ih]
      rfl
    · rw [pieces_append (h.feed_not_mem hc), ih, pieces_cons hc]
      cases pieces '\n' cs with
      | nil => rfl
      | cons piece rest => simp

/-- A text that is written anew is cut into lines where it was cut before. -/
theorem KeepsBreaks.lines_flatMap (h : KeepsBreaks f) (text : String) :
    lines (flatMap f text) = (lines text).map (flatMap f) := by
  rw [lines, lines, toList_flatMap, h.dropBreak_flatMap, h.pieces_flatMap, List.map_map, List.map_map]
  refine List.map_congr_left fun piece _ => ?_
  simp only [Function.comp_apply, h.dropReturn_flatMap, flatMap, String.toList_ofList]

end Scriptwright.Text
