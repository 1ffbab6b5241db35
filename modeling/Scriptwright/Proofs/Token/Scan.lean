/-
How a text is cut into tokens, piece by piece. Joined texts are cut each on its
own unless a token crosses from one to the other (`scan_append_of_not_crosses`).
None does where the second starts with a token (`scan_append_spelling`), or with
a character that stands in none (`scan_append`); so quoting, which writes only
such characters anew, leaves every token where it was (`scan_flatMap`), and no
token is passed over: a text holds one wherever it is spelled out
(`occursIn_iff_infix`). What a text with its tokens replaced then holds is read
off its pieces (`lineFeed_mem_expand_iff`, `hasBreak_expand`).
-/
import Scriptwright.Batch.Quote
import Scriptwright.Proofs.Text.Lines
import Scriptwright.Shell.Quote
import Scriptwright.Text.Breaks
import Scriptwright.Token

namespace Scriptwright.Token

/-- Whether a character can stand in a token. -/
def isTokenChar (c : Char) : Bool :=
  c.isLower || c == '\x7b' || c == '\x7d'

/-- Whether a text holds a token. -/
def occursIn (t : Token) (text : String) : Bool :=
  (scan text.toList).contains (.token t)

theorem isTokenChar_of_mem_afterBrace {t : Token} {c : Char} (h : c ∈ afterBrace t) : isTokenChar c = true := by
  have all : ∀ t : Token, (afterBrace t).all isTokenChar = true := by intro t; cases t <;> decide
  exact List.all_eq_true.1 (all t) c h

/-! ## One step of the cut -/

@[simp] theorem scan_nil : scan [] = [] := rfl

theorem scan_cons_of_ne {c : Char} (h : c ≠ '\x7b') (cs : List Char) : scan (c :: cs) = .plain c :: scan cs := by
  simp [scan, scanFrom, h]

theorem scan_brace_of_startOf? {cs : List Char} {t : Token} (h : startOf? cs = some t) :
    scan ('\x7b' :: cs) = .token t :: scan (cs.drop (afterBrace t).length) := by
  rw [← scanFrom_eq_drop]
  simp [scan, scanFrom, h]

theorem scan_brace_of_startOf?_eq_none {cs : List Char} (h : startOf? cs = none) :
    scan ('\x7b' :: cs) = .plain '\x7b' :: scan cs := by
  simp [scan, scanFrom, h]

theorem scan_eq_nil_iff {cs : List Char} : scan cs = [] ↔ cs = [] := by
  cases cs with
  | nil => simp
  | cons c cs =>
    by_cases hc : c = '\x7b'
    · subst hc
      cases h : startOf? cs with
      | none => simp [scan_brace_of_startOf?_eq_none h]
      | some t => simp [scan_brace_of_startOf? h]
    · simp [scan_cons_of_ne hc]

/-- A token that begins a text is written there in full. -/
theorem eq_append_of_startOf? {cs : List Char} {t : Token} (h : startOf? cs = some t) :
    cs = afterBrace t ++ cs.drop (afterBrace t).length := by
  have hp : (afterBrace t).isPrefixOf cs = true := by simpa using List.find?_some h
  obtain ⟨rest, rfl⟩ := List.isPrefixOf_iff_prefix.1 hp
  simp

theorem startOf?_congr {a b : List Char}
    (h : ∀ t : Token, (afterBrace t).isPrefixOf a = (afterBrace t).isPrefixOf b) : startOf? a = startOf? b := by
  simp only [startOf?, h]

/-- Texts without an opening brace hold no token, whatever follows them. -/
theorem scan_append_of_not_mem {a : List Char} (h : '\x7b' ∉ a) (b : List Char) :
    scan (a ++ b) = a.map .plain ++ scan b := by
  induction a with
  | nil => rfl
  | cons c a ih =>
    simp only [List.mem_cons, not_or] at h
    rw [List.cons_append, scan_cons_of_ne (Ne.symm h.1), ih h.2]
    rfl

/-! ## Where a token is spelled -/

/-- What is written in a text where a token stands. -/
def spelling (t : Token) : List Char :=
  '\x7b' :: afterBrace t

theorem openBrace_not_mem_afterBrace (t : Token) : '\x7b' ∉ afterBrace t := by
  cases t <;> decide

theorem name_injective {t u : Token} (h : t.name = u.name) : t = u := by
  have := ofName?_name u
  rw [← h, ofName?_name t] at this
  exact Option.some.inj this

/-- A token is told by the text after its brace, whatever follows. -/
theorem eq_of_afterBrace_append {t u : Token} {a b : List Char} (h : afterBrace t ++ a = afterBrace u ++ b) :
    t = u := by
  have hname : ∀ (t : Token) (a : List Char), (afterBrace t ++ a).takeWhile (· ≠ '\x7d') = t.name.toList := by
    intro t a
    have hclose : ∀ c ∈ t.name.toList, decide (c ≠ '\x7d') = true := by
      have all : ∀ t : Token, (t.name.toList.all fun c => decide (c ≠ '\x7d')) = true := by
        intro t; cases t <;> decide
      exact List.all_eq_true.1 (all t)
    rw [afterBrace, List.append_assoc, List.takeWhile_append_of_pos hclose]
    simp
  apply name_injective
  apply String.toList_injective
  rw [← hname t a, h, hname u b]

theorem startOf?_afterBrace_append (t : Token) (a : List Char) : startOf? (afterBrace t ++ a) = some t := by
  cases h : startOf? (afterBrace t ++ a) with
  | none =>
    have := List.find?_eq_none.1 h t (mem_all t)
    simp at this
  | some u => rw [eq_of_afterBrace_append (eq_append_of_startOf? h)]

theorem scan_spelling_append (t : Token) (b : List Char) : scan (spelling t ++ b) = .token t :: scan b := by
  rw [spelling, List.cons_append, scan_brace_of_startOf? (startOf?_afterBrace_append t b), List.drop_left]

/-- What is written in a text where a piece stands. -/
def Piece.spelling : Piece → List Char
  | .token t => Token.spelling t
  | .plain c => [c]

/-- Nothing of a text is lost when it is cut. -/
theorem flatMap_spelling_scan (cs : List Char) : (scan cs).flatMap Piece.spelling = cs := by
  match cs with
  | [] => rfl
  | c :: cs =>
    by_cases hc : c = '\x7b'
    · subst hc
      cases ht : startOf? cs with
      | none =>
        rw [scan_brace_of_startOf?_eq_none ht, List.flatMap_cons, flatMap_spelling_scan cs]
        rfl
      | some t =>
        rw [scan_brace_of_startOf? ht, List.flatMap_cons, flatMap_spelling_scan, Piece.spelling, spelling,
          List.cons_append, ← eq_append_of_startOf? ht]
    · rw [scan_cons_of_ne hc, List.flatMap_cons, flatMap_spelling_scan cs]
      rfl
termination_by cs.length
decreasing_by all_goals (simp only [List.length_cons, List.length_drop]; omega)

/-! ## Joined texts -/

/-- Some characters stand partly at the end of one text and partly at the start of another. -/
def Crosses (w a b : List Char) : Prop :=
  ∃ left right, left ≠ [] ∧ right ≠ [] ∧ w = left ++ right ∧ left <:+ a ∧ right <+: b

/-- A token that begins two joined texts behind a brace is spelled in the first if it does not cross over. -/
theorem eq_append_of_not_crosses {t : Token} {a b : List Char} (h : startOf? (a ++ b) = some t)
    (hcross : ¬ Crosses (spelling t) ('\x7b' :: a) b) : ∃ rest, a = afterBrace t ++ rest := by
  rcases List.append_eq_append_iff.1 (eq_append_of_startOf? h) with ⟨right, ht, hb⟩ | ⟨rest, ha, -⟩
  · by_cases hright : right = []
    · exact ⟨[], by simp [ht, hright]⟩
    · refine absurd ⟨'\x7b' :: a, right, by simp, hright, ?_, List.suffix_refl _, ?_⟩ hcross
      · rw [spelling, ht, List.cons_append]
      · rw [hb]
        exact List.prefix_append _ _
  · exact ⟨rest, ha⟩

/-- Joined texts are cut each on its own unless a token crosses from one to the other. -/
theorem scan_append_of_not_crosses (a : List Char) {b : List Char} (h : ∀ t, ¬ Crosses (spelling t) a b) :
    scan (a ++ b) = scan a ++ scan b := by
  have hsuffix : ∀ {a' : List Char}, a' <:+ a → ∀ t, ¬ Crosses (spelling t) a' b :=
    fun ha t ⟨left, right, hleft, hright, ht, hl, hr⟩ => h t ⟨left, right, hleft, hright, ht, hl.trans ha, hr⟩
  match a with
  | [] => rfl
  | c :: a =>
    have hrest := hsuffix (List.suffix_cons c a)
    by_cases hc : c = '\x7b'
    · subst hc
      cases ht : startOf? (a ++ b) with
      | none =>
        have ha : startOf? a = none := by
          cases hu : startOf? a with
          | none => rfl
          | some u =>
            rw [eq_append_of_startOf? hu, List.append_assoc, startOf?_afterBrace_append] at ht
            cases ht
        rw [List.cons_append, scan_brace_of_startOf?_eq_none ht, scan_brace_of_startOf?_eq_none ha,
          scan_append_of_not_crosses a hrest, List.cons_append]
      | some t =>
        obtain ⟨rest, rfl⟩ := eq_append_of_not_crosses ht (h t)
        have hbehind := hsuffix ((List.suffix_append (afterBrace t) rest).trans (List.suffix_cons _ _))
        rw [← List.cons_append, ← spelling, List.append_assoc, scan_spelling_append, scan_spelling_append,
          scan_append_of_not_crosses rest hbehind, List.cons_append]
    · rw [List.cons_append, scan_cons_of_ne hc, scan_cons_of_ne hc, scan_append_of_not_crosses a hrest,
        List.cons_append]
termination_by a.length

/-- No token crosses to where another one starts: it holds one opening brace, its first character. -/
theorem not_crosses_brace (u : Token) (a b : List Char) : ¬ Crosses (spelling u) a ('\x7b' :: b) := by
  rintro ⟨left, right, hleft, hright, hu, -, hr⟩
  obtain ⟨c, left, rfl⟩ := List.exists_cons_of_ne_nil hleft
  obtain ⟨d, right, rfl⟩ := List.exists_cons_of_ne_nil hright
  obtain rfl : d = '\x7b' := (List.cons_prefix_cons.1 hr).1
  rw [spelling, List.cons_append, List.cons.injEq] at hu
  exact openBrace_not_mem_afterBrace u (hu.2 ▸ by simp)

/-- A token is a piece wherever it is spelled, and what is before it and behind it is cut on its own. -/
theorem scan_append_spelling (t : Token) (a b : List Char) :
    scan (a ++ (spelling t ++ b)) = scan a ++ .token t :: scan b := by
  have hcross : ∀ u, ¬ Crosses (spelling u) a (spelling t ++ b) := fun u => not_crosses_brace u a (afterBrace t ++ b)
  rw [scan_append_of_not_crosses a hcross, scan_spelling_append]

/-- A text starts with a character that stands in no token, or is empty. -/
def Apart (b : List Char) : Prop := ∀ c ∈ b.head?, isTokenChar c = false

theorem apart_cons {c : Char} {b : List Char} : Apart (c :: b) ↔ isTokenChar c = false := by
  simp [Apart]

theorem Apart.not_crosses {b : List Char} (hb : Apart b) (t : Token) (a : List Char) :
    ¬ Crosses (spelling t) a b := by
  rintro ⟨left, right, -, hright, ht, -, hr⟩
  obtain ⟨c, right, rfl⟩ := List.exists_cons_of_ne_nil hright
  obtain ⟨b, rfl⟩ := hr
  have hchar : isTokenChar c = true := by
    have hc : c ∈ spelling t := ht ▸ by simp
    rcases List.mem_cons.1 hc with rfl | hc
    · rfl
    · exact isTokenChar_of_mem_afterBrace hc
  rw [apart_cons.1 hb] at hchar
  cases hchar

/-- Joined texts are cut each on its own when the second starts with no character of a token. -/
theorem scan_append (a : List Char) {b : List Char} (hb : Apart b) : scan (a ++ b) = scan a ++ scan b :=
  scan_append_of_not_crosses a fun t => hb.not_crosses t a

theorem apart_flatMap {α : Type} {c : Char} (hc : isTokenChar c = false) (f : α → List Char) (xs : List α) :
    Apart (xs.flatMap fun x => c :: f x) := by
  cases xs <;> simp [Apart, hc]

/-- Texts written one after another, each behind a character of no token, are cut each on its own. -/
theorem scan_flatMap_cons {α : Type} {c : Char} (hc : isTokenChar c = false) (f : α → List Char) (xs : List α) :
    scan (xs.flatMap fun x => c :: f x) = xs.flatMap fun x => .plain c :: scan (f x) := by
  have hne : c ≠ '\x7b' := by rintro rfl; simp [isTokenChar] at hc
  induction xs with
  | nil => rfl
  | cons x xs ih =>
    rw [List.flatMap_cons, List.cons_append, scan_cons_of_ne hne, scan_append _ (apart_flatMap hc f xs), ih]
    simp

/-! ## Quoting -/

/-- Characters of tokens stay as they are, and every other one is written with characters of no token. -/
abbrev KeepsTokens (f : Char → List Char) : Prop :=
  Text.Keeps isTokenChar f

/-- What a piece becomes when the characters around the tokens are written anew. -/
def Piece.encode (f : Char → List Char) : Piece → List Piece
  | .token t => [.token t]
  | .plain c => (f c).map .plain

variable {f : Char → List Char}

theorem KeepsTokens.flatMap_eq (h : KeepsTokens f) {w : List Char} (hw : ∀ c ∈ w, isTokenChar c = true) :
    w.flatMap f = w := by
  induction w with
  | nil => rfl
  | cons x w ih =>
    simp only [List.mem_cons, forall_eq_or_imp] at hw
    rw [List.flatMap_cons, h.keep x hw.1, ih hw.2]
    rfl

theorem KeepsTokens.isPrefixOf_flatMap (h : KeepsTokens f) {w : List Char} (hw : ∀ c ∈ w, isTokenChar c = true)
    (cs : List Char) : w.isPrefixOf (cs.flatMap f) = w.isPrefixOf cs := by
  induction w generalizing cs with
  | nil => simp
  | cons x w ih =>
    simp only [List.mem_cons, forall_eq_or_imp] at hw
    cases cs with
    | nil => rfl
    | cons d cs =>
      rw [List.flatMap_cons]
      cases hd : isTokenChar d with
      | true => rw [h.keep d hd]; simp [List.isPrefixOf_cons_cons, ih hw.2]
      | false =>
        obtain ⟨hne, haway⟩ := h.away d hd
        obtain ⟨e, es, he⟩ := List.exists_cons_of_ne_nil hne
        have hxe : (x == e) = false := by
          rw [beq_eq_false_iff_ne]
          rintro rfl
          simp [haway x (by simp [he])] at hw
        have hxd : (x == d) = false := by
          rw [beq_eq_false_iff_ne]
          rintro rfl
          simp [hd] at hw
        simp [he, List.isPrefixOf, hxe, hxd]

theorem KeepsTokens.startOf?_flatMap (h : KeepsTokens f) (cs : List Char) : startOf? (cs.flatMap f) = startOf? cs :=
  startOf?_congr fun _ => h.isPrefixOf_flatMap (fun _ => isTokenChar_of_mem_afterBrace) cs

/-- Characters of no token are plain pieces. -/
theorem scan_append_of_away {a : List Char} (ha : ∀ c ∈ a, isTokenChar c = false) (b : List Char) :
    scan (a ++ b) = a.map .plain ++ scan b :=
  scan_append_of_not_mem (fun hm => absurd (ha _ hm) (by decide)) b

/-- Quoting leaves every token where it was. -/
theorem KeepsTokens.scan_flatMap (h : KeepsTokens f) (cs : List Char) :
    scan (cs.flatMap f) = (scan cs).flatMap (Piece.encode f) := by
  match cs with
  | [] => rfl
  | c :: cs =>
    by_cases hc : c = '\x7b'
    · subst hc
      have hs := h.startOf?_flatMap cs
      rw [List.flatMap_cons, h.keep _ rfl, List.singleton_append]
      cases ht : startOf? cs with
      | none =>
        rw [ht] at hs
        rw [scan_brace_of_startOf?_eq_none hs, scan_brace_of_startOf?_eq_none ht, h.scan_flatMap cs, List.flatMap_cons]
        simp [Piece.encode, h.keep '\x7b' rfl]
      | some t =>
        rw [ht] at hs
        have hdrop : (cs.flatMap f).drop (afterBrace t).length = (cs.drop (afterBrace t).length).flatMap f := by
          conv => lhs; rw [eq_append_of_startOf? ht, List.flatMap_append,
            h.flatMap_eq fun _ => isTokenChar_of_mem_afterBrace, List.drop_left]
        rw [scan_brace_of_startOf? hs, scan_brace_of_startOf? ht, hdrop, h.scan_flatMap, List.flatMap_cons]
        rfl
    · rw [List.flatMap_cons, scan_cons_of_ne hc, List.flatMap_cons, ← h.scan_flatMap cs]
      cases ht : isTokenChar c with
      | true => rw [Piece.encode, h.keep c ht, List.singleton_append, scan_cons_of_ne hc]; rfl
      | false => exact scan_append_of_away (h.away c ht).2 _
termination_by cs.length
decreasing_by all_goals (simp only [List.length_cons, List.length_drop]; omega)

theorem KeepsTokens.occursIn_flatMap (h : KeepsTokens f) (t : Token) (text : String) :
    occursIn t (Text.flatMap f text) = occursIn t text := by
  have piece : ∀ p : Piece, .token t ∈ p.encode f ↔ p = .token t := by
    intro p
    cases p <;> simp [Piece.encode, eq_comm]
  rw [Bool.eq_iff_iff]
  simp [occursIn, h.scan_flatMap, piece]

theorem keepsTokens_shellEscape : KeepsTokens Shell.escapeChar :=
  Text.keeps_of fun c h => by
    simp only [Shell.isLive, Bool.or_eq_true, beq_iff_eq] at h
    rcases h with ((rfl | rfl) | rfl) | rfl <;> decide

theorem keepsTokens_doubleQuote : KeepsTokens Batch.doubleQuoteChar :=
  Text.keeps_of fun c h => by subst h; decide

theorem keepsTokens_batchEscape : KeepsTokens Batch.escapeChar :=
  Text.keeps_of fun c h => by
    have hc : c ∈ ['^', '&', '|', '<', '>', '(', ')'] := by simpa [Batch.isOperator] using h
    simp only [List.mem_cons, List.not_mem_nil, or_false] at hc
    rcases hc with rfl | rfl | rfl | rfl | rfl | rfl | rfl <;> decide

theorem keepsTokens_percent : KeepsTokens Batch.percentChar :=
  Text.keeps_of fun c h => by subst h; decide

/-- A payload line of a batch file is written anew twice. -/
theorem keepsTokens_escapeEcho : KeepsTokens fun c => (Batch.escapeChar c).flatMap Batch.percentChar :=
  keepsTokens_batchEscape.comp keepsTokens_percent

theorem occursIn_append_of_not_mem (t : Token) {a : String} (h : '\x7b' ∉ a.toList) (b : String) :
    occursIn t (a ++ b) = occursIn t b := by
  rw [Bool.eq_iff_iff]
  simp [occursIn, scan_append_of_not_mem h]

theorem occursIn_append_quote (t : Token) (text : String) : occursIn t (text ++ "\"") = occursIn t text := by
  rw [Bool.eq_iff_iff]
  have := scan_append text.toList (b := ['\x22']) (apart_cons.2 rfl)
  simp [occursIn, scan_cons_of_ne, this]

/-- Double quotes around a text are no part of its tokens. -/
theorem occursIn_quotes (t : Token) (text : String) : occursIn t ("\"" ++ text ++ "\"") = occursIn t text := by
  rw [occursIn_append_quote, occursIn_append_of_not_mem t (by decide)]

theorem occursIn_shellArgument (t : Token) (text : String) : occursIn t (Shell.argument text) = occursIn t text := by
  unfold Shell.argument
  split
  · rfl
  · rw [occursIn_quotes, Shell.escape, keepsTokens_shellEscape.occursIn_flatMap]

theorem occursIn_batchArgument (t : Token) (text : String) : occursIn t (Batch.argument text) = occursIn t text := by
  unfold Batch.argument
  split
  · rw [occursIn_quotes, keepsTokens_doubleQuote.occursIn_flatMap]
  · rfl

/-! ## Where a token stands -/

theorem infix_of_token_mem_scan {t : Token} {cs : List Char} (h : .token t ∈ scan cs) : spelling t <:+: cs := by
  obtain ⟨before, behind, hscan⟩ := List.append_of_mem h
  rw [← flatMap_spelling_scan cs, hscan, List.flatMap_append, List.flatMap_cons]
  exact ⟨_, _, List.append_assoc _ _ _⟩

/-- A text holds a token wherever it is spelled out. -/
theorem occursIn_iff_infix {t : Token} {text : String} : occursIn t text = true ↔ spelling t <:+: text.toList := by
  rw [occursIn, List.contains_iff_mem]
  constructor
  · exact infix_of_token_mem_scan
  · rintro ⟨a, b, h⟩
    rw [← h, List.append_assoc, scan_append_spelling]
    exact List.mem_append_right _ List.mem_cons_self

/-! ## Texts without tokens -/

/-- A text in which no token stands is cut into its characters. -/
theorem scan_eq_map_plain {cs : List Char} (h : ∀ t, .token t ∉ scan cs) : scan cs = cs.map .plain := by
  match cs with
  | [] => rfl
  | c :: cs =>
    by_cases hc : c = '\x7b'
    · subst hc
      cases hs : startOf? cs with
      | none =>
        rw [scan_brace_of_startOf?_eq_none hs] at h ⊢
        rw [scan_eq_map_plain fun t ht => h t (List.mem_cons_of_mem _ ht)]
        rfl
      | some t =>
        rw [scan_brace_of_startOf? hs] at h
        exact absurd List.mem_cons_self (h t)
    · rw [scan_cons_of_ne hc] at h ⊢
      rw [scan_eq_map_plain fun t ht => h t (List.mem_cons_of_mem _ ht)]
      rfl
termination_by cs.length

theorem scan_eq_map_plain_of_occursIn {text : String} (h : ∀ t, occursIn t text = false) :
    scan text.toList = text.toList.map .plain := by
  refine scan_eq_map_plain fun t ht => ?_
  have hcontains : (scan text.toList).contains (.token t) = true := List.contains_iff_mem.2 ht
  rw [← occursIn, h t] at hcontains
  cases hcontains

theorem flatMap_expand_map_plain (family : Family) (cs : List Char) :
    (cs.map Piece.plain).flatMap (Piece.expand family) = cs := by
  induction cs with
  | nil => rfl
  | cons c cs ih => rw [List.map_cons, List.flatMap_cons, ih]; rfl

/-- A text in which no token stands is written as it is. -/
theorem expand_of_occursIn_eq_false {text : String} (h : ∀ t, occursIn t text = false) (family : Family) :
    expand family text = text := by
  rw [expand, scan_eq_map_plain_of_occursIn h, flatMap_expand_map_plain, String.ofList_toList]

/-- A text that starts without a brace is written as it is up to there. -/
theorem expand_append (family : Family) {a : String} (h : '\x7b' ∉ a.toList) (b : String) :
    expand family (a ++ b) = a ++ expand family b := by
  apply String.toList_injective
  simp only [expand, String.toList_append, scan_append_of_not_mem h, List.flatMap_append, String.toList_ofList,
    flatMap_expand_map_plain]

theorem occursIn_escapeEcho (t : Token) (text : String) : occursIn t (Batch.escapeEcho text) = occursIn t text := by
  rw [Batch.escapeEcho, Batch.escapePercent, keepsTokens_percent.occursIn_flatMap, Batch.escape,
    keepsTokens_batchEscape.occursIn_flatMap]

/-! ## What a text with its tokens replaced holds -/

theorem mem_of_plain_mem_scan {c : Char} {cs : List Char} (h : .plain c ∈ scan cs) : c ∈ cs := by
  rw [← flatMap_spelling_scan cs]
  exact List.mem_flatMap.2 ⟨_, h, List.mem_singleton_self c⟩

theorem mem_expand_iff {family : Family} {c : Char} {text : String} :
    c ∈ (expand family text).toList ↔ ∃ p ∈ scan text.toList, c ∈ p.expand family := by
  simp [expand]

/-- A character that no token stands for comes into no text whose tokens are replaced. -/
theorem not_mem_expand {family : Family} {c : Char} (hc : ∀ t : Token, c ∉ (t.text family).toList) {text : String}
    (h : c ∉ text.toList) : c ∉ (expand family text).toList := by
  rw [mem_expand_iff]
  rintro ⟨p, hp, hm⟩
  cases p with
  | token t => exact hc t hm
  | plain d =>
    rw [Piece.expand, List.mem_singleton] at hm
    exact h (mem_of_plain_mem_scan (hm ▸ hp))

/-- Of all tokens only one stands for a line feed. -/
theorem lineFeed_mem_text_iff {family : Family} {t : Token} : '\n' ∈ (t.text family).toList ↔ t = .lineFeed := by
  cases t <;> cases family <;> decide

/-- A text on one line stays on one line when its tokens are replaced, unless it holds the token
for a line feed. -/
theorem lineFeed_mem_expand_iff (family : Family) {text : String} (h : '\n' ∉ text.toList) :
    '\n' ∈ (expand family text).toList ↔ occursIn .lineFeed text = true := by
  rw [mem_expand_iff]
  simp only [occursIn, List.contains_iff_mem]
  constructor
  · rintro ⟨p, hp, hc⟩
    cases p with
    | token t => rwa [lineFeed_mem_text_iff.1 hc] at hp
    | plain d =>
      simp only [Piece.expand, List.mem_singleton] at hc
      exact absurd (mem_of_plain_mem_scan (hc ▸ hp)) h
  · intro hp
    exact ⟨_, hp, lineFeed_mem_text_iff.2 rfl⟩

/-- Of all tokens only one stands for a line break. -/
theorem hasBreak_text_iff {family : Family} {t : Token} : Text.hasBreak (t.text family) = true ↔ t = .lineFeed := by
  cases t <;> cases family <;> decide

/-- The same for line breaks of either kind. -/
theorem hasBreak_expand (family : Family) {text : String} (h : Text.hasBreak text = false) :
    Text.hasBreak (expand family text) = occursIn .lineFeed text := by
  have hpiece : ∀ p ∈ scan text.toList,
      (p.expand family).any Text.isBreakChar = true ↔ p = .token .lineFeed := by
    intro p hp
    cases p with
    | token t =>
      rw [Piece.token.injEq]
      exact hasBreak_text_iff
    | plain c =>
      have hc : Text.isBreakChar c = false := by
        simpa using List.any_eq_false.1 h c (mem_of_plain_mem_scan hp)
      simp [Piece.expand, hc]
  rw [Bool.eq_iff_iff, Text.hasBreak, expand, String.toList_ofList, List.any_flatMap, List.any_eq_true, occursIn,
    List.contains_iff_mem]
  constructor
  · rintro ⟨p, hp, hbreak⟩
    exact (hpiece p hp).1 hbreak ▸ hp
  · intro hp
    exact ⟨_, hp, (hpiece _ hp).2 rfl⟩

end Scriptwright.Token
