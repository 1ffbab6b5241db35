/-
The token for a line feed and the line feed itself. Writing line feeds in place
of those tokens neither makes another token nor breaks one: the pieces of the
text are the same but for those tokens (`scan_writeFeeds`). So the new text is
cut at the same places, in either family and however it is quoted
(`lines_expand_writeFeeds`).
-/
import Scriptwright.Proofs.Text.LineEnds
import Scriptwright.Proofs.Token.Cut

namespace Scriptwright.Token

/-- A text with a line feed at each place where the token for one is spelled. -/
def feeds : List Char → List Char
  | [] => []
  | '\x7b' :: 'l' :: 'f' :: '\x7d' :: cs => '\n' :: feeds cs
  | c :: cs => c :: feeds cs

/-- A text with a line feed for each token that stands for one. -/
def writeFeeds (text : String) : String :=
  String.ofList (feeds text.toList)

/-- A piece, or the line feed it stands for. -/
def Piece.feed : Piece → Piece
  | .token .lineFeed => .plain '\n'
  | p => p

variable {cs a : List Char} {t : Token}

theorem Piece.feed_token (h : t ≠ .lineFeed) : (Piece.token t).feed = .token t := by
  cases t <;> first | rfl | contradiction

/-! ## Cutting -/

theorem feeds_spelling_append (b : List Char) : feeds (spelling .lineFeed ++ b) = '\n' :: feeds b := rfl

theorem feeds_cons {c : Char} (h : ¬ spelling .lineFeed <+: c :: cs) : feeds (c :: cs) = c :: feeds cs := by
  rw [feeds]
  rintro rest rfl rfl
  exact h ⟨rest, rfl⟩

theorem feeds_cons_of_ne {c : Char} (h : c ≠ '\x7b') (cs : List Char) : feeds (c :: cs) = c :: feeds cs :=
  feeds_cons fun hp => h (List.cons_prefix_cons.1 hp).1.symm

theorem feeds_append (h : '\x7b' ∉ a) (b : List Char) : feeds (a ++ b) = a ++ feeds b := by
  induction a with
  | nil => rfl
  | cons c a ih =>
    simp only [List.mem_cons, not_or] at h
    rw [List.cons_append, feeds_cons_of_ne (Ne.symm h.1), ih h.2, List.cons_append]

/-- Another token stays as it is spelled. -/
theorem feeds_spelling_append_of_ne (h : t ≠ .lineFeed) (b : List Char) :
    feeds (spelling t ++ b) = spelling t ++ feeds b := by
  have hp : ¬ spelling .lineFeed <+: '\x7b' :: (afterBrace t ++ b) := by
    rintro ⟨other, hother⟩
    exact h (eq_of_afterBrace_append (List.cons.inj hother).2).symm
  rw [spelling, List.cons_append, feeds_cons hp, feeds_append (openBrace_not_mem_afterBrace t), List.cons_append]

/-- Neither a brace nor a line feed is written or taken away inside a word without them. -/
theorem isPrefixOf_feeds {w : List Char} (hbrace : '\x7b' ∉ w) (hfeed : '\n' ∉ w) (cs : List Char) :
    w.isPrefixOf (feeds cs) = w.isPrefixOf cs := by
  induction w generalizing cs with
  | nil => rw [List.isPrefixOf_nil_left, List.isPrefixOf_nil_left]
  | cons x w ih =>
    simp only [List.mem_cons, not_or] at hbrace hfeed
    cases cs with
    | nil => rfl
    | cons c cs =>
      by_cases hp : spelling .lineFeed <+: c :: cs
      · obtain ⟨rest, hrest⟩ := hp
        obtain rfl : '\x7b' = c := (List.cons.inj hrest).1
        have hx : (x == '\x7b') = false := by simpa using Ne.symm hbrace.1
        have hx' : (x == '\n') = false := by simpa using Ne.symm hfeed.1
        rw [← hrest, feeds_spelling_append, List.isPrefixOf, hx', hrest, List.isPrefixOf, hx]
        rfl
      · rw [feeds_cons hp, List.isPrefixOf, List.isPrefixOf, ih hbrace.2 hfeed.2]

theorem startOf?_feeds (cs : List Char) : startOf? (feeds cs) = startOf? cs :=
  startOf?_congr fun t => isPrefixOf_feeds (openBrace_not_mem_afterBrace t) (by cases t <;> decide) cs

/-- Line feeds written in place of their tokens change no other piece. -/
theorem scan_feeds (cs : List Char) : scan (feeds cs) = (scan cs).map Piece.feed := by
  match cs with
  | [] => rfl
  | c :: cs =>
    by_cases hc : c = '\x7b'
    · subst hc
      cases hs : startOf? cs with
      | none =>
        have hp : ¬ spelling .lineFeed <+: '\x7b' :: cs := by
          rintro ⟨rest, hrest⟩
          have hcs : afterBrace .lineFeed ++ rest = cs := (List.cons.inj hrest).2
          rw [← hcs, startOf?_afterBrace_append] at hs
          cases hs
        rw [feeds_cons hp, scan_brace_of_startOf?_eq_none (startOf?_feeds cs ▸ hs),
          scan_brace_of_startOf?_eq_none hs, scan_feeds cs]
        rfl
      | some t =>
        obtain ⟨rest, hcs⟩ : ∃ rest, cs = afterBrace t ++ rest := ⟨_, eq_append_of_startOf? hs⟩
        have hlength : rest.length ≤ cs.length := by
          rw [hcs, List.length_append]
          omega
        have hspelled : '\x7b' :: cs = spelling t ++ rest := by
          rw [hcs]
          rfl
        rw [hspelled, scan_spelling_append, List.map_cons, ← scan_feeds rest]
        by_cases ht : t = .lineFeed
        · subst ht
          rw [feeds_spelling_append, scan_cons_of_ne (by decide)]
          rfl
        · rw [feeds_spelling_append_of_ne ht, scan_spelling_append, Piece.feed_token ht]
    · rw [feeds_cons_of_ne hc, scan_cons_of_ne hc, scan_cons_of_ne hc, scan_feeds cs]
      rfl
termination_by cs.length
decreasing_by all_goals (rw [List.length_cons]; omega)

theorem scan_writeFeeds (text : String) :
    scan (writeFeeds text).toList = (scan text.toList).map Piece.feed := by
  rw [writeFeeds, String.toList_ofList, scan_feeds]

/-! ## Lines -/

variable {f : Char → List Char} {family : Family} {ps : List Piece}

/-- A piece is written as a line end, and so is its line feed; or it is written with no break, and stays as it is. -/
theorem Piece.write_cases (hf : Text.KeepsBreaks f) (family : Family) {p : Piece} (hp : p ≠ .plain '\r') :
    (p.write family f = ['\n'] ∨ p.write family f = ['\r', '\n']) ∧ p.feed.write family f = ['\n'] ∨
      (∀ c ∈ p.write family f, Text.isBreakChar c = false) ∧ p.feed = p := by
  cases p with
  | token t =>
    by_cases ht : t = .lineFeed
    · subst ht
      refine .inl ⟨?_, hf.keep '\n' rfl⟩
      cases family
      · exact .inl rfl
      · exact .inr rfl
    · refine .inr ⟨fun c hc => ?_, Piece.feed_token ht⟩
      have hbreak : Text.hasBreak (t.text family) = false := by
        rw [← Bool.not_eq_true, hasBreak_text_iff]
        exact ht
      simpa using List.any_eq_false.1 hbreak c hc
  | plain c =>
    by_cases hc : c = '\n'
    · subst hc
      exact .inl ⟨.inl (hf.keep '\n' rfl), hf.keep '\n' rfl⟩
    · have hbreak : Text.isBreakChar c = false := by
        rw [Text.isBreakChar, Bool.or_eq_false_iff, beq_eq_false_iff_ne, beq_eq_false_iff_ne]
        exact ⟨hc, fun he => hp (he ▸ rfl)⟩
      exact .inr ⟨(hf.away c hbreak).2, rfl⟩

theorem flatMap_write_feed_eq_nil_iff (hf : Text.KeepsBreaks f) (family : Family) (h : .plain '\r' ∉ ps) :
    (ps.map Piece.feed).flatMap (Piece.write family f) = [] ↔ ps.flatMap (Piece.write family f) = [] := by
  rw [List.flatMap_map, List.flatMap_eq_nil_iff, List.flatMap_eq_nil_iff]
  refine forall₂_congr fun p hp => ?_
  rcases Piece.write_cases hf family (fun he => h (he ▸ hp)) with ⟨hend | hend, hfeed⟩ | ⟨-, hfeed⟩
  · rw [hend, hfeed]
  · simp [hend, hfeed]
  · rw [hfeed]

/-- Pieces are cut into the same lines when tokens for line feeds are line feeds. -/
theorem cut_flatMap_write_feed (hf : Text.KeepsBreaks f) (h : .plain '\r' ∉ ps) :
    Text.cut ((ps.map Piece.feed).flatMap (Piece.write family f)) = Text.cut (ps.flatMap (Piece.write family f)) := by
  induction ps with
  | nil => rfl
  | cons p ps ih =>
    simp only [List.mem_cons, not_or] at h
    have hnil := flatMap_write_feed_eq_nil_iff hf family h.2
    rw [List.map_cons, List.flatMap_cons, List.flatMap_cons]
    rcases Piece.write_cases hf family (Ne.symm h.1) with ⟨hend, hfeed⟩ | ⟨hplain, hfeed⟩
    · have hcut : ∀ cs, Text.cut (p.write family f ++ cs) = Text.cut ('\n' :: cs) := by
        intro cs
        rcases hend with hend | hend <;> rw [hend]
        · rfl
        · exact Text.cut_returnFeed cs
      rw [hcut, hfeed, List.singleton_append, Text.cut_feed, Text.cut_feed, ih h.2]
      simp only [hnil]
    · rw [hfeed, Text.cut_append hplain, Text.cut_append hplain, ih h.2]

theorem plain_return_not_mem_scan {text : String} (h : '\r' ∉ text.toList) : .plain '\r' ∉ scan text.toList :=
  fun hm => h (mem_of_plain_mem_scan hm)

/-- A text without carriage returns, quoted and with its tokens replaced, has the same lines whether its line feeds are
spelled as tokens or stand there themselves. -/
theorem lines_expand_writeFeeds (hf : KeepsTokens f) (hbreaks : Text.KeepsBreaks f) {text : String}
    (h : '\r' ∉ text.toList) (family : Family) :
    Text.lines (expand family (Text.flatMap f (writeFeeds text)))
      = Text.lines (expand family (Text.flatMap f text)) := by
  rw [Text.lines_eq_cut, Text.lines_eq_cut, hf.toList_expand, hf.toList_expand, scan_writeFeeds,
    cut_flatMap_write_feed hbreaks (plain_return_not_mem_scan h)]

end Scriptwright.Token
