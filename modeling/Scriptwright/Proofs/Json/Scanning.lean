/-
A text that spells a row of lexemes is cut into these lexemes
(`scan_of_spells`), as long as no two words that run together stand side by
side, which in the row of a value they never do.
-/
import Scriptwright.Proofs.Json.Spelling

namespace Scriptwright.Json

/-! ## Numbers -/

namespace Numeral

/-- Whether a character would go on with a number. -/
def goesOn (c : Char) : Bool :=
  c.isDigit || c == '.' || c == 'e' || c == 'E'

/-- Digits are taken in while the number that they make stays within the limit. -/
theorem absorb_eq {limit n : Nat} {ds : List Char} (h : Nat.ofDigitChars 10 ds n ≤ limit) :
    absorb limit n ds = (Nat.ofDigitChars 10 ds n, []) := by
  induction ds generalizing n with
  | nil => rfl
  | cons d ds ih =>
    rw [Nat.ofDigitChars_cons] at h ⊢
    have hmul : n * 10 + digitValue d = 10 * n + (d.toNat - '0'.toNat) := by rw [Nat.mul_comm, digitValue]
    have hle : 10 * n + (d.toNat - '0'.toNat) ≤ limit := by
      rw [Nat.ofDigitChars_eq_ofDigitChars_zero] at h
      have hpos : 1 ≤ 10 ^ ds.length := Nat.one_le_pow _ _ (by decide)
      have := Nat.mul_le_mul_right (10 * n + (d.toNat - '0'.toNat)) hpos
      omega
    simp only [absorb, hmul, if_pos hle]
    exact ih h

theorem head_toDigits_ne_zero {n : Nat} (hn : n ≠ 0) : ∀ c ∈ (Nat.toDigits 10 n).head?, c ≠ '0' := by
  induction n using Nat.strongRecOn with
  | ind n ih =>
    rw [Nat.toDigits_eq_if (by decide)]
    split
    · next hlt =>
      intro c hc
      obtain rfl : n.digitChar = c := by simpa using hc
      have hall : ∀ k, k < 10 → k ≠ 0 → k.digitChar ≠ '0' := by decide
      exact hall n hlt hn
    · next hge =>
      intro c hc
      rw [List.head?_append_of_ne_nil _ Nat.toDigits_ne_nil] at hc
      exact ih (n / 10) (by omega) (by omega) c hc

theorem isDigit_of_mem_toDigits {n : Nat} {c : Char} (h : c ∈ Nat.toDigits 10 n) : c.isDigit = true :=
  Nat.isDigit_of_mem_toDigits (by decide) (by decide) h

variable {cs : List Char}

/-- The digits of a number are read as its whole part, if nothing goes on behind them. -/
theorem scanWhole_toDigits (atEnd : Flaw) (offset n : Nat) (hcs : ∀ c ∈ cs.head?, goesOn c = false) :
    scanWhole atEnd ⟨offset, Nat.toDigits 10 n ++ cs⟩
      = .ok (Nat.toDigits 10 n, ⟨offset + (Nat.toDigits 10 n).length, cs⟩) := by
  have hnext : cs.head?.any Char.isDigit = false := by
    rw [Option.any_eq_false]
    intro c hc
    have := hcs c hc
    simp only [goesOn, Bool.or_eq_false_iff] at this
    simp [this.1.1.1]
  by_cases hn : n = 0
  · subst hn
    simp [Nat.toDigits_zero, scanWhole, hnext, Cursor.advance]
  · obtain ⟨d, ds, hds⟩ := List.exists_cons_of_ne_nil (Nat.toDigits_ne_nil : Nat.toDigits 10 n ≠ [])
    have hzero : d ≠ '0' := head_toDigits_ne_zero hn d (by rw [hds]; rfl)
    have hdigits : ∀ c ∈ d :: ds, c.isDigit = true := fun c hc => isDigit_of_mem_toDigits (hds ▸ hc)
    have htake : (d :: (ds ++ cs)).takeWhile Char.isDigit = d :: ds := by
      rw [← List.cons_append, List.takeWhile_append_of_pos hdigits]
      cases cs with
      | nil => simp
      | cons c cs => simp_all
    have hd : d.isDigit = true := hdigits d List.mem_cons_self
    rw [hds, List.cons_append]
    simp [scanWhole, hd, digits, htake, Cursor.advance]

theorem scanFraction_of_not_goesOn (atEnd : Flaw) (offset : Nat) (hcs : ∀ c ∈ cs.head?, goesOn c = false) :
    scanFraction atEnd ⟨offset, cs⟩ = .ok (none, ⟨offset, cs⟩) := by
  unfold scanFraction
  split
  · next rest heq =>
    obtain rfl : cs = '.' :: rest := heq
    cases hcs '.' rfl
  · rfl

theorem scanExponent_of_not_goesOn (atEnd : Flaw) (offset : Nat) (hcs : ∀ c ∈ cs.head?, goesOn c = false) :
    scanExponent atEnd ⟨offset, cs⟩ = .ok (none, ⟨offset, cs⟩) := by
  unfold scanExponent
  rw [if_neg]
  rintro (h | h)
  · cases hcs 'e' h
  · cases hcs 'E' h

/-- The numeral of an integer. -/
def ofInt (n : Int) : Numeral :=
  ⟨decide (n < 0), Nat.toDigits 10 n.natAbs, none, none⟩

theorem toList_toString_int (n : Int) :
    (toString n).toList = (if n < 0 then ['-'] else []) ++ Nat.toDigits 10 n.natAbs := by
  cases n with
  | ofNat m =>
    change (Nat.repr m).toList = _
    rw [Nat.toList_repr, if_neg (by simp)]
    rfl
  | negSucc m =>
    change ("-" ++ Nat.repr (m + 1)).toList = _
    rw [String.toList_append, Nat.toList_repr, if_pos (Int.negSucc_lt_zero m)]
    rfl

theorem toString_int_ne_nil (n : Int) : (toString n).toList ≠ [] := by
  rw [toList_toString_int]
  simp [Nat.toDigits_ne_nil]

/-- An integer starts with a sign or a digit. -/
theorem sign_of_toString_int {n : Int} {c : Char} {tail : List Char} (h : (toString n).toList = c :: tail) :
    c = '-' ∨ c.isDigit = true := by
  rw [toList_toString_int] at h
  by_cases hn : n < 0
  · rw [if_pos hn] at h
    cases h
    exact .inl rfl
  · rw [if_neg hn, List.nil_append] at h
    exact .inr (isDigit_of_mem_toDigits (h ▸ List.mem_cons_self))

theorem scanSign_toString_int (offset : Nat) (n : Int) :
    scanSign ⟨offset, (toString n).toList ++ cs⟩
      = (decide (n < 0), ⟨offset + if n < 0 then 1 else 0, Nat.toDigits 10 n.natAbs ++ cs⟩) := by
  rw [toList_toString_int]
  by_cases hn : n < 0
  · simp [hn, scanSign, Cursor.advance]
  · obtain ⟨d, ds, hds⟩ := List.exists_cons_of_ne_nil (Nat.toDigits_ne_nil : Nat.toDigits 10 n.natAbs ≠ [])
    have hd : d.isDigit = true := isDigit_of_mem_toDigits (hds ▸ List.mem_cons_self)
    have hminus : d ≠ '-' := by
      rintro rfl
      cases hd
    rw [if_neg hn, if_neg hn, hds]
    unfold scanSign
    split
    · next heq =>
      cases heq
      exact absurd rfl hminus
    · simp [hn]

/-- An integer is read as its numeral, if nothing goes on behind it. -/
theorem scan_toString_int (atEnd : Flaw) (offset : Nat) (n : Int) (hcs : ∀ c ∈ cs.head?, goesOn c = false) :
    ∃ stop, scan atEnd ⟨offset, (toString n).toList ++ cs⟩ = .ok (ofInt n, ⟨stop, cs⟩) := by
  refine ⟨offset + (if n < 0 then 1 else 0) + (Nat.toDigits 10 n.natAbs).length, ?_⟩
  rw [scan, scanSign_toString_int]
  simp only [scanWhole_toDigits atEnd _ _ hcs, scanFraction_of_not_goesOn atEnd _ hcs,
    scanExponent_of_not_goesOn atEnd _ hcs, bind, Except.bind, pure, Except.pure]
  rfl

theorem value_ofInt {n : Int} (hmin : -maxNegative ≤ n) (hmax : n ≤ maxSignificand) (stop : Nat) :
    (ofInt n).value stop = .ok (.integer n) := by
  have hdigits : Nat.ofDigitChars 10 (Nat.toDigits 10 n.natAbs) 0 = n.natAbs := Nat.ofDigitChars_ten_toDigits
  have hle : n.natAbs ≤ maxSignificand := by
    have hbound : maxNegative ≤ maxSignificand := by decide
    omega
  have habsorb : absorb maxSignificand 0 (Nat.toDigits 10 n.natAbs) = (n.natAbs, []) := by
    rw [absorb_eq (hdigits.trans_le hle), hdigits]
  have hinteger : ofSignificand (decide (n < 0)) n.natAbs = .integer n := by
    unfold ofSignificand
    by_cases hn : n < 0
    · have hne : ¬ (n.natAbs = 0 ∨ maxNegative < n.natAbs) := by omega
      have heq : -(n.natAbs : Int) = n := by omega
      simp only [hn, decide_true, Bool.not_true, Bool.false_eq_true, if_false, if_neg hne, heq]
    · have heq : (n.natAbs : Int) = n := by omega
      simp only [hn, decide_false, Bool.not_false, if_true, heq]
  simp only [value, ofInt, habsorb, Option.getD_none, absorb]
  simp [hinteger]

end Numeral

/-! ## Strings -/

namespace Quoted

variable {text cs : List Char}

/-- The characters that an escape has taken are passed over. -/
theorem readFrom_append (w cs : List Char) (offset : Nat) :
    readFrom w.length offset (w ++ cs) = readFrom 0 (offset + w.length) cs := by
  induction w generalizing offset with
  | nil => rfl
  | cons c w ih =>
    rw [List.cons_append, List.length_cons, readFrom, ih, Nat.add_assoc, Nat.add_comm 1]

theorem skipFrom_append (w cs : List Char) (offset : Nat) :
    skipFrom w.length offset (w ++ cs) = skipFrom 0 (offset + w.length) cs := by
  induction w generalizing offset with
  | nil => rfl
  | cons c w ih =>
    rw [List.cons_append, List.length_cons, skipFrom, ih, Nat.add_assoc, Nat.add_comm 1]

theorem isTrailing_of_isLeading {n : Nat} (h : isLeading n = true) : isTrailing n = false := by
  simp only [isLeading, isTrailing, Bool.and_eq_true, decide_eq_true_eq, Bool.and_eq_false_iff,
    decide_eq_false_iff_not] at h ⊢
  omega

theorem hexAt_eq {offset n : Nat} {a b c d : Char} (h : fourHex? [a, b, c, d] = some n) (cs : List Char) :
    hexAt offset (a :: b :: c :: d :: cs) = .ok n := by
  have hlong : fourHex? (a :: b :: c :: d :: cs) = some n := h
  rw [hexAt, hlong]

/-- One escape is read, and then the characters behind it. -/
theorem readFrom_escape {offset : Nat} {c : Char} {w : List Char}
    (hc : ∀ cs, escapeAt (offset + 1) (w ++ cs) = .ok (c, w.length)) (cs : List Char) :
    readFrom 0 offset ('\\' :: (w ++ cs)) = do
      let (text, cur) ← readFrom 0 (offset + 1 + w.length) cs
      return (c :: text, cur) := by
  rw [readFrom]
  simp only [hc, readFrom_append]
  rfl

theorem skipFrom_escape {offset : Nat} {w : List Char} (hc : ∀ cs, skipEscapeAt (offset + 1) (w ++ cs) = .ok w.length)
    (cs : List Char) : skipFrom 0 offset ('\\' :: (w ++ cs)) = skipFrom 0 (offset + 1 + w.length) cs := by
  rw [skipFrom]
  simp only [hc, skipFrom_append]
  rfl

theorem escapeAt_letter {c d : Char} (h : letterEscape? d = some c) (offset : Nat) (cs : List Char) :
    escapeAt offset (d :: cs) = .ok (c, 1) := by
  rw [escapeAt, h]

theorem escapeAt_unicode {c : Char} {taken : Nat} {cs : List Char} {offset : Nat}
    (h : unicodeAt (offset + 1) cs = .ok (c, taken)) : escapeAt offset ('u' :: cs) = .ok (c, taken + 1) := by
  have hletter : letterEscape? 'u' = none := by decide
  rw [escapeAt, hletter]
  simp only [if_true, h]
  rfl

theorem skipEscapeAt_letter {c d : Char} (h : letterEscape? d = some c) (offset : Nat) (cs : List Char) :
    skipEscapeAt offset (d :: cs) = .ok 1 := by
  rw [skipEscapeAt, h]
  rfl

theorem skipEscapeAt_unicode {n : Nat} {a b c d : Char} (h : fourHex? [a, b, c, d] = some n) (offset : Nat)
    (cs : List Char) : skipEscapeAt offset ('u' :: a :: b :: c :: d :: cs) = .ok 5 := by
  have hletter : letterEscape? 'u' = none := by decide
  rw [skipEscapeAt, hletter]
  simp only [Option.isSome_none, Bool.false_eq_true, if_false, if_true, hexAt_eq h]
  rfl

theorem unicodeAt_number {n : Nat} {a b c d : Char} (hn : fourHex? [a, b, c, d] = some n)
    (hleading : isLeading n = false) (htrailing : isTrailing n = false) (offset : Nat) (cs : List Char) :
    unicodeAt offset (a :: b :: c :: d :: cs) = .ok (Char.ofNat n, 4) := by
  simp [unicodeAt, hexAt_eq hn, hleading, htrailing, bind, Except.bind, pure, Except.pure]

theorem unicodeAt_pair {m n : Nat} {a b c d a' b' c' d' : Char} (hm : fourHex? [a, b, c, d] = some m)
    (hleading : isLeading m = true) (hn : fourHex? [a', b', c', d'] = some n) (htrailing : isTrailing n = true)
    (offset : Nat) (cs : List Char) :
    unicodeAt offset (a :: b :: c :: d :: '\\' :: 'u' :: a' :: b' :: c' :: d' :: cs) = .ok (ofPair m n, 10) := by
  simp [unicodeAt, hexAt_eq hm, hexAt_eq hn, hleading, htrailing, isTrailing_of_isLeading hleading, bind, Except.bind,
    pure, Except.pure]

/-- The inside of a string is read as its characters, up to the closing quote. -/
theorem readFrom_inside (h : Inside text cs) (rest : List Char) (offset : Nat) :
    ∃ stop, readFrom 0 offset (cs ++ '\x22' :: rest) = .ok (text, ⟨stop, rest⟩) := by
  induction h generalizing offset with
  | nil => exact ⟨offset + 1, rfl⟩
  | @plain c text cs hquote hslash hcontrol _ ih =>
    obtain ⟨stop, hstop⟩ := ih (offset + c.utf8Size)
    refine ⟨stop, ?_⟩
    rw [List.cons_append, readFrom]
    simp only [if_neg hquote, if_neg hslash, hcontrol, Bool.false_eq_true, if_false, hstop]
    rfl
  | @letter c d text cs hd _ ih =>
    obtain ⟨stop, hstop⟩ := ih (offset + 1 + 1)
    have hread := readFrom_escape (w := [d]) (escapeAt_letter hd (offset + 1)) (cs ++ '\x22' :: rest)
    refine ⟨stop, hread.trans ?_⟩
    rw [List.length_singleton, hstop]
    rfl
  | @number n a b c d text cs hn hleading htrailing _ ih =>
    obtain ⟨stop, hstop⟩ := ih (offset + 1 + 5)
    have hread := readFrom_escape (w := ['u', a, b, c, d])
      (fun cs => escapeAt_unicode (unicodeAt_number hn hleading htrailing (offset + 1 + 1) cs)) (cs ++ '\x22' :: rest)
    refine ⟨stop, hread.trans ?_⟩
    simp only [List.length_cons, List.length_nil, hstop]
    rfl
  | @pair m n a b c d a' b' c' d' text cs hm hleading hn htrailing _ ih =>
    obtain ⟨stop, hstop⟩ := ih (offset + 1 + 11)
    have hread := readFrom_escape (w := ['u', a, b, c, d, '\\', 'u', a', b', c', d'])
      (fun cs => escapeAt_unicode (unicodeAt_pair hm hleading hn htrailing (offset + 1 + 1) cs)) (cs ++ '\x22' :: rest)
    refine ⟨stop, hread.trans ?_⟩
    simp only [List.length_cons, List.length_nil, hstop]
    rfl

/-- Skipping the inside of a string ends behind the closing quote, too. -/
theorem skipFrom_inside (h : Inside text cs) (rest : List Char) (offset : Nat) :
    ∃ stop, skipFrom 0 offset (cs ++ '\x22' :: rest) = .ok ⟨stop, rest⟩ := by
  induction h generalizing offset with
  | nil => exact ⟨offset + 1, rfl⟩
  | @plain c text cs hquote hslash hcontrol _ ih =>
    obtain ⟨stop, hstop⟩ := ih (offset + c.utf8Size)
    refine ⟨stop, ?_⟩
    rw [List.cons_append, skipFrom]
    simp only [if_neg hquote, if_neg hslash, hcontrol, Bool.false_eq_true, if_false, hstop]
  | @letter c d text cs hd _ ih =>
    obtain ⟨stop, hstop⟩ := ih (offset + 1 + 1)
    exact ⟨stop, (skipFrom_escape (w := [d]) (skipEscapeAt_letter hd (offset + 1)) _).trans hstop⟩
  | @number n a b c d text cs hn _ _ _ ih =>
    obtain ⟨stop, hstop⟩ := ih (offset + 1 + 5)
    exact ⟨stop, (skipFrom_escape (w := ['u', a, b, c, d]) (skipEscapeAt_unicode hn (offset + 1)) _).trans hstop⟩
  | @pair m n a b c d a' b' c' d' text cs hm _ hn _ _ ih =>
    -- The two escapes of a pair are skipped one after the other.
    obtain ⟨stop, hstop⟩ := ih (offset + 1 + 5 + 1 + 5)
    have hfirst := skipFrom_escape (w := ['u', a, b, c, d]) (skipEscapeAt_unicode hm (offset + 1))
      ('\\' :: 'u' :: a' :: b' :: c' :: d' :: (cs ++ '\x22' :: rest))
    have hsecond := skipFrom_escape (w := ['u', a', b', c', d']) (skipEscapeAt_unicode hn (offset + 1 + 5 + 1))
      (cs ++ '\x22' :: rest)
    exact ⟨stop, (hfirst.trans hsecond).trans hstop⟩

end Quoted

/-! ## Words -/

namespace Lexeme

/-- Whether a lexeme is a word or a number, which another one must not follow at once. -/
def isPlain : Lexeme → Bool
  | .plain .. => true
  | _ => false

theorem ne_of_isDigit {c d : Char} (hc : c.isDigit = true) (hd : d.isDigit = false) : c ≠ d := by
  rintro rfl
  rw [hc] at hd
  cases hd

theorem read_of_sign {c : Char} (h : c = '-' ∨ c.isDigit = true) (cur : Cursor) : read c cur = readNumber cur := by
  rcases h with rfl | h
  · rfl
  · have hne : ∀ d : Char, d.isDigit = false → c ≠ d := fun d => ne_of_isDigit h
    rw [read, if_neg (hne '[' rfl), if_neg (hne ']' rfl), if_neg (hne '\x7b' rfl), if_neg (hne '\x7d' rfl),
      if_neg (hne ',' rfl), if_neg (hne ':' rfl), if_neg (hne '\x22' rfl), if_pos (.inr h)]

theorem isSpace_of_sign {c : Char} (h : c = '-' ∨ c.isDigit = true) : isSpace c = false := by
  rcases h with rfl | h
  · rfl
  · have hne : ∀ d : Char, d.isDigit = false → c ≠ d := fun d => ne_of_isDigit h
    simp [isSpace, hne ' ' rfl, hne '\n' rfl, hne '\t' rfl, hne '\r' rfl]

theorem readNumber_toString_int {n : Int} {cs : List Char} (hmin : -Numeral.maxNegative ≤ n)
    (hmax : n ≤ Numeral.maxSignificand) (hcs : ∀ c ∈ cs.head?, Numeral.goesOn c = false) (offset : Nat) :
    ∃ stop, readNumber ⟨offset, (toString n).toList ++ cs⟩
      = ((Scalar.number (.integer n)).lexeme, some ⟨stop, cs⟩) := by
  obtain ⟨stop, hvalue⟩ := Numeral.scan_toString_int .endInValue offset n hcs
  obtain ⟨stop', hskip⟩ := Numeral.scan_toString_int .invalidNumber offset n hcs
  refine ⟨stop', ?_⟩
  simp only [readNumber, hvalue, hskip, bind, Except.bind, Numeral.value_ofInt hmin hmax]
  rfl

theorem readString_inside {text : String} {cs : List Char} (h : Inside text.toList cs) (rest : List Char)
    (offset : Nat) :
    ∃ stop, readString ⟨offset, cs ++ '\x22' :: rest⟩ = ((Scalar.string text).lexeme, some ⟨stop, rest⟩) := by
  obtain ⟨stop, hread⟩ := Quoted.readFrom_inside h rest offset
  obtain ⟨stop', hskip⟩ := Quoted.skipFrom_inside h rest offset
  refine ⟨stop', ?_⟩
  simp only [readString, Quoted.read, Quoted.skip, hread, hskip, bind, Except.bind, pure, Except.pure,
    String.ofList_toList]
  rfl

theorem readWord_append (value : Scalar) (word : String) (cs : List Char) (offset : Nat) :
    ∃ stop, readWord value word ⟨offset, word.toList ++ cs⟩ = (.plain (.ok value) (.ok ()), some ⟨stop, cs⟩) := by
  have hscan : ∀ w offset, scanWord offset w (w ++ cs) = .ok ⟨offset + w.length, cs⟩ := by
    intro w
    induction w with
    | nil => exact fun offset => rfl
    | cons c w ih =>
      intro offset
      rw [List.cons_append, scanWord, if_pos rfl, ih, List.length_cons, Nat.add_assoc, Nat.add_comm 1]
  exact ⟨offset + word.toList.length, by rw [readWord, hscan]⟩

/-- A word is read as its lexeme, if nothing goes on behind it. -/
theorem read_word {l : Lexeme} {word cs : List Char} (h : Word l word)
    (hcs : l.isPlain = true → ∀ c ∈ cs.head?, Numeral.goesOn c = false) (offset : Nat) :
    ∃ c tail stop, word = c :: tail ∧ isSpace c = false ∧ read c ⟨offset, word ++ cs⟩ = (l, some ⟨stop, cs⟩) := by
  cases h with
  | openBracket | closeBracket | openBrace | closeBrace | comma | colon =>
    exact ⟨_, [], offset + 1, rfl, rfl, rfl⟩
  | null =>
    obtain ⟨stop, hstop⟩ := readWord_append .null "null" cs offset
    exact ⟨'n', ['u', 'l', 'l'], stop, rfl, rfl, hstop⟩
  | true =>
    obtain ⟨stop, hstop⟩ := readWord_append (.bool true) "true" cs offset
    exact ⟨'t', ['r', 'u', 'e'], stop, rfl, rfl, hstop⟩
  | false =>
    obtain ⟨stop, hstop⟩ := readWord_append (.bool false) "false" cs offset
    exact ⟨'f', ['a', 'l', 's', 'e'], stop, rfl, rfl, hstop⟩
  | @integer n hmin hmax =>
    obtain ⟨stop, hstop⟩ := readNumber_toString_int hmin hmax (hcs rfl) offset
    obtain ⟨c, tail, hword⟩ := List.exists_cons_of_ne_nil (Numeral.toString_int_ne_nil n)
    have hsign := Numeral.sign_of_toString_int hword
    exact ⟨c, tail, stop, hword, isSpace_of_sign hsign, (read_of_sign hsign _).trans hstop⟩
  | @string text inside hinside =>
    obtain ⟨stop, hstop⟩ := readString_inside hinside cs (offset + 1)
    refine ⟨'\x22', inside ++ ['\x22'], stop, rfl, rfl, ?_⟩
    have hrest : '\x22' :: (inside ++ ['\x22']) ++ cs = '\x22' :: (inside ++ '\x22' :: cs) := by simp
    rw [hrest]
    exact hstop

/-! ## Rows -/

/-- Two lexemes that may stand side by side without space. -/
def Apart (l l' : Lexeme) : Prop :=
  l.isPlain = false ∨ l'.isPlain = false

theorem skipSpace_append {space cs : List Char} (hspace : ∀ c ∈ space, isSpace c = true)
    (hcs : ∀ c ∈ cs.head?, isSpace c = false) (offset : Nat) :
    skipSpace offset (space ++ cs) = ⟨offset + space.length, cs⟩ := by
  induction space generalizing offset with
  | nil =>
    cases cs with
    | nil => rfl
    | cons c cs => simp [skipSpace, hcs c rfl]
  | cons c space ih =>
    have hrest := ih fun d hd => hspace d (List.mem_cons_of_mem _ hd)
    rw [List.cons_append, skipSpace, if_pos (hspace c List.mem_cons_self), hrest, List.length_cons, Nat.add_assoc,
      Nat.add_comm 1]

theorem goesOn_of_isSpace {c : Char} (h : isSpace c = true) : Numeral.goesOn c = false := by
  have hc : c = ' ' ∨ c = '\n' ∨ c = '\t' ∨ c = '\r' := by simpa [isSpace, or_assoc] using h
  rcases hc with rfl | rfl | rfl | rfl <;> rfl

theorem not_goesOn_of_word {l : Lexeme} {word : List Char} (h : Word l word) (hl : l.isPlain = false) (cs : List Char) :
    ∀ c ∈ (word ++ cs).head?, Numeral.goesOn c = false := by
  intro c hc
  cases h with
  | null | true | false | integer => cases hl
  | openBracket | closeBracket | openBrace | closeBrace | comma | colon | string =>
    obtain rfl := Option.some.inj hc
    rfl

/-- What is behind a word or a number does not go on with it. -/
theorem not_goesOn_of_spells {l : Lexeme} {ls : List Lexeme} {cs : List Char} (h : Spells ls cs)
    (hsep : (l :: ls).IsChain Apart) (hplain : l.isPlain = true) : ∀ c ∈ cs.head?, Numeral.goesOn c = false := by
  intro c hc
  cases h with
  | nil hspace => exact goesOn_of_isSpace (hspace c (List.mem_of_mem_head? hc))
  | @cons l' ls space word cs hspace hword rest =>
    cases space with
    | cons d space =>
      cases hc
      exact goesOn_of_isSpace (hspace _ List.mem_cons_self)
    | nil =>
      have hapart : Apart l l' := (List.isChain_cons_cons.1 hsep).1
      have hnext : l'.isPlain = false := by simpa [Apart, hplain] using hapart
      exact not_goesOn_of_word hword hnext cs c hc

/-- A text that spells lexemes is cut into them. -/
theorem scanFrom_of_spells {ls : List Lexeme} {cs : List Char} (h : Spells ls cs) (hsep : ls.IsChain Apart)
    {fuel : Nat} (hfuel : cs.length ≤ fuel) (offset : Nat) :
    (scanFrom fuel ⟨offset, cs⟩).map Located.lexeme = ls := by
  induction h generalizing fuel offset with
  | @nil space hspace =>
    cases fuel with
    | zero => rfl
    | succ fuel =>
      have hskip : skipSpace offset (space ++ []) = ⟨offset + space.length, []⟩ :=
        skipSpace_append hspace (by simp) offset
      rw [List.append_nil] at hskip
      rw [scanFrom]
      simp only [hskip]
      rfl
  | @cons l ls space word cs hspace hword rest ih =>
    obtain ⟨c, tail, stop, rfl, hc, hread⟩ :=
      read_word hword (not_goesOn_of_spells rest hsep) (offset + space.length)
    have hlength : (space ++ (c :: tail ++ cs)).length = space.length + (tail.length + 1 + cs.length) := by
      rw [List.length_append, List.length_append, List.length_cons]
    obtain ⟨fuel, rfl⟩ : ∃ fuel', fuel = fuel' + 1 := ⟨fuel - 1, by omega⟩
    have hskip : skipSpace offset (space ++ (c :: tail ++ cs)) = ⟨offset + space.length, c :: tail ++ cs⟩ :=
      skipSpace_append hspace (by simp [hc]) offset
    have hscan : scanFrom (fuel + 1) ⟨offset, space ++ (c :: tail ++ cs)⟩
        = ⟨l, offset + space.length, stop⟩ :: scanFrom fuel ⟨stop, cs⟩ := by
      rw [scanFrom]
      simp only [hskip]
      rw [List.cons_append]
      simp only [← List.cons_append, hread]
    rw [hscan, List.map_cons, ih hsep.tail (by omega)]

end Lexeme

/-! ## Values -/

section

open Lexeme

theorem isChain_cons {ls : List Lexeme} {l : Lexeme} (hl : l.isPlain = false) (h : ls.IsChain Apart) :
    (l :: ls).IsChain Apart :=
  h.cons fun _ _ => .inl hl

theorem isPlain_string (text : String) : (Scalar.string text).lexeme.isPlain = false := rfl

mutual

/-- No two words or numbers stand side by side in the row of a value. -/
theorem isChain_lexemes (j : Json) {ls : List Lexeme} (hls : ls.IsChain Apart)
    (hhead : ∀ l ∈ ls.head?, l.isPlain = false) : (j.lexemes ++ ls).IsChain Apart := by
  match j with
  | .scalar value => exact hls.cons fun l hl => .inr (hhead l hl)
  | .array [] => exact isChain_cons rfl (isChain_cons rfl hls)
  | .array (j :: js) =>
    have hmore := isChain_moreItemLexemes js hls
    have hitems := isChain_lexemes j hmore.1 hmore.2
    rw [lexemes, itemLexemes, List.cons_append, List.append_assoc]
    exact isChain_cons rfl hitems
  | .object [] => exact isChain_cons rfl (isChain_cons rfl hls)
  | .object ((key, j) :: ms) =>
    have hmore := isChain_moreMemberLexemes ms hls
    have hmember := isChain_lexemes j hmore.1 hmore.2
    rw [lexemes, memberLexemes, List.cons_append, List.cons_append, List.cons_append, List.append_assoc]
    exact isChain_cons rfl (isChain_cons (isPlain_string key) (isChain_cons rfl hmember))
  termination_by structural j

theorem isChain_moreItemLexemes (js : List Json) {ls : List Lexeme} (hls : ls.IsChain Apart) :
    (moreItemLexemes js ++ ls).IsChain Apart ∧ ∀ l ∈ (moreItemLexemes js ++ ls).head?, l.isPlain = false := by
  match js with
  | [] => exact ⟨isChain_cons rfl hls, by simp [moreItemLexemes, isPlain]⟩
  | j :: js =>
    have hmore := isChain_moreItemLexemes js hls
    have hitem := isChain_lexemes j hmore.1 hmore.2
    rw [moreItemLexemes, List.cons_append, List.append_assoc]
    exact ⟨isChain_cons rfl hitem, by simp [isPlain]⟩
  termination_by structural js

theorem isChain_moreMemberLexemes (ms : List (String × Json)) {ls : List Lexeme} (hls : ls.IsChain Apart) :
    (moreMemberLexemes ms ++ ls).IsChain Apart ∧ ∀ l ∈ (moreMemberLexemes ms ++ ls).head?, l.isPlain = false := by
  match ms with
  | [] => exact ⟨isChain_cons rfl hls, by simp [moreMemberLexemes, isPlain]⟩
  | (key, j) :: ms =>
    have hmore := isChain_moreMemberLexemes ms hls
    have hmember := isChain_lexemes j hmore.1 hmore.2
    rw [moreMemberLexemes, List.cons_append, List.cons_append, List.cons_append, List.append_assoc]
    exact ⟨isChain_cons rfl (isChain_cons (isPlain_string key) (isChain_cons rfl hmember)), by simp [isPlain]⟩
  termination_by structural ms

end

end

/-- A text that spells a value is cut into the lexemes of the value. -/
theorem scan_of_spells {j : Json} {text : String} (h : Spells j.lexemes text.toList) :
    (Lexeme.scan text).map Located.lexeme = j.lexemes := by
  have hsep : (j.lexemes ++ []).IsChain Lexeme.Apart := isChain_lexemes j .nil (by simp)
  rw [List.append_nil] at hsep
  exact Lexeme.scanFrom_of_spells h hsep (Nat.le_refl _) 0

end Scriptwright.Json
