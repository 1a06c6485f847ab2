import N8n.JsTokens
import N8n.PreprocessCode
import Mathlib.Data.List.Find

/-! Preprocessing and the tokens of the code. The repairs of string and template literals
and the unescaping of double-escaped code are made by scanners that know neither
comments nor regular expressions. When nothing the scanners see calls for a repair, the
only change is a backslash before `${` in a string or a comment. -/

namespace N8n.PreprocessTokens

open JsTokens PreprocessCode Option
open List hiding lex

section EscapePattern

/-- The patterns of the template literals start with `${`. -/
abbrev escapeBrace (tail : List Char) := escapePattern ('$' :: '{' :: tail)

variable {tail code behind rest text : List Char} {previous : Option Char} {char : Char}

theorem escapePattern_cons (tail : List Char) (previous : Option Char) (char : Char) (rest : List Char) :
    escapeBrace tail previous (char :: rest) = char :: escapeBrace tail (some char) rest ∨
      char = '$' ∧ ('{' :: tail) <+: rest ∧ previous ≠ some '\\' ∧
        escapeBrace tail previous (char :: rest) =
          '\\' :: '$' :: escapeBrace tail (some '$') rest := by
  rw [escapeBrace, escapePattern]
  split
  · rename_i matched
    obtain ⟨notEscaped, isPrefix⟩ := matched
    rw [List.isPrefixOf_iff_prefix, cons_prefix_cons] at isPrefix
    obtain ⟨rfl, starts⟩ := isPrefix
    exact .inr ⟨rfl, starts, notEscaped, rfl⟩
  · exact .inl rfl

theorem escapePattern_of_ne (different : char ≠ '$') : escapeBrace tail previous (char :: rest) =
      char :: escapeBrace tail (some char) rest := by
  rcases escapePattern_cons tail previous char rest with plain | ⟨same, _⟩
  · exact plain
  · exact absurd same different

theorem escapePattern_escaped : escapeBrace tail (some '\\') (char :: rest) =
      char :: escapeBrace tail (some char) rest := by
  rcases escapePattern_cons tail (some '\\') char rest with plain | ⟨_, _, unescaped, _⟩
  · exact plain
  · exact absurd rfl unescaped

theorem escapePattern_append (escaped : ∀ before after, text = before ++ '$' :: after →
      ('{' :: tail) <+: after ++ behind → before.getLast?.or previous = some '\\') :
    escapeBrace tail previous (text ++ behind) =
      text ++ escapeBrace tail (text.getLast?.or previous) behind := by
  induction text generalizing previous with
  | nil => simp
  | cons char rest ih =>
    have last : ∀ word : List Char, (char :: word).getLast?.or previous = word.getLast?.or (some char) := by
      intro word
      cases word <;> simp [getLast?_cons]
    have plain : escapeBrace tail previous (char :: (rest ++ behind)) =
        char :: escapeBrace tail (some char) (rest ++ behind) := by
      rcases escapePattern_cons tail previous char (rest ++ behind) with plain | ⟨same, brace, unescaped, _⟩
      · exact plain
      · exact absurd (escaped [] rest (by simp [same]) brace) unescaped
    have inner : escapeBrace tail (some char) (rest ++ behind) =
        rest ++ escapeBrace tail (rest.getLast?.or (some char)) behind :=
      ih fun before after split brace => (last before).symm.trans
        (escaped (char :: before) after (by simp [split]) brace)
    rw [cons_append, plain, inner, cons_append, last]

theorem escapePattern_head (starts : code.head? ≠ some '$') : (escapeBrace tail previous code).head? = code.head? := by
  cases code with
  | nil => rfl
  | cons char rest =>
    rw [escapePattern_of_ne (by simpa using starts)]
    rfl

theorem escapePattern_head_iff (notDollar : char ≠ '$') (notBackslash : char ≠ '\\') :
    (escapeBrace tail previous code).head? = some char ↔ code.head? = some char := by
  cases code with
  | nil => rfl
  | cons first rest =>
    rcases escapePattern_cons tail previous first rest with plain | ⟨rfl, _, _, escaped⟩
    · rw [plain]
      rfl
    · rw [escaped]
      simp [notDollar.symm, notBackslash.symm]

variable (tail previous) in
theorem escapePattern_tail (starts : code.head? ≠ some '$') : ∃ next,
    (escapeBrace tail previous code).tail = escapeBrace tail next code.tail := by
  cases code with
  | nil => exact ⟨none, rfl⟩
  | cons char rest =>
    rw [escapePattern_of_ne (by simpa using starts)]
    exact ⟨some char, rfl⟩

end EscapePattern

section Strings

variable (tail : List Char) (previous : Option Char) {code : List Char} {char : Char} {result : ℕ × List Char}

theorem hexValue_ne_dollar {digit : ℕ} (hex : hexValue char = some digit) : char ≠ '$' := by
  rintro rfl
  have none : hexValue '$' = none := by decide
  rw [none] at hex
  cases hex

theorem readHex_escaped {value count : ℕ} (read : readHex value count code = some result) : ∃ next,
      readHex value count (escapeBrace tail previous code) =
        some (result.1, escapeBrace tail next result.2) := by
  fun_induction readHex value count code generalizing previous with
  | case1 value rest =>
    cases read
    exact ⟨previous, by rw [readHex]⟩
  | case2 => cases read
  | case3 value count char rest digit hex ih =>
    obtain ⟨next, same⟩ := ih (some char) read
    refine ⟨next, ?_⟩
    rw [escapePattern_of_ne (hexValue_ne_dollar hex), readHex, hex]
    exact same
  | case4 => cases read

theorem readBraced_escaped {value : ℕ} (read : readBraced value code = some result) : ∃ next,
      readBraced value (escapeBrace tail previous code) =
        some (result.1, escapeBrace tail next result.2) := by
  fun_induction readBraced value code generalizing previous with
  | case1 => cases read
  | case2 value rest =>
    cases read
    refine ⟨some '}', ?_⟩
    rw [escapePattern_of_ne (by decide), readBraced, if_pos rfl]
  | case3 value char rest notBrace digit hex bound ih =>
    obtain ⟨next, same⟩ := ih (some char) read
    refine ⟨next, ?_⟩
    rw [escapePattern_of_ne (hexValue_ne_dollar hex), readBraced, if_neg notBrace, hex]
    simpa only [bound, if_true] using same
  | case4 => cases read
  | case5 => cases read

theorem readCodePoint_escaped (read : readCodePoint char code = some result) : ∃ next,
      readCodePoint char (escapeBrace tail previous code) =
        some (result.1, escapeBrace tail next result.2) := by
  have brace : ∀ {previous} {code : List Char},
      (escapeBrace tail previous code).head? = some '{' ↔ code.head? = some '{' :=
    escapePattern_head_iff (by decide) (by decide)
  have closing : ∀ {previous} {code : List Char},
      (escapeBrace tail previous code).head? = some '}' ↔ code.head? = some '}' :=
    escapePattern_head_iff (by decide) (by decide)
  unfold readCodePoint at read ⊢
  split_ifs at read with two braced
  · rw [if_pos two]
    exact readHex_escaped tail _ read
  · have notDollar : code.head? ≠ some '$' := by simp [braced.1]
    obtain ⟨next, tails⟩ := escapePattern_tail tail previous notDollar
    rw [if_neg two, tails, if_pos ⟨brace.mpr braced.1, closing.not.mpr braced.2⟩]
    exact readBraced_escaped tail _ read
  · rw [if_neg two, if_neg]
    · exact readHex_escaped tail _ read
    · rintro ⟨open_, notClosing⟩
      have opens := brace.mp open_
      have notDollar : code.head? ≠ some '$' := by simp [opens]
      obtain ⟨next, tails⟩ := escapePattern_tail tail previous notDollar
      rw [tails] at notClosing
      exact braced ⟨opens, closing.not.mp notClosing⟩

theorem dropLineFeed_escaped (code : List Char) : ∃ next,
    dropLineFeed (escapeBrace tail previous code) =
      escapeBrace tail next (dropLineFeed code) := by
  cases code with
  | nil => exact ⟨none, rfl⟩
  | cons char rest =>
    by_cases lineFeed : char = '\n'
    · subst lineFeed
      refine ⟨some '\n', ?_⟩
      rw [escapePattern_of_ne (by decide), dropLineFeed, dropLineFeed, if_pos rfl, if_pos rfl]
    · refine ⟨previous, ?_⟩
      rw [dropLineFeed, if_neg lineFeed]
      rcases escapePattern_cons tail previous char rest with plain | ⟨_, _, _, escaped⟩
      · rw [plain, dropLineFeed, if_neg lineFeed]
      · rw [escaped, dropLineFeed, if_neg (by decide)]

theorem head_any_escaped {test : Char → Bool} (plain : test '$' = false ∧ test '\\' = false) :
    (escapeBrace tail previous code).head?.any test = code.head?.any test := by
  cases code with
  | nil => rfl
  | cons char rest =>
    rcases escapePattern_cons tail previous char rest with plain | ⟨rfl, _, _, escaped⟩
    · rw [plain]
      rfl
    · rw [escaped]
      simp [plain.1, plain.2]

theorem readEscape_escaped {result : List ℕ × List Char} (read : readEscape code = some result) :
    ∃ next, readEscape (escapeBrace tail (some '\\') code) =
      some (result.1, escapeBrace tail next result.2) := by
  cases code with
  | nil => simp [readEscape] at read
  | cons char rest =>
    rw [escapePattern_escaped]
    simp only [readEscape] at read ⊢
    split_ifs at read with simple carriage terminator numeric zero digit
    · cases read
      exact ⟨some char, by rw [if_pos simple]⟩
    · cases read
      obtain ⟨next, same⟩ := dropLineFeed_escaped tail (some char) rest
      exact ⟨next, by rw [if_neg simple, if_pos carriage, same]⟩
    · cases read
      exact ⟨some char, by rw [if_neg simple, if_neg carriage, if_pos terminator]⟩
    · obtain ⟨found, readFound, rfl⟩ := map_eq_some_iff.mp read
      obtain ⟨next, same⟩ := readCodePoint_escaped tail (some char) readFound
      exact ⟨next, by rw [if_neg simple, if_neg carriage, if_neg terminator, if_pos numeric, same]; rfl⟩
    · cases read
      refine ⟨some char, ?_⟩
      rw [if_neg simple, if_neg carriage, if_neg terminator, if_neg numeric, head_any_escaped tail _ (by decide),
        if_pos zero]
    · cases read
      refine ⟨some char, ?_⟩
      rw [if_neg simple, if_neg carriage, if_neg terminator, if_neg numeric, head_any_escaped tail _ (by decide),
        if_neg zero, if_neg digit]

theorem readString_escaped {quote : Char} {result : List ℕ × List Char}
    (isQuote : quote ≠ '$' ∧ quote ≠ '\\') (read : readString quote code = some result) :
    ∃ next, readString quote (escapeBrace tail previous code) =
      some (result.1, escapeBrace tail next result.2) := by
  fun_induction readString quote code generalizing previous result with
  | case1 => cases read
  | case2 rest =>
    cases read
    refine ⟨some quote, ?_⟩
    rw [escapePattern_of_ne isQuote.1, readString, if_pos rfl]
  | case3 rest value behind escape bound notQuote ih =>
    obtain ⟨found, readFound, rfl⟩ := map_eq_some_iff.mp read
    obtain ⟨middle, sameEscape⟩ := readEscape_escaped tail escape
    obtain ⟨next, same⟩ := ih middle readFound
    refine ⟨next, ?_⟩
    rw [escapePattern_of_ne (by decide), readString_backslash isQuote.2, sameEscape, bind_some, same]
    rfl
  | case4 => cases read
  | case5 => cases read
  | case6 char rest notQuote notBackslash notTerminator ih =>
    obtain ⟨found, readFound, rfl⟩ := map_eq_some_iff.mp read
    obtain ⟨next, same⟩ := ih (some char) readFound
    refine ⟨next, ?_⟩
    rcases escapePattern_cons tail previous char rest with plain | ⟨rfl, _, _, escaped⟩
    · rw [plain, readString, if_neg notQuote, if_neg notBackslash, if_neg notTerminator, same]
      rfl
    · -- The value of the escape `\\$` is the dollar sign.
      have dollar : ∀ behind, readEscape ('$' :: behind) = some ([36], behind) := fun _ => rfl
      rw [escaped, readString_backslash isQuote.2, dollar, bind_some, same]
      rfl

end Strings

section Lexemes

variable (tail : List Char) (previous : Option Char) {code text behind : List Char}

theorem lineComment_escaped (code : List Char) : ∃ next,
    (escapeBrace tail previous code).dropWhile (fun char => !isLineTerminator char) =
      escapeBrace tail next (code.dropWhile fun char => !isLineTerminator char) := by
  induction code generalizing previous with
  | nil => exact ⟨none, rfl⟩
  | cons char rest ih =>
    obtain ⟨next, same⟩ := ih (some char)
    by_cases ends : isLineTerminator char = true
    · have different : char ≠ '$' := by
        rintro rfl
        exact absurd ends (by decide)
      refine ⟨previous, ?_⟩
      rw [dropWhile_cons_of_neg (by simp [ends]), escapePattern_of_ne different,
        dropWhile_cons_of_neg (by simp [ends])]
    · refine ⟨next, ?_⟩
      rw [dropWhile_cons_of_pos (by simp [ends]), ← same]
      rcases escapePattern_cons tail previous char rest with plain | ⟨rfl, _, _, escaped⟩
      · rw [plain, dropWhile_cons_of_pos (by simp [ends])]
      · rw [escaped, dropWhile_cons_of_pos (by decide), dropWhile_cons_of_pos (by decide)]

theorem skipComment_escaped (skipped : skipComment code = some behind) : ∃ next,
    skipComment (escapeBrace tail previous code) =
      some (escapeBrace tail next behind) := by
  fun_induction skipComment code generalizing previous with
  | case1 => cases skipped
  | case2 char rest ends =>
    cases skipped
    obtain ⟨rfl, slash⟩ := ends
    have notDollar : rest.head? ≠ some '$' := by simp [slash]
    obtain ⟨next, tails⟩ := escapePattern_tail tail (some '*') notDollar
    refine ⟨next, ?_⟩
    rw [escapePattern_of_ne (by decide), skipComment, tails, escapePattern_head notDollar,
      if_pos ⟨rfl, slash⟩]
  | case3 char rest continues ih =>
    obtain ⟨next, same⟩ := ih (some char) skipped
    refine ⟨next, ?_⟩
    rcases escapePattern_cons tail previous char rest with plain | ⟨rfl, _, _, escaped⟩
    · rw [plain, skipComment, if_neg, same]
      rwa [escapePattern_head_iff (by decide) (by decide)]
    · rw [escaped, skipComment, if_neg (by simp), skipComment, if_neg (by simp), same]

def EndsWord (code : List Char) : Prop := ∀ char, code.head? = some char → isWordPart char = false

theorem EndsWord.head_ne_dollar (ends : EndsWord code) : code.head? ≠ some '$' := fun starts =>
  absurd (ends '$' starts) (by decide)

theorem EndsWord.escaped (ends : EndsWord code) : EndsWord (escapeBrace tail previous code) := by
  intro char starts
  rw [escapePattern_head ends.head_ne_dollar] at starts
  exact ends char starts

theorem endsWord_dropWhile (code : List Char) : EndsWord (code.dropWhile isWordPart) := by
  intro char starts
  have outside := head?_dropWhile_not isWordPart code
  rw [starts] at outside
  simpa using outside

variable (text) in
theorem takeWhile_endsWord (word : ∀ char ∈ text, isWordPart char = true) (ends : EndsWord behind) :
    (text ++ behind).takeWhile isWordPart = text ∧ (text ++ behind).dropWhile isWordPart = behind := by
  rw [takeWhile_append_of_pos word, dropWhile_append_of_pos word]
  cases behind with
  | nil => simp
  | cons char rest =>
    have outside := ends char rfl
    simp [outside]

/-- Where the pattern that starts with `${` stands in the text, a backslash stands before it. -/
def EscapedIn (tail text : List Char) : Prop :=
  ∀ before after, text = before ++ '$' :: '{' :: tail ++ after → before.getLast? = some '\\'

/-- The match of a pattern that starts in the text ends in it, since it goes on with a word at most. -/
theorem escaped_of_escapedIn (noSlash : '/' ∉ tail) (escaped : EscapedIn tail text)
    (noBrace : ∀ flags, flags <:+ text → '/' ∉ flags → '{' ∉ flags)
    (notLast : ¬(text.getLast? = some '$' ∧ behind.head? = some '{')) (before after : List Char)
    (split : text = before ++ '$' :: after) (starts : ('{' :: tail) <+: after ++ behind) :
    before.getLast? = some '\\' := by
  rcases prefix_or_prefix_of_prefix starts (prefix_append after behind) with ⟨more, rfl⟩ | ⟨more, part⟩
  · exact escaped before more (by simp [split])
  · cases after with
    | nil =>
      obtain ⟨rest, rfl⟩ := starts
      exact absurd ⟨by simp [split], rfl⟩ notLast
    | cons char after =>
      obtain ⟨rfl, rfl⟩ := List.cons.inj part
      have suffix : '{' :: after <:+ text := ⟨before ++ ['$'], by simp [split]⟩
      exact absurd mem_cons_self (noBrace _ suffix (by simp_all))

theorem escapedIn_of_not_mem (outside : '{' ∉ text) : EscapedIn tail text := by
  rintro before after rfl
  simp at outside

theorem operandToken_escaped {token : List Char → Token} {result : Option Token × List Char}
    (noSlash : '/' ∉ tail) (escaped : EscapedIn tail text)
    (noBrace : ∀ flags, flags <:+ text → '/' ∉ flags → '{' ∉ flags) (ends : EndsWord behind)
    (read : operandToken token text behind = some result) : ∃ next,
      escapeBrace tail previous (text ++ behind) =
        text ++ escapeBrace tail next behind ∧
      operandToken token text (escapeBrace tail next behind) =
        some (result.1, escapeBrace tail next result.2) := by
  unfold operandToken at read ⊢
  split at read
  · cases read
  · rename_i notLast
    cases read
    refine ⟨_, escapePattern_append fun before after split starts => ?_, ?_⟩
    · rw [escaped_of_escapedIn tail noSlash escaped noBrace notLast before after split starts]
      rfl
    · rw [escapePattern_head ends.head_ne_dollar, if_neg notLast]

theorem readRegularExpression_local {inClass : Bool} {result : List Char × List Char}
    (read : readRegularExpression inClass code = some result) :
    code = result.1 ++ result.2 ∧ EndsWord result.2 ∧ ∀ other, EndsWord other →
      readRegularExpression inClass (result.1 ++ other) = some (result.1, other) := by
  fun_induction readRegularExpression inClass code generalizing result with
  | case1 => cases read
  | case2 => cases read
  | case3 inClass next rest notTerminator ih =>
    obtain ⟨found, readFound, rfl⟩ := map_eq_some_iff.mp read
    obtain ⟨split, ends, others⟩ := ih readFound
    refine ⟨by simp [← split], ends, fun other endsOther => ?_⟩
    simp only [cons_append]
    rw [readRegularExpression, if_neg notTerminator, others other endsOther]
    rfl
  | case4 => cases read
  | case5 inClass char rest notEscape continues slash =>
    cases read
    refine ⟨by simp [slash.1], endsWord_dropWhile rest, fun other endsOther => ?_⟩
    have flags := takeWhile_endsWord (rest.takeWhile isWordPart)
      (fun char member => mem_takeWhile_imp member) endsOther
    simp only [cons_append]
    rw [readRegularExpression, if_neg continues, if_pos slash, flags.1, flags.2]
    exact fun next behind same _ => continues (.inr same)
  | case6 inClass char rest notEscape continues notSlash ih =>
    obtain ⟨found, readFound, rfl⟩ := map_eq_some_iff.mp read
    obtain ⟨split, ends, others⟩ := ih readFound
    refine ⟨by simp [← split], ends, fun other endsOther => ?_⟩
    simp only [cons_append]
    rw [readRegularExpression, if_neg continues, if_neg notSlash, others other endsOther]
    · rfl
    · exact fun next behind same _ => continues (.inr same)

theorem readRegularExpression_flags {inClass : Bool} {result : List Char × List Char}
    (read : readRegularExpression inClass code = some result) :
    ∃ body flags, result.1 = body ++ '/' :: flags ∧ '{' ∉ flags := by
  fun_induction readRegularExpression inClass code generalizing result with
  | case1 => cases read
  | case2 => cases read
  | case4 => cases read
  | case5 inClass char rest _ _ slash =>
    cases read
    exact ⟨[], _, by rw [slash.1]; rfl, fun member => absurd (mem_takeWhile_imp member) (by decide)⟩
  | case3 _ next _ _ ih =>
    obtain ⟨found, readFound, rfl⟩ := map_eq_some_iff.mp read
    obtain ⟨body, flags, split, noBrace⟩ := ih readFound
    exact ⟨'\\' :: next :: body, flags, by simp [split], noBrace⟩
  | case6 _ char _ _ _ _ ih =>
    obtain ⟨found, readFound, rfl⟩ := map_eq_some_iff.mp read
    obtain ⟨body, flags, split, noBrace⟩ := ih readFound
    exact ⟨char :: body, flags, by simp [split], noBrace⟩

theorem noBrace_of_flags {body flags last : List Char} (noBrace : '{' ∉ flags) (suffix : last <:+ body ++ '/' :: flags)
    (noSlash : '/' ∉ last) : '{' ∉ last := by
  rcases suffix_or_suffix_of_suffix suffix (suffix_append body _) with within | around
  · rcases suffix_cons_iff.mp within with rfl | inner
    · exact absurd mem_cons_self noSlash
    · exact fun member => noBrace (inner.subset member)
  · exact absurd (around.subset mem_cons_self) noSlash

theorem spanNumber_local (hex : Bool) (last : Char) (dot : Bool) (code : List Char) :
    code = (spanNumber hex last dot code).1 ++ (spanNumber hex last dot code).2 ∧
      '{' ∉ (spanNumber hex last dot code).1 ∧ EndsWord (spanNumber hex last dot code).2 ∧
      ∀ other, other.head? = (spanNumber hex last dot code).2.head? →
        spanNumber hex last dot ((spanNumber hex last dot code).1 ++ other) =
          ((spanNumber hex last dot code).1, other) := by
  fun_induction spanNumber hex last dot code with
  | case1 => simp [EndsWord, spanNumber]
  | case2 last dot char rest part read behind inner ih =>
    obtain ⟨split, noBrace, ends, others⟩ := ih
    rw [inner] at split noBrace ends others
    refine ⟨by simp [split], ?_, ends, fun other same => ?_⟩
    · have different : char ≠ '{' := by
        rintro rfl
        have outside : isWordPart '{' = false := by decide
        simp [outside] at part
      simpa [different.symm] using noBrace
    · simp only [cons_append]
      rw [spanNumber, if_pos part, others other same]
  | case3 last dot char rest stop =>
    refine ⟨rfl, by simp, fun first starts => ?_, fun other same => ?_⟩
    · have : first = char := by simpa using starts.symm
      subst this
      exact Bool.eq_false_iff.mpr fun part => stop (.inl part)
    · cases other with
      | nil => cases same
      | cons first after =>
        have : first = char := by simpa using same
        subst this
        simp only [nil_append]
        rw [spanNumber, if_neg stop]

theorem isPrefixOf_escaped {punctuator : List Char} (noDollar : '$' ∉ punctuator)
    (noBackslash : '\\' ∉ punctuator) (code : List Char) :
    punctuator.isPrefixOf (escapeBrace tail previous code) =
      punctuator.isPrefixOf code := by
  induction punctuator generalizing previous code with
  | nil => simp
  | cons first rest ih =>
    rw [mem_cons, not_or] at noDollar noBackslash
    cases code with
    | nil => rfl
    | cons char behind =>
      rcases escapePattern_cons tail previous char behind with plain | ⟨rfl, _, _, escaped⟩
      · rw [plain]
        rw [isPrefixOf_cons_cons, isPrefixOf_cons_cons, ih (some char) noDollar.2 noBackslash.2]
      · have notBackslash : (first == '\\') = false := beq_false_of_ne (Ne.symm noBackslash.1)
        have notDollar : (first == '$') = false := beq_false_of_ne (Ne.symm noDollar.1)
        rw [escaped, isPrefixOf_cons_cons, isPrefixOf_cons_cons, notBackslash, notDollar]
        rfl

theorem punctuators_plain : ∀ punctuator ∈ punctuators, '$' ∉ punctuator ∧ '\\' ∉ punctuator := by
  decide

theorem punctuator_escaped {result : List Char} (found : punctuators.find? (·.isPrefixOf code) = some result) :
    punctuators.find? (·.isPrefixOf (escapeBrace tail previous code)) = some result ∧
      ∃ next, (escapeBrace tail previous code).drop result.length =
        escapeBrace tail next (code.drop result.length) := by
  have plain := punctuators_plain result (mem_of_find?_eq_some found)
  constructor
  · rw [← found]
    refine find?_congr fun punctuator member => ?_
    have plain := punctuators_plain punctuator member
    exact isPrefixOf_escaped tail previous plain.1 plain.2 code
  · have starts := find?_some found
    rw [List.isPrefixOf_iff_prefix] at starts
    obtain ⟨behind, rfl⟩ := starts
    refine ⟨result.getLast?.or previous, ?_⟩
    rw [escapePattern_append, drop_left, drop_left]
    intro before after split
    exact absurd (split ▸ mem_append_right before mem_cons_self) plain.1

theorem lexeme_escaped {operand : Bool} {result : Option Token × List Char} (read : lexeme operand code = some result)
    (noSlash : '/' ∉ tail) (escaped : ∀ text, result.1 = some (.regularExpression text) → EscapedIn tail text) :
    ∃ next, lexeme operand (escapeBrace tail previous code) =
      some (result.1, escapeBrace tail next result.2) := by
  cases code with
  | nil => cases read
  | cons char rest =>
    -- The tests that look at the next character have the same result.
    have slash : ∀ previous, (escapeBrace tail previous rest).head? = some '/' ↔
        rest.head? = some '/' := fun _ => escapePattern_head_iff (by decide) (by decide)
    have star : ∀ previous, (escapeBrace tail previous rest).head? = some '*' ↔
        rest.head? = some '*' := fun _ => escapePattern_head_iff (by decide) (by decide)
    have digit : ∀ previous, (escapeBrace tail previous rest).head?.any isDigit =
        rest.head?.any isDigit := fun previous => head_any_escaped tail previous (by decide)
    have plain : char ≠ '$' → escapeBrace tail previous (char :: rest) =
        char :: escapeBrace tail (some char) rest := escapePattern_of_ne
    rw [lexeme] at read
    split_ifs at read with space quoted line block regular number word
    · cases read
      refine ⟨some char, ?_⟩
      rw [plain (by rintro rfl; exact absurd space (by decide)), lexeme, if_pos space]
    · obtain ⟨found, readFound, rfl⟩ := map_eq_some_iff.mp read
      have isQuote : char ≠ '$' ∧ char ≠ '\\' := by rcases quoted with rfl | rfl <;> decide
      obtain ⟨next, same⟩ := readString_escaped tail (some char) isQuote readFound
      refine ⟨next, ?_⟩
      rw [plain isQuote.1, lexeme, if_neg space, if_pos quoted, same]
      rfl
    · cases read
      obtain ⟨rfl, second⟩ := line
      obtain ⟨next, same⟩ := lineComment_escaped tail (some '/') rest
      refine ⟨next, ?_⟩
      rw [plain (by decide), lexeme, if_neg space, if_neg quoted, if_pos ⟨rfl, (slash _).mpr second⟩, same]
    · obtain ⟨found, skipped, rfl⟩ := map_eq_some_iff.mp read
      obtain ⟨rfl, second⟩ := block
      obtain ⟨middle, tails⟩ := escapePattern_tail tail (some '/') (by simp [second] : rest.head? ≠ some '$')
      obtain ⟨next, same⟩ := skipComment_escaped tail middle skipped
      refine ⟨next, ?_⟩
      rw [plain (by decide), lexeme, if_neg space, if_neg quoted, if_neg, if_pos ⟨rfl, (star _).mpr second⟩,
        tails, same]
      · rfl
      · exact fun both => line ⟨rfl, (slash _).mp both.2⟩
    · obtain ⟨⟨text, behind⟩, readText, token⟩ := bind_eq_some_iff.mp read
      obtain ⟨rfl, isOperand⟩ := regular
      obtain ⟨split, ends, others⟩ := readRegularExpression_local readText
      obtain ⟨body, flags, closed, noBrace⟩ := readRegularExpression_flags readText
      have inFlags : ∀ last, last <:+ '/' :: text → '/' ∉ last → '{' ∉ last := by
        intro last suffix
        rw [show text = body ++ '/' :: flags from closed, ← cons_append] at suffix
        exact noBrace_of_flags noBrace suffix
      obtain ⟨next, same, sameToken⟩ := operandToken_escaped tail previous noSlash
        (escaped _ (congrArg Prod.fst (operandToken_behind token))) inFlags ends token
      have sameRest : escapeBrace tail (some '/') rest =
          text ++ escapeBrace tail next behind := by
        rw [cons_append, ← split, plain (by decide)] at same
        exact (List.cons.inj same).2
      refine ⟨next, ?_⟩
      rw [plain (by decide), lexeme, if_neg space, if_neg quoted, if_neg, if_neg,
        if_pos ⟨rfl, isOperand⟩, sameRest, others _ (ends.escaped tail next)]
      · exact sameToken
      · exact fun both => block ⟨rfl, (star _).mp both.2⟩
      · exact fun both => line ⟨rfl, (slash _).mp both.2⟩
    · have different : char ≠ '$' := by
        rintro rfl
        rcases number with isNumber | ⟨isDot, _⟩
        · exact absurd isNumber (by decide)
        · exact absurd isDot (by decide)
      have hexFlag : ((escapeBrace tail (some char) rest).head?.any
          fun x => x = 'x' ∨ x = 'X') = rest.head?.any fun x => x = 'x' ∨ x = 'X' :=
        head_any_escaped tail _ (by decide)
      obtain ⟨split, noBrace, ends, others⟩ := spanNumber_local
        (char = '0' ∧ (rest.head?.any fun x => x = 'x' ∨ x = 'X')) char (char = '.') rest
      generalize spanNumber (char = '0' ∧ (rest.head?.any fun x => x = 'x' ∨ x = 'X')) char
        (char = '.') rest = span at *
      obtain ⟨text, behind⟩ := span
      have noBraceText : '{' ∉ char :: text := by
        intro member
        rcases mem_cons.mp member with rfl | inside
        · exact absurd number (by simp [show isDigit '{' = false by decide])
        · exact noBrace inside
      obtain ⟨next, same, sameToken⟩ := operandToken_escaped tail previous noSlash (escapedIn_of_not_mem tail noBraceText)
        (fun _ suffix _ member => noBraceText (suffix.subset member)) ends read
      have sameRest : escapeBrace tail (some char) rest =
          text ++ escapeBrace tail next behind := by
        rw [cons_append, ← split, plain different] at same
        exact (List.cons.inj same).2
      refine ⟨next, ?_⟩
      rw [plain different, lexeme, if_neg space, if_neg quoted, if_neg, if_neg, if_neg regular, if_pos,
        hexFlag, sameRest, others _ (escapePattern_head ends.head_ne_dollar)]
      · exact sameToken
      · rw [digit]
        exact number
      · exact fun both => block ⟨both.1, (star _).mp both.2⟩
      · exact fun both => line ⟨both.1, (slash _).mp both.2⟩
    · have whole : rest.takeWhile isWordPart ++ rest.dropWhile isWordPart = rest :=
        takeWhile_append_dropWhile
      have parts : ∀ part ∈ rest.takeWhile isWordPart, isWordPart part = true := fun _ =>
        mem_takeWhile_imp
      have noBraceText : '{' ∉ char :: rest.takeWhile isWordPart := by
        intro member
        rcases mem_cons.mp member with rfl | inside
        · exact absurd word (by decide)
        · exact absurd (parts '{' inside) (by decide)
      obtain ⟨next, same, sameToken⟩ := operandToken_escaped tail previous noSlash (escapedIn_of_not_mem tail noBraceText)
        (fun _ suffix _ member => noBraceText (suffix.subset member)) (endsWord_dropWhile rest) read
      have split := takeWhile_endsWord _ parts ((endsWord_dropWhile rest).escaped tail next)
      have notSlash : char ≠ '/' := by
        rintro rfl
        exact absurd word (by decide)
      have notDot : char ≠ '.' := by
        rintro rfl
        exact absurd word (by decide)
      refine ⟨next, ?_⟩
      rw [cons_append, whole] at same
      rw [same, cons_append, lexeme, if_neg space, if_neg quoted, if_neg fun both => notSlash both.1,
        if_neg fun both => notSlash both.1, if_neg fun both => notSlash both.1, if_neg, if_pos word,
        split.1, split.2]
      · exact sameToken
      · exact fun isNumber => number (.inl (isNumber.resolve_right fun both => notDot both.1))
    · obtain ⟨found, isFirst, rfl⟩ := map_eq_some_iff.mp read
      have different : char ≠ '$' := by
        rintro rfl
        exact absurd (by decide) word
      obtain ⟨same, next, sameRest⟩ := punctuator_escaped tail previous isFirst
      refine ⟨next, ?_⟩
      rw [plain different] at same sameRest ⊢
      rw [lexeme, if_neg space, if_neg quoted, if_neg, if_neg, if_neg regular, if_neg, if_neg word, same]
      · simp [sameRest]
      · rw [digit]
        exact number
      · exact fun both => block ⟨both.1, (star _).mp both.2⟩
      · exact fun both => line ⟨both.1, (slash _).mp both.2⟩

/-- No regular expression holds what is escaped in template literals, or only with a backslash before it. -/
def PlainRegularExpressions (list : List Token) : Prop :=
  ∀ text, .regularExpression text ∈ list → ∀ tail, '$' :: '{' :: tail ∈ templatePatterns → EscapedIn tail text

theorem lex_escaped {operand : Bool} {list : List Token} (read : lex operand code = some list) (noSlash : '/' ∉ tail)
    (escaped : ∀ text, .regularExpression text ∈ list → EscapedIn tail text) :
    lex operand (escapeBrace tail previous code) = some list := by
  fun_induction lex operand code generalizing previous list with
  | case1 operand =>
    cases read
    rw [escapeBrace, escapePattern, lex, if_pos rfl]
  | case2 => cases read
  | case3 operand code nonempty rest found shorter ih =>
    obtain ⟨next, same⟩ := lexeme_escaped tail previous found noSlash (by simp)
    rw [lex_of_lexeme same]
    exact ih next read escaped
  | case4 => cases read
  | case5 operand code nonempty token rest found shorter ih =>
    obtain ⟨tokens, readTokens, rfl⟩ := map_eq_some_iff.mp read
    obtain ⟨next, same⟩ := lexeme_escaped tail previous found noSlash fun text isRegular =>
      escaped text (by simp_all)
    rw [lex_of_lexeme same]
    simp only [ih next readTokens fun text member => escaped text (mem_cons_of_mem _ member), map_some]
  | case6 => cases read

end Lexemes

theorem escapeN8nVariablesInTemplateLiterals_tokens {code : List Char} {list : List Token}
    (read : tokens code = some list) (plain : PlainRegularExpressions list) :
    tokens (escapeN8nVariablesInTemplateLiterals code) = some list := by
  have starts : ∀ pattern ∈ templatePatterns, ∃ tail, pattern = '$' :: '{' :: tail := by
    intro pattern member
    rcases mem_append.mp member with variable_ | other
    · obtain ⟨name, _, rfl⟩ := List.mem_map.mp variable_
      exact ⟨_, rfl⟩
    · simp only [mem_cons, not_mem_nil, or_false] at other
      rcases other with rfl | rfl <;> exact ⟨_, rfl⟩
  have noSlash : ∀ pattern ∈ templatePatterns, '/' ∉ pattern := by decide
  unfold PlainRegularExpressions at plain
  unfold escapeN8nVariablesInTemplateLiterals
  generalize templatePatterns = patterns at starts noSlash plain
  induction patterns generalizing code with
  | nil => exact read
  | cons pattern rest ih =>
    obtain ⟨tail, rfl⟩ := starts pattern mem_cons_self
    have outside : '/' ∉ tail := fun member => noSlash _ mem_cons_self (by simp [member])
    refine ih (lex_escaped tail none read outside fun text member => plain text member tail mem_cons_self)
      (fun other member => starts other (mem_cons_of_mem _ member))
      (fun other member => noSlash other (mem_cons_of_mem _ member)) fun text member other listed => ?_
    exact plain text member other (mem_cons_of_mem _ listed)

/-- Code in which the scanners find nothing to repair keeps its tokens. -/
theorem executableCode_keeps_tokens (code : List Char) (list : List Token) (valid : tokens code = some list)
    (notDoubleEscaped : hasLiteralBackslashNOutsideStrings code = false)
    (unrepaired : repairsLiterals code = false) (plain : PlainRegularExpressions list) :
    tokens (executableCode code) = some list := by
  have unescaped : unescapeJsonEscapeSequences code = code := by
    simp [unescapeJsonEscapeSequences, notDoubleEscaped]
  rw [executableCode, unescaped, escapeN8nVariables, escapeNodeReferences_quiet unrepaired]
  exact escapeN8nVariablesInTemplateLiterals_tokens valid plain

/-- The apostrophe of the first comment is read as a quote up to the opening quote of the
string literal, whose text has nothing to repair. -/
theorem apostrophe_in_comment_keeps_tokens :
    let code := "/* don't */ export default '${$json.name}';".toList
    executableCode code = "/* don't */ export default '\\${$json.name}';".toList ∧
      tokens (executableCode code) = tokens code := by
  intro code
  have valid : tokens code = some [.word "export".toList, .word "default".toList,
      .string ("${$json.name}".toList.map Char.toNat), .punctuator [';']] := by decide +kernel
  refine ⟨by decide +kernel, ?_⟩
  rw [valid]
  exact executableCode_keeps_tokens code _ valid (by decide +kernel) (by decide +kernel) (by
    intro text member
    simp at member)

/-- The escape of the string literal behind such a comment is taken for code. -/
theorem apostrophe_in_comment_breaks_literal :
    let code := "// don't\nexport default 'a\\nb';".toList
    tokens code = some [.word "export".toList, .word "default".toList, .string [97, 10, 98], .punctuator [';']] ∧
      executableCode code = "// don't\nexport default 'a\nb';".toList ∧
      tokens (executableCode code) = none := by
  decide +kernel

end N8n.PreprocessTokens
