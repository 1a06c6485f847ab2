import Mathlib.Data.List.Basic
import Mathlib.Data.List.TakeWhile

/-! The tokens of JavaScript code without template literals. Escapes are read as in a
module, where octal escapes are errors. The value of a string literal is a list of
code points, and an escape that names half of a surrogate pair keeps its number. -/

namespace N8n.JsTokens

open List Option

inductive Token where
  | string (value : List ℕ)
  | regularExpression (text : List Char)
  | word (text : List Char)
  | punctuator (text : List Char)
  deriving DecidableEq

section Characters

def isLineTerminator (char : Char) : Bool :=
  char = '\n' ∨ char = '\r' ∨ char = '\u2028' ∨ char = '\u2029'

def isSpace (char : Char) : Bool :=
  isLineTerminator char ∨ char = ' ' ∨ char = '\t' ∨ char = '\x0b' ∨ char = '\x0c' ∨ char = '\u00a0' ∨ char = '\ufeff'

def isDigit (char : Char) : Bool := '0' ≤ char ∧ char ≤ '9'

/-- Part of an identifier or a keyword, escapes included. -/
def isWordPart (char : Char) : Bool :=
  isDigit char ∨ ('a' ≤ char ∧ char ≤ 'z') ∨ ('A' ≤ char ∧ char ≤ 'Z') ∨ char = '_' ∨ char = '$' ∨
    char = '\\' ∨ ('\x80' ≤ char ∧ ¬isSpace char)

def hexValue (char : Char) : Option ℕ :=
  if isDigit char then some (char.toNat - '0'.toNat)
  else if 'a' ≤ char ∧ char ≤ 'f' then some (char.toNat - 'a'.toNat + 10)
  else if 'A' ≤ char ∧ char ≤ 'F' then some (char.toNat - 'A'.toNat + 10)
  else none

end Characters

section Strings

/-- The digits of `\u{...}` up to the brace. -/
def readBraced (value : ℕ) : List Char → Option (ℕ × List Char)
  | [] => none
  | char :: rest =>
    if char = '}' then some (value, rest)
    else
      match hexValue char with
      | some digit => if value * 16 + digit ≤ 0x10ffff then readBraced (value * 16 + digit) rest else none
      | none => none

/-- Exactly `count` hexadecimal digits. -/
def readHex (value : ℕ) : (count : ℕ) → List Char → Option (ℕ × List Char)
  | 0, rest => some (value, rest)
  | _ + 1, [] => none
  | count + 1, char :: rest =>
    match hexValue char with
    | some digit => readHex (value * 16 + digit) count rest
    | none => none

/-- The digits of an escape that starts with `x` or `u`. -/
def readCodePoint (char : Char) (rest : List Char) : Option (ℕ × List Char) :=
  if char = 'x' then readHex 0 2 rest
  else if rest.head? = some '{' ∧ rest.tail.head? ≠ some '}' then readBraced 0 rest.tail
  else readHex 0 4 rest

/-- A carriage return and a line feed end one line. -/
def dropLineFeed : List Char → List Char
  | [] => []
  | char :: rest => if char = '\n' then rest else char :: rest

def simpleEscape (char : Char) : Option ℕ :=
  [('n', 10), ('t', 9), ('b', 8), ('v', 11), ('f', 12), ('r', 13)].lookup char

/-- An escape sequence behind its backslash; a line continuation has no value. -/
def readEscape : List Char → Option (List ℕ × List Char)
  | [] => none
  | char :: rest =>
    if (simpleEscape char).isSome then some ((simpleEscape char).toList, rest)
    else if char = '\r' then some ([], dropLineFeed rest)
    else if isLineTerminator char then some ([], rest)
    else if char = 'x' ∨ char = 'u' then
      (readCodePoint char rest).map fun (value, behind) => ([value], behind)
    else if char = '0' ∧ ¬rest.head?.any isDigit then some ([0], rest)
    else if isDigit char then none
    else some ([char.toNat], rest)

variable {code : List Char} {result : ℕ × List Char} {value : ℕ} {quote : Char}

theorem readBraced_length (read : readBraced value code = some result) : result.2.length < code.length := by
  fun_induction readBraced value code <;> grind

theorem readHex_length {count : ℕ} (read : readHex value count code = some result) : result.2.length ≤ code.length := by
  fun_induction readHex value count code <;> grind

theorem readCodePoint_length {char : Char}
    (read : readCodePoint char code = some result) : result.2.length ≤ code.length := by
  unfold readCodePoint at read
  split_ifs at read
  · exact readHex_length read
  · have shorter := readBraced_length read
    have tail := code.length_tail
    omega
  · exact readHex_length read

theorem dropLineFeed_length (code : List Char) : (dropLineFeed code).length ≤ code.length := by
  fun_cases dropLineFeed code <;> simp

theorem readEscape_length {result : List ℕ × List Char}
    (read : readEscape code = some result) : result.2.length < code.length := by
  cases code with
  | nil => simp [readEscape] at read
  | cons char rest =>
    simp only [readEscape] at read
    split_ifs at read with simple carriage terminator numeric zero digit
    · grind
    · cases read
      have := dropLineFeed_length rest
      simpa [Nat.lt_succ_iff] using this
    · grind
    · obtain ⟨found, readFound, rfl⟩ := map_eq_some_iff.mp read
      have bound := readCodePoint_length readFound
      simpa [Nat.lt_succ_iff] using bound
    · grind
    · grind

def readString (quote : Char) : (code : List Char) → Option (List ℕ × List Char)
  | [] => none
  | char :: rest =>
    if char = quote then some ([], rest)
    else if char = '\\' then
      match escape : readEscape rest with
      | some (value, behind) =>
        have : behind.length < rest.length := readEscape_length escape
        (readString quote behind).map fun (values, after) => (value ++ values, after)
      | none => none
    else if char = '\n' ∨ char = '\r' then none
    else (readString quote rest).map fun (values, after) => (char.toNat :: values, after)
termination_by code => code.length

theorem readString_backslash (different : quote ≠ '\\') (rest : List Char) :
    readString quote ('\\' :: rest) = (readEscape rest).bind fun escape =>
      (readString quote escape.2).map fun found => (escape.1 ++ found.1, found.2) := by
  rw [readString, if_neg (Ne.symm different), if_pos rfl]
  split
  · rename_i value behind escape
    simp [escape]
  · rename_i escape
    simp [escape]

theorem readString_length {result : List ℕ × List Char} (read : readString quote code = some result) :
    result.2.length < code.length := by
  fun_induction readString quote code generalizing result with
  | case1 => cases read
  | case2 rest => grind
  | case3 rest _ value behind escape bound ih =>
    obtain ⟨values, readValues, rfl⟩ := map_eq_some_iff.mp read
    have := ih readValues
    simp only [length_cons]
    omega
  | case4 => cases read
  | case5 => cases read
  | case6 char rest _ _ _ ih =>
    obtain ⟨values, readValues, rfl⟩ := map_eq_some_iff.mp read
    have := ih readValues
    simp only [length_cons]
    omega

end Strings

section Lexemes

/-- The body and the flags of a regular expression behind its opening slash. -/
def readRegularExpression (inClass : Bool) : List Char → Option (List Char × List Char)
  | [] => none
  | '\\' :: next :: rest =>
    if isLineTerminator next then none
    else (readRegularExpression inClass rest).map fun (text, behind) => ('\\' :: next :: text, behind)
  | char :: rest =>
    if isLineTerminator char ∨ char = '\\' then none
    else if char = '/' ∧ ¬inClass then
      some (char :: rest.takeWhile isWordPart, rest.dropWhile isWordPart)
    else
      (readRegularExpression (if char = '[' then true else if char = ']' then false else inClass)
        rest).map fun (text, behind) => (char :: text, behind)

/-- Past the end of a block comment. -/
def skipComment : List Char → Option (List Char)
  | [] => none
  | char :: rest =>
    if char = '*' ∧ rest.head? = some '/' then some rest.tail else skipComment rest

def spanNumber (hex : Bool) (previous : Char) (dot : Bool) : List Char → List Char × List Char
  | [] => ([], [])
  | char :: rest =>
    if isWordPart char ∨ char = '.' ∧ ¬dot ∨ (char = '+' ∨ char = '-') ∧ (previous = 'e' ∨ previous = 'E') ∧ ¬hex then
      let (read, behind) := spanNumber hex char (dot || char = '.') rest
      (char :: read, behind)
    else ([], char :: rest)

def punctuators : List (List Char) :=
  [">>>=", "...", "===", "!==", "**=", "<<=", ">>=", ">>>", "&&=", "||=", "??=", "=>", "==", "!=",
    "<=", ">=", "&&", "||", "??", "?.", "++", "--", "+=", "-=", "*=", "/=", "%=", "&=", "|=", "^=",
    "<<", ">>", "**", "\x7b", "\x7d", "(", ")", "[", "]", ";", ",", "<", ">", "+", "-", "*", "/", "%",
    "&", "|", "^", "!", "~", "?", ":", "=", ".", "@", "#"].map String.toList

def operandWords : List (List Char) :=
  ["default", "typeof", "void", "return", "in", "instanceof", "new", "delete", "throw", "case", "do",
    "else", "await", "yield"].map String.toList

def Token.startsOperand : Token → Bool
  | .string _ => false
  | .regularExpression _ => false
  | .word text => text ∈ operandWords
  | .punctuator text => text ∉ [[')'], [']'], ['}']]

/-- Only a keyword of SDK code is directly followed by a brace, so `${` is not code. -/
def operandToken (token : List Char → Token) (text behind : List Char) : Option (Option Token × List Char) :=
  if text.getLast? = some '$' ∧ behind.head? = some '{' then none else some (some (token text), behind)

def lexeme (operand : Bool) : List Char → Option (Option Token × List Char)
  | [] => none
  | char :: rest =>
    if isSpace char then some (none, rest)
    else if char = '\'' ∨ char = '"' then
      (readString char rest).map fun (value, behind) => (some (.string value), behind)
    else if char = '/' ∧ rest.head? = some '/' then
      some (none, rest.dropWhile fun next => !isLineTerminator next)
    else if char = '/' ∧ rest.head? = some '*' then
      (skipComment rest.tail).map fun behind => (none, behind)
    else if char = '/' ∧ operand then
      (readRegularExpression false rest).bind fun (text, behind) =>
        operandToken .regularExpression (char :: text) behind
    else if isDigit char ∨ char = '.' ∧ rest.head?.any isDigit then
      let (text, behind) := spanNumber (char = '0' ∧ (rest.head?.any fun x => x = 'x' ∨ x = 'X')) char (char = '.') rest
      operandToken .word (char :: text) behind
    else if isWordPart char then
      operandToken .word (char :: rest.takeWhile isWordPart) (rest.dropWhile isWordPart)
    else
      (punctuators.find? (·.isPrefixOf (char :: rest))).map fun text =>
        (some (.punctuator text), (char :: rest).drop text.length)

variable {code : List Char} {behind : List Char} {operand : Bool}

theorem readRegularExpression_length {inClass : Bool}
    {result : List Char × List Char} (read : readRegularExpression inClass code = some result) :
    result.2.length < code.length := by
  fun_induction readRegularExpression inClass code generalizing result with
  | case1 => cases read
  | case2 => cases read
  | case3 inClass next rest notTerminator ih =>
    obtain ⟨found, readFound, rfl⟩ := map_eq_some_iff.mp read
    have := ih readFound
    simp only [length_cons]
    omega
  | case4 => cases read
  | case5 inClass char rest notEscape continues slash =>
    cases read
    have := (dropWhile_suffix isWordPart (l := rest)).length_le
    simp only [length_cons]
    omega
  | case6 inClass char rest notEscape continues notSlash ih =>
    obtain ⟨found, readFound, rfl⟩ := map_eq_some_iff.mp read
    have := ih readFound
    simp only [length_cons]
    omega

theorem skipComment_length (skipped : skipComment code = some behind) : behind.length < code.length := by
  fun_induction skipComment code <;> grind

theorem spanNumber_length (hex : Bool) (previous : Char) (dot : Bool) (code : List Char) :
    (spanNumber hex previous dot code).2.length ≤ code.length := by
  fun_induction spanNumber hex previous dot code <;> grind

variable {result : Option Token × List Char}

theorem operandToken_behind {token : List Char → Token} {text : List Char}
    (read : operandToken token text behind = some result) : result = (some (token text), behind) := by
  unfold operandToken at read
  split at read
  · cases read
  · exact (some.inj read).symm

theorem punctuators_nonempty : ∀ punctuator ∈ punctuators, punctuator ≠ [] := by
  decide

theorem lexeme_length (read : lexeme operand code = some result) : result.2.length < code.length := by
  cases code with
  | nil => cases read
  | cons char rest =>
    rw [lexeme] at read
    split_ifs at read with space quoted line block regular number word
    · grind
    · obtain ⟨found, readFound, rfl⟩ := map_eq_some_iff.mp read
      exact Nat.lt_succ_of_lt (readString_length readFound)
    · cases read
      have := (dropWhile_suffix (fun next => !isLineTerminator next) (l := rest)).length_le
      exact Nat.lt_succ_of_le this
    · obtain ⟨found, skipped, rfl⟩ := map_eq_some_iff.mp read
      have shorter := skipComment_length skipped
      have tail := rest.length_tail
      simp only [length_cons]
      omega
    · obtain ⟨found, readFound, token⟩ := bind_eq_some_iff.mp read
      rw [operandToken_behind token]
      exact Nat.lt_succ_of_lt (readRegularExpression_length readFound)
    · rw [operandToken_behind read]
      exact Nat.lt_succ_of_le (spanNumber_length ..)
    · rw [operandToken_behind read]
      exact Nat.lt_succ_of_le (dropWhile_suffix isWordPart (l := rest)).length_le
    · obtain ⟨found, isFirst, rfl⟩ := map_eq_some_iff.mp read
      have := length_pos_iff.mpr (punctuators_nonempty found (mem_of_find?_eq_some isFirst))
      simp only [length_drop, length_cons]
      omega

def lex (operand : Bool) (code : List Char) : Option (List Token) :=
  if code = [] then some []
  else
    match lexeme operand code with
    | none => none
    | some (none, rest) => if rest.length < code.length then lex operand rest else none
    | some (some token, rest) =>
      if rest.length < code.length then (lex token.startsOperand rest).map (token :: ·) else none
termination_by code.length

theorem lex_of_lexeme (read : lexeme operand code = some result) : lex operand code =
      match result.1 with
      | none => lex operand result.2
      | some token => (lex token.startsOperand result.2).map (token :: ·) := by
  have shorter := lexeme_length read
  have nonempty : code ≠ [] := by
    rintro rfl
    cases read
  rw [lex, if_neg nonempty, read]
  obtain ⟨token, rest⟩ := result
  cases token with
  | none => exact if_pos shorter
  | some token => exact if_pos shorter

def tokens (code : List Char) : Option (List Token) := lex true code

end Lexemes

end N8n.JsTokens
