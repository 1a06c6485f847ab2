import N8n.FormatValue
import N8n.PreprocessTokens

/-! The text of a value is a sequence of pieces, each of them one token or a space. The
scanners of the preprocessing pass over it and leave it alone, unless a quoted text ends
in what they take for the start of a node reference, and the lexer reads it piece by
piece. -/

namespace N8n.FormatValue

open PreprocessCode PreprocessTokens JsTokens Sdk
open List hiding lex

theorem forall_mem_of_all {α : Type} {list : List α} {property : α → Prop} [DecidablePred property]
    (all : list.all (fun item => decide (property item)) = true) : ∀ item ∈ list, property item := by
  simpa using all

section Escapes

def escapeChar (char : Char) : List Char :=
  if char = '\\' then ['\\', '\\']
  else if char = '\'' then ['\\', '\'']
  else if char = '\u2018' then ['\\', 'u', '2', '0', '1', '8']
  else if char = '\u2019' then ['\\', 'u', '2', '0', '1', '9']
  else if char = '\u201c' then ['\\', 'u', '2', '0', '1', 'C']
  else if char = '\u201d' then ['\\', 'u', '2', '0', '1', 'D']
  else if char = '\n' then ['\\', 'n']
  else if char = '\r' then ['\\', 'r']
  else [char]

/-- A character stands for itself or is escaped, and only a backslash by a second one. -/
theorem escapeChar_cases (char : Char) : (char ≠ '\\' ∧ char ≠ '\'' ∧ escapeChar char = [char]) ∨
    ∃ next code, escapeChar char = '\\' :: next :: code ∧ (next = '\\' → char = '\\' ∧ code = []) := by
  unfold escapeChar
  by_cases backslash : char = '\\'
  · rw [if_pos backslash]
    exact .inr ⟨'\\', [], rfl, fun _ => ⟨backslash, rfl⟩⟩
  by_cases quote : char = '\''
  · rw [if_neg backslash, if_pos quote]
    exact .inr ⟨_, _, rfl, fun same => absurd same (by decide)⟩
  rw [if_neg backslash, if_neg quote]
  iterate 6
    split
    next => exact .inr ⟨_, _, rfl, fun same => absurd same (by decide)⟩
  exact .inl ⟨backslash, quote, rfl⟩

theorem replaceAll_append (char : Char) (replacement : String) (text more : List Char) :
    replaceAll char replacement (text ++ more) =
      replaceAll char replacement text ++ replaceAll char replacement more := by
  simp [replaceAll]

theorem escapeString_append (text more : List Char) :
    escapeString (text ++ more) = escapeString text ++ escapeString more := by
  unfold escapeString
  generalize [('\\', _), _, _, _, _, _, _, _] = table
  induction table generalizing text more with
  | nil => rfl
  | cons entry rest ih => rw [foldl_cons, replaceAll_append, ih, foldl_cons, foldl_cons]

theorem escapeString_char (char : Char) : escapeString [char] = escapeChar char := by
  unfold escapeChar
  split_ifs with backslash quote left right opening closing feed carriage
  all_goals try subst_vars
  · rfl
  · rfl
  · rfl
  · rfl
  · rfl
  · rfl
  · rfl
  · rfl
  · simp only [escapeString, replaceAll, foldl_cons, foldl_nil, flatMap_cons,
      flatMap_nil, append_nil, backslash, quote, left, right, opening, closing, feed, carriage,
      if_false]

theorem escapeString_cons (char : Char) (text : List Char) :
    escapeString (char :: text) = escapeChar char ++ escapeString text := by
  rw [← escapeString_char, ← escapeString_append]
  rfl

@[simp] theorem escapeString_nil : escapeString [] = [] := rfl

theorem readString_escaped_char (char : Char) (rest : List Char) : readString '\'' (escapeChar char ++ rest) =
      (readString '\'' rest).map fun found => (char.toNat :: found.1, found.2) := by
  unfold escapeChar
  split_ifs with backslash quote left right opening closing feed carriage
  all_goals try subst_vars
  all_goals try rw [cons_append, readString_backslash (by decide)]
  · rfl
  · rfl
  · rfl
  · rfl
  · rfl
  · rfl
  · rfl
  · rfl
  · rw [cons_append, nil_append, readString, if_neg quote, if_neg backslash, if_neg]
    simp [feed, carriage]

theorem readString_escapeString (text rest : List Char) :
    readString '\'' (escapeString text ++ '\'' :: rest) = some (text.map Char.toNat, rest) := by
  induction text with
  | nil => rw [escapeString_nil, nil_append, readString, if_pos rfl, map_nil]
  | cons char text ih =>
    rw [escapeString_cons, append_assoc, readString_escaped_char, ih]
    rfl

theorem sliceString_escaped_char (char : Char) (rest : List Char) : sliceString '\'' (escapeChar char ++ rest) =
      (escapeChar char ++ (sliceString '\'' rest).1, (sliceString '\'' rest).2) := by
  unfold escapeChar
  split_ifs with backslash quote left right opening closing feed carriage
  all_goals simp [sliceString, *]

theorem sliceString_escapeString (text rest : List Char) :
    sliceString '\'' (escapeString text ++ '\'' :: rest) = (escapeString text ++ ['\''], rest) := by
  induction text with
  | nil => simp [sliceString]
  | cons char text ih => rw [escapeString_cons, append_assoc, sliceString_escaped_char, ih, append_assoc]

end Escapes

section Repairs

def Dangling (text : List Char) : Prop := ['$', '('] <:+ text ∨ ['$', '(', '\\'] <:+ text

instance (text : List Char) : Decidable (Dangling text) :=
  inferInstanceAs (Decidable (_ ∨ _))

variable {char : Char}

theorem repairsString_plain (backslash : char ≠ '\\') (dollar : char ≠ '$')
    (quote : char ≠ '\'') (prevChar : Option Char) (rest : List Char) :
    repairsString prevChar (char :: rest) = repairsString (some char) rest := by
  rw [repairsString.eq_def]
  split <;> simp_all

theorem repairsString_escape (prevChar : Option Char) (next : Char) (rest : List Char) :
    repairsString prevChar ('\\' :: next :: rest) = repairsString (some next) rest := by
  rw [repairsString]

variable {text rest : List Char} {more : List Char}

theorem escapeString_head (quote : (escapeString text ++ '\'' :: rest).head? = some '\'') : text = [] := by
  cases text with
  | nil => rfl
  | cons char text =>
    rw [escapeString_cons] at quote
    rcases escapeChar_cases char with ⟨_, noQuote, same⟩ | ⟨next, code, same, _⟩
    · rw [same] at quote
      exact absurd (Option.some.inj quote) noQuote
    · rw [same] at quote
      exact absurd (Option.some.inj quote) (by decide)

theorem repairsString_escaped_char (dollar : char ≠ '$') (prevChar : Option Char)
    (rest : List Char) : ∃ next, repairsString prevChar (escapeChar char ++ rest) = repairsString (some next) rest := by
  unfold escapeChar
  split_ifs with backslash quote left right opening closing feed carriage
  case neg => exact ⟨char, repairsString_plain backslash dollar quote prevChar rest⟩
  all_goals
    simp only [cons_append, nil_append, repairsString_escape]
    try rw [repairsString_plain (by decide) (by decide) (by decide),
      repairsString_plain (by decide) (by decide) (by decide),
      repairsString_plain (by decide) (by decide) (by decide),
      repairsString_plain (by decide) (by decide) (by decide)]
    exact ⟨_, rfl⟩

/-- A dollar sign is followed by another character, or by what no node reference starts with. -/
theorem repairsString_dollar (single : ∀ more, rest ≠ '(' :: '\'' :: more)
    (double : ∀ more, rest ≠ '(' :: '\\' :: '\\' :: '\'' :: more) (prevChar : Option Char) :
    repairsString prevChar ('$' :: rest) = repairsString (some '$') rest := by
  rw [repairsString.eq_def]
  split <;> grind

theorem escapeString_starts (backslash : char ≠ '\\') (quote : char ≠ '\'')
    (same : escapeString text ++ '\'' :: rest = char :: more) :
    ∃ tail, text = char :: tail ∧ escapeString tail ++ '\'' :: rest = more := by
  cases text with
  | nil =>
    obtain ⟨rfl, _⟩ := List.cons.inj same
    exact absurd rfl quote
  | cons first tail =>
    rw [escapeString_cons, append_assoc] at same
    rcases escapeChar_cases first with ⟨_, _, plain⟩ | ⟨next, code, escaped, _⟩
    · rw [plain, singleton_append] at same
      obtain ⟨isFirst, behind⟩ := List.cons.inj same
      exact ⟨tail, congrArg (· :: tail) isFirst, behind⟩
    · rw [escaped, cons_append, cons_append] at same
      exact absurd (List.cons.inj same).1.symm backslash

theorem escapeString_backslashes (same : escapeString text ++ '\'' :: rest = '\\' :: '\\' :: more) :
    ∃ tail, text = '\\' :: tail ∧ escapeString tail ++ '\'' :: rest = more := by
  cases text with
  | nil => simp at same
  | cons first tail =>
    rw [escapeString_cons, append_assoc] at same
    rcases escapeChar_cases first with ⟨noBackslash, _, plain⟩ | ⟨next, code, escaped, alone⟩
    · rw [plain, singleton_append] at same
      exact absurd (List.cons.inj same).1 noBackslash
    · rw [escaped, cons_append, cons_append] at same
      obtain ⟨isNext, behind⟩ := List.cons.inj (List.cons.inj same).2
      obtain ⟨rfl, rfl⟩ := alone isNext
      rw [nil_append] at behind
      exact ⟨tail, rfl, behind⟩

theorem repairsString_escapeString (steady : ¬Dangling text)
    (behind : rest.head?.any isLowercase = false) (prevChar : Option Char) :
    repairsString prevChar (escapeString text ++ '\'' :: rest) = false := by
  induction text generalizing prevChar with
  | nil => simp [repairsString, isContraction, behind]
  | cons char text ih =>
    have steadyTail : ¬Dangling text := fun dangling =>
      steady (dangling.imp (·.trans (suffix_cons _ _)) (·.trans (suffix_cons _ _)))
    rw [escapeString_cons, append_assoc]
    by_cases dollar : char = '$'
    · subst dollar
      have single : ∀ more, escapeString text ++ '\'' :: rest ≠ '(' :: '\'' :: more := by
        intro more same
        obtain ⟨tail, rfl, quote⟩ := escapeString_starts (by decide) (by decide) same
        rw [escapeString_head (congrArg List.head? quote)] at steady
        exact steady (.inl (suffix_refl _))
      have double : ∀ more, escapeString text ++ '\'' :: rest ≠ '(' :: '\\' :: '\\' :: '\'' :: more := by
        intro more same
        obtain ⟨tail, rfl, backslashes⟩ := escapeString_starts (by decide) (by decide) same
        obtain ⟨last, rfl, quote⟩ := escapeString_backslashes backslashes
        rw [escapeString_head (congrArg List.head? quote)] at steady
        exact steady (.inr (suffix_refl _))
      have plain : escapeChar '$' = ['$'] := rfl
      rw [plain, singleton_append, repairsString_dollar single double]
      exact ih steadyTail _
    · obtain ⟨next, same⟩ := repairsString_escaped_char dollar prevChar (escapeString text ++ '\'' :: rest)
      exact same.trans (ih steadyTail _)

end Repairs

section Pieces

structure DecimalText (text : List Char) : Prop where
  starts : text.head?.any isDigit
  chars : ∀ char ∈ text, isDigit char ∨ char ∈ ['.', 'e', '+', '-']
  whole : spanNumber false (text.head?.getD '0') false text.tail = (text.tail, [])

structure IdentifierText (text : List Char) : Prop where
  starts : text.head?.any isIdentifierStart
  parts : ∀ char ∈ text, isIdentifierPart char

inductive Piece where
  | space
  | mark (char : Char)
  | word (text : List Char)
  | quoted (text : List Char)

def Piece.text : Piece → List Char
  | .space => [' ']
  | .mark char => [char]
  | .word text => text
  | .quoted text => '\'' :: escapeString text ++ ['\'']

def Piece.token : Piece → Option Token
  | .space => none
  | .mark char => some (.punctuator [char])
  | .word text => some (.word text)
  | .quoted text => some (.string (text.map Char.toNat))

def brackets : List Char := ['{', '}', '(', ')', '[', ']', ',', ':', ';']

/-- What a word is directly followed by. -/
def EndsPiece (behind : List Char) : Prop := ∃ char ∈ [' ', ',', ':', '(', ']', '}', ';'], behind.head? = some char

/-- The piece is read as such in front of the given text. -/
def Piece.Stands (behind : List Char) : Piece → Prop
  | .space => True
  | .mark char => char ∈ brackets ∨ char = '-' ∧ behind.head?.any isDigit
  | .word text => (DecimalText text ∨ IdentifierText text) ∧ EndsPiece behind
  | .quoted text => ¬Dangling text ∧ behind.head?.any isLowercase = false

def textOf (pieces : List Piece) : List Char := pieces.flatMap Piece.text

def tokensOf (pieces : List Piece) : List Token := pieces.filterMap Piece.token

def Legible : List Piece → List Char → Prop
  | [], _ => True
  | piece :: rest, behind => piece.Stands (textOf rest ++ behind) ∧ Legible rest behind

variable {behind : List Char}

theorem legible_append {first second : List Piece} :
    Legible (first ++ second) behind ↔ Legible first (textOf second ++ behind) ∧ Legible second behind := by
  induction first with
  | nil => simp [Legible]
  | cons piece rest ih => simp [Legible, ih, textOf, and_assoc]

def Inert (char : Char) : Prop := char ≠ '"' ∧ char ≠ '\'' ∧ char ≠ '`' ∧ char ≠ '\\'

variable {char : Char} {piece : Piece}

theorem inert_of_identifierPart (part : isIdentifierPart char = true) : Inert char := by
  refine ⟨?_, ?_, ?_, ?_⟩
  all_goals
    rintro rfl
    revert part
    decide

theorem inert_of_decimal (decimal : isDigit char = true ∨ char ∈ ['.', 'e', '+', '-']) : Inert char := by
  refine ⟨?_, ?_, ?_, ?_⟩
  all_goals
    rintro rfl
    revert decimal
    decide

theorem inert_of_bracket (bracket : char ∈ brackets) : Inert char := by
  refine ⟨?_, ?_, ?_, ?_⟩
  all_goals
    rintro rfl
    revert bracket
    decide

theorem Piece.Stands.inert (stands : piece.Stands behind) :
    (∃ text, piece = .quoted text) ∨ ∀ char ∈ piece.text, Inert char := by
  cases piece with
  | quoted text => exact .inl ⟨text, rfl⟩
  | space => exact .inr (by simp [Piece.text, Inert])
  | mark char =>
    refine .inr fun other member => ?_
    rw [List.mem_singleton.mp member]
    rcases stands with bracket | ⟨rfl, _⟩
    · exact inert_of_bracket bracket
    · simp [Inert]
  | word text =>
    refine .inr fun char member => ?_
    rcases stands.1 with decimal | identifier
    · exact inert_of_decimal (decimal.chars char member)
    · exact inert_of_identifierPart (identifier.parts char member)

variable {text : List Char}

theorem hasLiteralBackslashN_inert (inert : ∀ char ∈ text, Inert char)
    (behind : List Char) : hasLiteralBackslashNOutsideStrings (text ++ behind) =
      hasLiteralBackslashNOutsideStrings behind := by
  induction text with
  | nil => rfl
  | cons char rest ih =>
    simp only [forall_mem_cons] at inert
    obtain ⟨⟨double, single, backtick, backslash⟩, restInert⟩ := inert
    rw [cons_append, hasLiteralBackslashNOutsideStrings.eq_def]
    split
    all_goals simp_all

theorem repairsLiterals_inert (inert : ∀ char ∈ text, Inert char)
    (behind : List Char) : repairsLiterals (text ++ behind) = repairsLiterals behind := by
  induction text with
  | nil => rfl
  | cons char rest ih =>
    simp only [forall_mem_cons] at inert
    obtain ⟨⟨double, single, backtick, backslash⟩, restInert⟩ := inert
    rw [cons_append, repairsLiterals.eq_def]
    split
    all_goals simp_all

variable {pieces : List Piece}

theorem legible_quiet (legible : Legible pieces behind) :
    hasLiteralBackslashNOutsideStrings (textOf pieces ++ behind) = hasLiteralBackslashNOutsideStrings behind ∧
      repairsLiterals (textOf pieces ++ behind) = repairsLiterals behind := by
  induction pieces with
  | nil => exact ⟨rfl, rfl⟩
  | cons piece rest ih =>
    obtain ⟨stands, legibleRest⟩ := legible
    have later := ih legibleRest
    have text : textOf (piece :: rest) ++ behind = piece.text ++ (textOf rest ++ behind) := by simp [textOf]
    rw [text]
    rcases stands.inert with ⟨quoted, rfl⟩ | inert
    · obtain ⟨steady, next⟩ := stands
      have literal : (Piece.quoted quoted).text ++ (textOf rest ++ behind) =
          '\'' :: (escapeString quoted ++ '\'' :: (textOf rest ++ behind)) := by simp [Piece.text]
      rw [literal, hasLiteralBackslashNOutsideStrings, repairsLiterals, sliceString_escapeString,
        repairsString_escapeString steady next]
      simpa using later
    · rw [hasLiteralBackslashN_inert inert, repairsLiterals_inert inert]
      exact later

theorem EndsPiece.endsWord (ends : EndsPiece behind) : EndsWord behind := by
  obtain ⟨char, member, starts⟩ := ends
  intro other same
  have outside : ∀ char ∈ [' ', ',', ':', '(', ']', '}', ';'], isWordPart char = false := forall_mem_of_all (by decide)
  rw [starts] at same
  cases same
  exact outside char member

theorem lexeme_bracket (operand : Bool) (bracket : char ∈ brackets) (behind : List Char) :
    lexeme operand (char :: behind) = some (some (.punctuator [char]), behind) := by
  simp only [brackets, mem_cons, not_mem_nil, or_false] at bracket
  rcases bracket with rfl | rfl | rfl | rfl | rfl | rfl | rfl | rfl | rfl
  all_goals
    simp [lexeme, isSpace, isLineTerminator, isDigit, isWordPart, punctuators, List.isPrefixOf]

theorem lexeme_minus (operand : Bool) (digit : behind.head?.any isDigit = true) :
    lexeme operand ('-' :: behind) = some (some (.punctuator ['-']), behind) := by
  cases behind with
  | nil => simp at digit
  | cons char rest =>
    have notMinus : '-' ≠ char := by
      rintro rfl
      simp [isDigit] at digit
    have notEqual : '=' ≠ char := by
      rintro rfl
      simp [isDigit] at digit
    simp [lexeme, isSpace, isLineTerminator, isDigit, isWordPart, punctuators, List.isPrefixOf, notMinus, notEqual]

theorem start_not_digit (first : isIdentifierStart char = true) : isDigit char = false := by
  rw [Bool.eq_false_iff]
  intro digit
  simp only [isDigit, isIdentifierStart, decide_eq_true_eq] at first digit
  rcases first with ⟨low, _⟩ | ⟨low, _⟩ | rfl | rfl
  · exact absurd (Char.le_trans low digit.2) (by decide)
  · exact absurd (Char.le_trans low digit.2) (by decide)
  · exact absurd digit (by decide)
  · exact absurd digit (by decide)

theorem isSpace_mem (space : isSpace char = true) : char ∈ ['\n', '\r', '\u2028', '\u2029',
    ' ', '\t', '\x0b', '\x0c', '\u00a0', '\ufeff'] := by
  simpa [isSpace, isLineTerminator, or_assoc] using space

theorem start_not_space (first : isIdentifierStart char = true) : isSpace char = false := by
  rw [Bool.eq_false_iff]
  intro space
  have outside : ∀ other ∈ ['\n', '\r', '\u2028', '\u2029', ' ', '\t', '\x0b', '\x0c', '\u00a0', '\ufeff'],
      isIdentifierStart other ≠ true := forall_mem_of_all (by decide)
  exact outside char (isSpace_mem space) first

theorem digit_not_space (digit : isDigit char = true) : isSpace char = false := by
  rw [Bool.eq_false_iff]
  intro space
  have outside : ∀ other ∈ ['\n', '\r', '\u2028', '\u2029', ' ', '\t', '\x0b', '\x0c', '\u00a0', '\ufeff'],
      isDigit other ≠ true := forall_mem_of_all (by decide)
  exact outside char (isSpace_mem space) digit

theorem part_isWordPart (part : isIdentifierPart char = true) : isWordPart char = true := by
  simp only [isIdentifierPart, isIdentifierStart, isWordPart, isDigit, decide_eq_true_eq] at part ⊢
  tauto

theorem EndsPiece.head_ne_brace (ends : EndsPiece behind) : behind.head? ≠ some '{' := by
  obtain ⟨char, member, starts⟩ := ends
  rw [starts]
  rintro ⟨⟩
  exact absurd member (by decide)

theorem lexeme_identifier (operand : Bool) (identifier : IdentifierText text)
    (ends : EndsPiece behind) : lexeme operand (text ++ behind) = some (some (.word text), behind) := by
  obtain ⟨starts, parts⟩ := identifier
  cases text with
  | nil => simp at starts
  | cons char rest =>
    have first : isIdentifierStart char = true := by simpa using starts
    have different : ∀ other, isIdentifierStart other = false → char ≠ other := by
      rintro other outside rfl
      rw [first] at outside
      cases outside
    have inner := takeWhile_endsWord rest
      (fun other member => part_isWordPart (parts other (mem_cons_of_mem _ member))) ends.endsWord
    have isWord : isWordPart char = true := part_isWordPart (parts char mem_cons_self)
    have notSlash : char ≠ '/' := different '/' (by decide)
    have notQuote : ¬(char = '\'' ∨ char = '"') := by
      simp [different '\'' (by decide), different '"' (by decide)]
    simp only [cons_append, lexeme, start_not_space first, notQuote, notSlash, start_not_digit first,
      different '.' (by decide), isWord, inner.1, inner.2, operandToken, ends.head_ne_brace, false_and,
      and_false, or_self, if_false, if_true, Bool.false_eq_true]

theorem EndsPiece.spanNumber (ends : EndsPiece behind) (hex : Bool) (previous : Char)
    (dot : Bool) : JsTokens.spanNumber hex previous dot behind = ([], behind) := by
  obtain ⟨char, member, starts⟩ := ends
  cases behind with
  | nil => cases starts
  | cons first rest =>
    have outside : ∀ char ∈ [' ', ',', ':', '(', ']', '}', ';'],
        isWordPart char = false ∧ char ≠ '.' ∧ char ≠ '+' ∧ char ≠ '-' := forall_mem_of_all (by decide)
    cases starts
    simp [JsTokens.spanNumber, outside char member]

theorem spanNumber_append {hex dot : Bool} {previous : Char}
    (whole : spanNumber hex previous dot text = (text, [])) (ends : EndsPiece behind) :
    spanNumber hex previous dot (text ++ behind) = (text, behind) := by
  induction text generalizing previous dot with
  | nil => exact ends.spanNumber hex previous dot
  | cons char rest ih =>
    rw [JsTokens.spanNumber] at whole
    split at whole
    · rename_i part
      have inner : spanNumber hex char (dot || char = '.') rest = (rest, []) := by
        simpa [Prod.ext_iff] using whole
      rw [cons_append, JsTokens.spanNumber, if_pos part, ih inner]
    · cases whole

theorem lexeme_decimal (operand : Bool) (decimal : DecimalText text)
    (ends : EndsPiece behind) : lexeme operand (text ++ behind) = some (some (.word text), behind) := by
  obtain ⟨starts, chars, whole⟩ := decimal
  cases text with
  | nil => simp at starts
  | cons char rest =>
    have digit : isDigit char = true := by simpa using starts
    have different : ∀ other, isDigit other = false → char ≠ other := by
      rintro other outside rfl
      rw [digit] at outside
      cases outside
    have notHex : ((rest ++ behind).head?.any fun x => x = 'x' ∨ x = 'X') = false := by
      cases rest with
      | nil =>
        obtain ⟨next, member, first⟩ := ends
        have outside : ∀ char ∈ [' ', ',', ':', '(', ']', '}', ';'], ¬(char = 'x' ∨ char = 'X') :=
          forall_mem_of_all (by decide)
        simpa [first] using outside next member
      | cons next more =>
        have part := chars next (by simp)
        have outside : ∀ other ∈ ['x', 'X'], ¬(isDigit other = true ∨ other ∈ ['.', 'e', '+', '-']) :=
          forall_mem_of_all (by decide)
        have : next ∉ ['x', 'X'] := fun member => outside next member part
        simpa using this
    have notSlash : char ≠ '/' := different '/' (by decide)
    have notQuote : ¬(char = '\'' ∨ char = '"') := by
      simp [different '\'' (by decide), different '"' (by decide)]
    have number := spanNumber_append whole ends
    simp only [head?_cons, Option.getD_some, tail_cons] at number
    simp only [cons_append, lexeme, digit_not_space digit, notQuote, notSlash, digit, notHex,
      different '.' (by decide), number, operandToken, ends.head_ne_brace, false_and, and_false, true_or,
      if_false, if_true, Bool.false_eq_true, decide_false]

theorem lexeme_piece (operand : Bool) (stands : piece.Stands behind) :
    lexeme operand (piece.text ++ behind) = some (piece.token, behind) := by
  cases piece with
  | space => rfl
  | mark char =>
    rcases stands with bracket | ⟨rfl, digit⟩
    · exact lexeme_bracket operand bracket behind
    · exact lexeme_minus operand digit
  | word text =>
    rcases stands.1 with decimal | identifier
    · exact lexeme_decimal operand decimal stands.2
    · exact lexeme_identifier operand identifier stands.2
  | quoted text =>
    have literal : (Piece.quoted text).text ++ behind = '\'' :: (escapeString text ++ '\'' :: behind) := by
      simp [Piece.text]
    rw [literal, lexeme, if_neg (by decide), if_pos (.inl rfl), readString_escapeString]
    rfl

theorem lex_legible (legible : Legible pieces behind)
    (operand : Bool) : ∃ later, lex operand (textOf pieces ++ behind) =
      (lex later behind).map (tokensOf pieces ++ ·) := by
  induction pieces generalizing operand with
  | nil => exact ⟨operand, by simp [textOf, tokensOf]⟩
  | cons piece rest ih =>
    obtain ⟨stands, legibleRest⟩ := legible
    have text : textOf (piece :: rest) ++ behind = piece.text ++ (textOf rest ++ behind) := by simp [textOf]
    rw [text, lex_of_lexeme (lexeme_piece operand stands)]
    cases isToken : piece.token with
    | none =>
      obtain ⟨later, read⟩ := ih legibleRest operand
      exact ⟨later, by simp [read, tokensOf, isToken]⟩
    | some token =>
      obtain ⟨later, read⟩ := ih legibleRest token.startsOperand
      refine ⟨later, ?_⟩
      simp only [read, Option.map_map]
      simp [tokensOf, isToken, Function.comp_def]

theorem legible_tokens (legible : Legible pieces []) :
    tokens (executableCode (textOf pieces)) = some (tokensOf pieces) := by
  obtain ⟨notDoubleEscaped, unrepaired⟩ := legible_quiet legible
  rw [append_nil, hasLiteralBackslashNOutsideStrings] at notDoubleEscaped
  rw [append_nil, repairsLiterals] at unrepaired
  have read : tokens (textOf pieces) = some (tokensOf pieces) := by
    obtain ⟨later, same⟩ := lex_legible legible true
    have nothing : lex later [] = some [] := by rw [lex, if_pos rfl]
    simpa [tokens, nothing] using same
  have plain : PlainRegularExpressions (tokensOf pieces) := by
    intro text member
    obtain ⟨piece, _, token⟩ := mem_filterMap.mp member
    cases piece <;> cases token
  have unescaped : unescapeJsonEscapeSequences (textOf pieces) = textOf pieces := by
    simp [unescapeJsonEscapeSequences, notDoubleEscaped]
  rw [executableCode, unescaped, escapeN8nVariables, escapeNodeReferences_quiet unrepaired]
  exact escapeN8nVariablesInTemplateLiterals_tokens read plain

end Pieces

end N8n.FormatValue
