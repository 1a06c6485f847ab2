import N8n.FormatValueTokens
import N8n.JsFragment

/-! From the text of a value to its syntax tree. The text is written out in pieces, which
are legible if the strings of the value are steady, and the grammar reads their tokens as
the literal that the value stands for. -/

namespace N8n.FormatValue

open JsTokens JsFragment PreprocessCode Sdk List

section Values

variable {ν : Type}

@[induction_eliminator]
theorem Json.induct {motive : Json ν → Prop} (null : motive .null)
    (boolean : ∀ value, motive (.boolean value)) (number : ∀ value, motive (.number value))
    (string : ∀ value, motive (.string value))
    (array : ∀ items, (∀ item ∈ items, motive item) → motive (.array items))
    (object : ∀ entries, (∀ entry ∈ entries, motive entry.2) → motive (.object entries))
    (value : Json ν) : motive value :=
  @Json.rec ν motive (fun items => ∀ item ∈ items, motive item)
    (fun entries => ∀ entry ∈ entries, motive entry.2) (fun entry => motive entry.2)
    null boolean number string array object (by simp) (fun _ _ first rest => forall_mem_cons.mpr ⟨first, rest⟩)
    (by simp) (fun _ _ first rest => forall_mem_cons.mpr ⟨first, rest⟩) (fun _ _ value => value) value

mutual

def Json.parts : Json ν → List (Json ν)
  | .array items => .array items :: partsOfItems items
  | .object entries => .object entries :: partsOfEntries entries
  | value => [value]

def partsOfItems : List (Json ν) → List (Json ν)
  | [] => []
  | item :: items => item.parts ++ partsOfItems items

def partsOfEntries : List (String × Json ν) → List (Json ν)
  | [] => []
  | (_, value) :: entries => value.parts ++ partsOfEntries entries

end

theorem partsOfItems_eq (items : List (Json ν)) : partsOfItems items = items.flatMap Json.parts := by
  induction items with
  | nil => rfl
  | cons item items ih => rw [partsOfItems, ih, flatMap_cons]

theorem partsOfEntries_eq (entries : List (String × Json ν)) :
    partsOfEntries entries = entries.flatMap fun entry => entry.2.parts := by
  induction entries with
  | nil => rfl
  | cons entry entries ih => rw [partsOfEntries, ih, flatMap_cons]

end Values

section Pieces

variable {ν : Type} [JsNumber ν]

def separator : List Piece := [.mark ',', .space]

def keyPiece (key : List Char) : Piece := if needsQuoting key then .quoted key else .word key

def numberPieces : List Char → List Piece
  | '-' :: text => [.mark '-', .word text]
  | text => [.word text]

def stringPieces (value : List Char) : List Piece :=
  if isPlaceholderValue value then
    [.word "placeholder".toList, .mark '(', .quoted (extractPlaceholderHint value), .mark ')']
  else if value.head? = some '=' then [.word "expr".toList, .mark '(', .quoted value.tail, .mark ')']
  else [.quoted value]

mutual

def pieces : Json ν → List Piece
  | .null => [.word "null".toList]
  | .boolean value => [.word (if value then "true" else "false").toList]
  | .number value => numberPieces (JsNumber.toText value).toList
  | .string value => stringPieces value.toList
  | .array items => .mark '[' :: List.intercalate separator (itemPieces items) ++ [.mark ']']
  | .object [] => [.mark '{', .mark '}']
  | .object (entry :: entries) =>
    [.mark '{', .space] ++ List.intercalate separator (entryPieces (entry :: entries)) ++ [.space, .mark '}']

def itemPieces : List (Json ν) → List (List Piece)
  | [] => []
  | item :: items => pieces item :: itemPieces items

def entryPieces : List (String × Json ν) → List (List Piece)
  | [] => []
  | (key, value) :: entries =>
    ([keyPiece key.toList, .mark ':', .space] ++ pieces value) :: entryPieces entries

end

def memberPieces (entry : String × Json ν) : List Piece :=
  [keyPiece entry.1.toList, .mark ':', .space] ++ pieces entry.2

theorem itemPieces_eq (items : List (Json ν)) : itemPieces items = items.map pieces := by
  induction items with
  | nil => rfl
  | cons item items ih => rw [itemPieces, ih, map_cons]

theorem entryPieces_eq (entries : List (String × Json ν)) : entryPieces entries = entries.map memberPieces := by
  induction entries with
  | nil => rfl
  | cons entry entries ih => rw [entryPieces, ih, map_cons, memberPieces]

theorem textOf_append (first second : List Piece) : textOf (first ++ second) = textOf first ++ textOf second := by
  simp [textOf]

theorem textOf_cons (piece : Piece) (rest : List Piece) : textOf (piece :: rest) = piece.text ++ textOf rest := by
  simp [textOf]

theorem textOf_intercalate (chunks : List (List Piece)) :
    textOf (List.intercalate separator chunks) = List.intercalate ", ".toList (chunks.map textOf) := by
  induction chunks with
  | nil => rfl
  | cons chunk rest ih =>
    cases rest with
    | nil => simp
    | cons second rest =>
      rw [intercalate_cons_cons, textOf_append, textOf_append, ih]
      simp only [map_cons, intercalate_cons_cons]
      rfl

theorem textOf_keyPiece (key : List Char) : (keyPiece key).text = formatKey key := by
  unfold keyPiece formatKey
  split <;> rfl

theorem textOf_numberPieces (text : List Char) : textOf (numberPieces text) = text := by
  unfold numberPieces
  split <;> simp [textOf, Piece.text]

theorem textOf_stringPieces (value : List Char) : textOf (stringPieces value) = formatString value := by
  unfold stringPieces formatString
  split_ifs <;> simp [textOf, Piece.text]

theorem textOf_pieces (value : Json ν) : textOf (pieces value) = formatValue value := by
  induction value with
  | null => rfl
  | boolean value => simp [pieces, formatValue, textOf, Piece.text]
  | number value => exact textOf_numberPieces _
  | string value => exact textOf_stringPieces _
  | array items ih =>
    have each : (itemPieces items).map textOf = formatItems items := by
      induction items with
      | nil => rfl
      | cons item items inner =>
        simp only [forall_mem_cons] at ih
        simp only [itemPieces, formatItems, map_cons, ih.1, inner ih.2]
    simp only [pieces, formatValue, textOf_append, textOf_cons, textOf_intercalate, each]
    rfl
  | object entries ih =>
    have each : (entryPieces entries).map textOf = formatEntries entries := by
      induction entries with
      | nil => rfl
      | cons entry entries inner =>
        simp only [forall_mem_cons] at ih
        simp only [entryPieces, formatEntries, map_cons, textOf_append, textOf_cons, textOf_keyPiece,
          ih.1, inner ih.2]
        simp [Piece.text, textOf]
    cases entries with
    | nil => rfl
    | cons entry entries =>
      simp only [pieces, formatValue, textOf_append, textOf_cons, textOf_intercalate, each]
      simp [Piece.text, textOf]

end Pieces

section Numbers

variable {char : Char} {rest : List Char}

theorem spanNumber_word (word : isWordPart char = true) (previous : Char) (dot : Bool)
    (whole : spanNumber false char (dot || char = '.') rest = (rest, [])) :
    spanNumber false previous dot (char :: rest) = (char :: rest, []) := by
  rw [spanNumber, if_pos (.inl word), whole]

theorem digit_isWordPart (digit : isDigit char = true) : isWordPart char = true := by
  simp [isWordPart, digit]

theorem digit_ne_dot (digit : isDigit char = true) : (char = '.') = False := by
  refine eq_false ?_
  rintro rfl
  exact absurd digit (by decide)

/-- Digits in front of text that is read whole, whatever is in front of it. -/
theorem spanNumber_digits (digits : List Char) (areDigits : ∀ char ∈ digits, isDigit char = true)
    {dot : Bool} (whole : ∀ previous, spanNumber false previous dot rest = (rest, [])) (previous : Char) :
    spanNumber false previous dot (digits ++ rest) = (digits ++ rest, []) := by
  induction digits generalizing previous with
  | nil => exact whole previous
  | cons char digits ih =>
    simp only [forall_mem_cons] at areDigits
    refine spanNumber_word (digit_isWordPart areDigits.1) previous dot ?_
    simpa [digit_ne_dot areDigits.1] using ih areDigits.2 char

variable {text : List Char}

theorem spanNumber_exponent (exponent : isExponent text = true) (dot : Bool)
    (previous : Char) : spanNumber false previous dot text = (text, []) := by
  have digitsWhole (digits : List Char) (all : digits.all isDigit = true) (before : Char) :
      spanNumber false before dot digits = (digits, []) := by
    have whole (previous : Char) : spanNumber false previous dot [] = ([], []) := by simp [spanNumber]
    simpa using spanNumber_digits digits (by simpa using all) whole before
  have isWord : isWordPart 'e' = true := by decide
  fun_cases isExponent text with
  | case1 => simp [spanNumber]
  | case2 digits =>
    simp only [isExponent, Bool.and_eq_true] at exponent
    refine spanNumber_word isWord previous dot ?_
    have signed : spanNumber false '+' (dot || decide ('+' = '.')) digits = (digits, []) := by
      simpa using digitsWhole digits exponent.2 '+'
    simp_all [spanNumber, isWordPart, isDigit, isSpace, isLineTerminator]
  | case3 digits =>
    simp only [isExponent, Bool.and_eq_true] at exponent
    refine spanNumber_word isWord previous dot ?_
    have signed : spanNumber false '-' (dot || decide ('-' = '.')) digits = (digits, []) := by
      simpa using digitsWhole digits exponent.2 '-'
    simp_all [spanNumber, isWordPart, isDigit, isSpace, isLineTerminator]
  | case4 digits notPlus notMinus =>
    rw [isExponent] at exponent
    · simp only [Bool.and_eq_true] at exponent
      refine spanNumber_word isWord previous dot ?_
      simpa using digitsWhole digits exponent.2 'e'
    · exact notPlus
    · exact notMinus
  | case5 => simp_all [isExponent]

theorem exponent_chars (exponent : isExponent text = true) :
    ∀ char ∈ text, isDigit char ∨ char ∈ ['.', 'e', '+', '-'] := by
  fun_cases isExponent text with
  | case4 digits notPlus notMinus =>
    rw [isExponent] at exponent
    · simp_all
    · exact notPlus
    · exact notMinus
  | _ => simp_all [isExponent]

theorem spanNumber_fraction (fraction : isFraction text = true) (previous : Char) :
    spanNumber false previous false text = (text, []) := by
  fun_cases isFraction text with
  | case1 rest =>
    rw [isFraction] at fraction
    have split := takeWhile_append_dropWhile (p := isDigit) (l := rest)
    have whole := spanNumber_digits (rest.takeWhile isDigit)
      (fun char member => mem_takeWhile_imp member) (spanNumber_exponent fraction true) '.'
    rw [split] at whole
    rw [spanNumber, if_pos (by simp)]
    simp [whole]
  | case2 => exact spanNumber_exponent (by simpa [isFraction] using fraction) false previous

theorem fraction_chars (fraction : isFraction text = true) :
    ∀ char ∈ text, isDigit char ∨ char ∈ ['.', 'e', '+', '-'] := by
  fun_cases isFraction text with
  | case1 rest =>
    rw [isFraction] at fraction
    intro char member
    rcases mem_cons.mp member with rfl | member
    · simp
    rw [← takeWhile_append_dropWhile (p := isDigit) (l := rest)] at member
    rcases mem_append.mp member with digit | later
    · exact .inl (mem_takeWhile_imp digit)
    · exact exponent_chars fraction char later
  | case2 => exact exponent_chars (by simpa [isFraction] using fraction)

theorem decimalText_of_literal (literal : isDecimalLiteral text = true) :
    DecimalText text := by
  simp only [isDecimalLiteral, Bool.and_eq_true] at literal
  obtain ⟨integer, fraction⟩ := literal
  have split := takeWhile_append_dropWhile (p := isDigit) (l := text)
  have digits : ∀ char ∈ text.takeWhile isDigit, isDigit char = true := fun _ member =>
    mem_takeWhile_imp member
  cases first : text.takeWhile isDigit with
  | nil => simp [first] at integer
  | cons char rest =>
    rw [first] at split digits
    simp only [forall_mem_cons] at digits
    refine ⟨?_, ?_, ?_⟩
    · rw [← split]
      simp [digits.1]
    · intro other member
      rw [← split] at member
      rcases mem_append.mp member with digit | later
      · rcases mem_cons.mp digit with rfl | digit
        · exact .inl digits.1
        · exact .inl (digits.2 other digit)
      · exact fraction_chars fraction other later
    · rw [← split]
      simpa using spanNumber_digits rest digits.2 (spanNumber_fraction fraction) char

end Numbers

section Conditions

def writtenText (value : List Char) : List Char :=
  if isPlaceholderValue value then extractPlaceholderHint value
  else if value.head? = some '=' then value.tail else value

def KeySteady (key : List Char) : Prop :=
  key ≠ "__proto__".toList ∧ (needsQuoting key → ¬Dangling key)

theorem KeySteady.ne_proto {key : String} (steady : KeySteady key.toList) : key ≠ "__proto__" :=
  fun same => steady.1 (by rw [same])

def Json.NodeSteady {ν : Type} : Json ν → Prop
  | .string value => ¬Dangling (writtenText value.toList)
  | .object entries => ∀ entry ∈ entries, KeySteady entry.1.toList
  | _ => True

/-- No quoted text in the value dangles and no key is `__proto__`. -/
def Json.Steady {ν : Type} (value : Json ν) : Prop := ∀ part ∈ value.parts, part.NodeSteady

variable {ν : Type} [JsNumber ν] {property : Json ν → Prop}

/-- `String(number)` is a decimal literal with this value, perhaps behind a minus sign. -/
def PrintsDecimal (number : ν) : Prop :=
  ∃ text, isDecimalLiteral text ∧ ((JsNumber.toText number).toList = text ∧
        JsNumber.equal (JsNumber.ofText (String.ofList text)) number = true ∨
      (JsNumber.toText number).toList = '-' :: text ∧
        ∃ negative, JsNumber.minus (JsNumber.ofText (String.ofList text) : ν) = some negative ∧
          JsNumber.equal negative number = true)

/-- A value of JavaScript: numbers are finite, keys distinct and lengths bounded. -/
def Json.NodeValid : Json ν → Prop
  | .number value => PrintsDecimal value
  | .array items => items.length < 2 ^ 32
  | .object entries => (entries.map Prod.fst).Nodup
  | _ => True

def Json.Valid (value : Json ν) : Prop := ∀ part ∈ value.parts, part.NodeValid

omit [JsNumber ν] in
theorem forall_parts_array {items : List (Json ν)} :
    (∀ part ∈ (Json.array items).parts, property part) ↔
      property (.array items) ∧ ∀ item ∈ items, ∀ part ∈ item.parts, property part := by
  simp only [Json.parts, partsOfItems_eq, forall_mem_cons, mem_flatMap, forall_exists_index, and_imp]
  exact and_congr_right fun _ => ⟨fun all item member part inside => all part item member inside,
    fun all part item member inside => all item member part inside⟩

omit [JsNumber ν] in
theorem forall_parts_object {entries : List (String × Json ν)} :
    (∀ part ∈ (Json.object entries).parts, property part) ↔
      property (.object entries) ∧ ∀ entry ∈ entries, ∀ part ∈ entry.2.parts, property part := by
  simp only [Json.parts, partsOfEntries_eq, forall_mem_cons, mem_flatMap, forall_exists_index, and_imp]
  exact and_congr_right fun _ => ⟨fun all entry member part inside => all part entry member inside,
    fun all part entry member inside => all entry member part inside⟩

end Conditions

section Legible

variable {behind : List Char}

theorem legible_intercalate {chunks : List (List Piece)}
    (each : ∀ chunk ∈ chunks, ∀ behind, EndsPiece behind → Legible chunk behind)
    (ends : EndsPiece behind) : Legible (List.intercalate separator chunks) behind := by
  induction chunks with
  | nil => trivial
  | cons chunk rest ih =>
    simp only [forall_mem_cons] at each
    cases rest with
    | nil => simpa using each.1 behind ends
    | cons second rest =>
      rw [intercalate_cons_cons, legible_append, legible_append]
      refine ⟨⟨each.1 _ ⟨',', by simp, rfl⟩, ?_⟩, ih each.2⟩
      exact ⟨.inl (by simp [brackets]), trivial, trivial⟩

variable {text : List Char}

theorem identifierText_of_letters (isText : needsQuoting text = false) :
    IdentifierText text := by
  simp only [needsQuoting, Bool.not_eq_false', Bool.and_eq_true, all_eq_true] at isText
  exact ⟨isText.1, isText.2⟩

theorem EndsPiece.not_lowercase (ends : EndsPiece behind) : behind.head?.any isLowercase = false := by
  obtain ⟨char, member, starts⟩ := ends
  have outside : ∀ char ∈ [' ', ',', ':', '(', ']', '}', ';'], isLowercase char = false :=
    forall_mem_of_all (by decide)
  rw [starts]
  exact outside char member

theorem legible_word (isText : needsQuoting text = false) (ends : EndsPiece behind) : Legible [.word text] behind :=
  ⟨⟨.inr (identifierText_of_letters isText), ends⟩, trivial⟩

theorem legible_call {name : List Char} (isName : needsQuoting name = false)
    (steady : ¬Dangling text) : Legible [.word name, .mark '(', .quoted text, .mark ')'] behind := by
  refine ⟨⟨.inr (identifierText_of_letters isName), '(', by simp, rfl⟩, .inl (by simp [brackets]), ⟨steady, ?_⟩,
    .inl (by simp [brackets]), trivial⟩
  rfl

theorem legible_stringPieces {value : List Char} (steady : ¬Dangling (writtenText value))
    (ends : EndsPiece behind) : Legible (stringPieces value) behind := by
  unfold writtenText at steady
  unfold stringPieces
  split_ifs at steady ⊢
  · exact legible_call (by decide) steady
  · exact legible_call (by decide) steady
  · exact ⟨⟨steady, ends.not_lowercase⟩, trivial⟩

theorem legible_keyPiece {key : List Char} (steady : KeySteady key) (rest : List Piece)
    (behind : List Char) : (keyPiece key).Stands (textOf (.mark ':' :: rest) ++ behind) := by
  unfold keyPiece
  split_ifs with quoting
  · exact ⟨steady.2 quoting, rfl⟩
  · exact ⟨.inr (identifierText_of_letters (by simpa using quoting)), ':', by simp, rfl⟩

variable {ν : Type} [JsNumber ν]

theorem legible_numberPieces {number : ν} (prints : PrintsDecimal number)
    (ends : EndsPiece behind) : Legible (numberPieces (JsNumber.toText number).toList) behind := by
  obtain ⟨text, literal, ⟨same, _⟩ | ⟨same, _⟩⟩ := prints
  · have decimal := decimalText_of_literal literal
    rw [same]
    unfold numberPieces
    split
    · exact absurd decimal.starts (by simp [isDigit])
    · exact ⟨⟨.inl decimal, ends⟩, trivial⟩
  · have decimal := decimalText_of_literal literal
    rw [same]
    refine ⟨.inr ⟨rfl, ?_⟩, ⟨.inl decimal, ends⟩, trivial⟩
    have starts := decimal.starts
    cases text with
    | nil => simp at starts
    | cons char rest => simpa [textOf, Piece.text] using starts

theorem legible_pieces {value : Json ν} (steady : value.Steady) (valid : value.Valid)
    (ends : EndsPiece behind) : Legible (pieces value) behind := by
  induction value generalizing behind with
  | null => exact legible_word (by decide) ends
  | boolean value => cases value <;> exact legible_word (by decide) ends
  | number value => exact legible_numberPieces (valid (.number value) (by simp [Json.parts])) ends
  | string value => exact legible_stringPieces (steady (.string value) (by simp [Json.parts])) ends
  | array items ih =>
    obtain ⟨_, itemsSteady⟩ := forall_parts_array.mp steady
    obtain ⟨_, itemsValid⟩ := forall_parts_array.mp valid
    have each : ∀ chunk ∈ items.map pieces, ∀ behind, EndsPiece behind → Legible chunk behind := by
      intro chunk member behind ends
      obtain ⟨item, isItem, rfl⟩ := List.mem_map.mp member
      exact ih item isItem (itemsSteady item isItem) (itemsValid item isItem) ends
    have closes : EndsPiece (textOf [.mark ']'] ++ behind) := ⟨']', by simp, rfl⟩
    rw [pieces, itemPieces_eq, cons_append]
    refine ⟨.inl (by simp [brackets]), legible_append.mpr ⟨legible_intercalate each closes, ?_⟩⟩
    exact ⟨.inl (by simp [brackets]), trivial⟩
  | object entries ih =>
    obtain ⟨keysSteady, entriesSteady⟩ := forall_parts_object.mp steady
    obtain ⟨_, entriesValid⟩ := forall_parts_object.mp valid
    have each : ∀ chunk ∈ entries.map memberPieces, ∀ behind, EndsPiece behind → Legible chunk behind := by
      intro chunk member behind ends
      obtain ⟨entry, isEntry, rfl⟩ := List.mem_map.mp member
      refine ⟨legible_keyPiece (keysSteady entry isEntry) _ _, .inl (by simp [brackets]), trivial, ?_⟩
      exact ih entry isEntry (entriesSteady entry isEntry) (entriesValid entry isEntry) ends
    cases entries with
    | nil => exact ⟨.inl (by simp [brackets]), .inl (by simp [brackets]), trivial⟩
    | cons entry entries =>
      have closes : EndsPiece (textOf [.space, .mark '}'] ++ behind) := ⟨' ', by simp, rfl⟩
      rw [pieces, entryPieces_eq]
      refine legible_append.mpr ⟨legible_append.mpr ⟨?_, legible_intercalate each closes⟩, ?_⟩
      · exact ⟨.inl (by simp [brackets]), trivial, trivial⟩
      · exact ⟨trivial, .inl (by simp [brackets]), trivial⟩

end Legible

section Literals

variable {ν : Type} [JsNumber ν]

def numberLiteral : List Char → Expr ν
  | '-' :: text => .unary .minus (.literal (.number (JsNumber.ofText (String.ofList text))))
  | text => .literal (.number (JsNumber.ofText (String.ofList text)))

def stringLiteral (value : List Char) : Expr ν :=
  if isPlaceholderValue value then
    .call (.identifier "placeholder") [.literal (.string (String.ofList (extractPlaceholderHint value)))]
  else if value.head? = some '=' then
    .call (.identifier "expr") [.literal (.string (String.ofList value.tail))]
  else .literal (.string (String.ofList value))

def keyLiteral (key : String) : Expr ν :=
  if needsQuoting key.toList then .literal (.string key) else .identifier key

mutual

def literalOf : Json ν → Expr ν
  | .null => .literal .null
  | .boolean value => .literal (.boolean value)
  | .number value => numberLiteral (JsNumber.toText value).toList
  | .string value => stringLiteral value.toList
  | .array items => .array (itemLiterals items)
  | .object entries => .object (memberLiterals entries)

def itemLiterals : List (Json ν) → List (Option (Expr ν))
  | [] => []
  | item :: items => some (literalOf item) :: itemLiterals items

def memberLiterals : List (String × Json ν) → List (Option (Expr ν) × Expr ν)
  | [] => []
  | (key, value) :: entries => (some (keyLiteral key), literalOf value) :: memberLiterals entries

end

theorem itemLiterals_eq (items : List (Json ν)) : itemLiterals items = (items.map literalOf).map some := by
  induction items with
  | nil => rfl
  | cons item items ih => rw [itemLiterals, ih, map_cons, map_cons]

theorem memberLiterals_eq (entries : List (String × Json ν)) :
    memberLiterals entries = entries.map fun entry => (some (keyLiteral entry.1), literalOf entry.2) := by
  induction entries with
  | nil => rfl
  | cons entry entries ih => rw [memberLiterals, ih, map_cons]

end Literals

section Parse

@[simp] theorem tokensOf_nil : tokensOf [] = [] := rfl

@[simp] theorem tokensOf_space (rest : List Piece) : tokensOf (.space :: rest) = tokensOf rest := rfl

@[simp] theorem tokensOf_mark (char : Char) (rest : List Piece) :
    tokensOf (.mark char :: rest) = .punctuator [char] :: tokensOf rest := rfl

@[simp] theorem tokensOf_word (text : List Char) (rest : List Piece) :
    tokensOf (.word text :: rest) = .word text :: tokensOf rest := rfl

@[simp] theorem tokensOf_quoted (text : List Char) (rest : List Piece) :
    tokensOf (.quoted text :: rest) = .string (text.map Char.toNat) :: tokensOf rest := rfl

theorem tokensOf_append (first second : List Piece) :
    tokensOf (first ++ second) = tokensOf first ++ tokensOf second := by
  simp [tokensOf]

theorem tokensOf_intercalate (chunks : List (List Piece)) : tokensOf (List.intercalate separator chunks) =
      List.intercalate [.punctuator [',']] (chunks.map tokensOf) := by
  induction chunks with
  | nil => rfl
  | cons chunk rest ih =>
    cases rest with
    | nil => simp
    | cons second rest =>
      rw [intercalate_cons_cons, tokensOf_append, tokensOf_append, ih]
      simp only [map_cons, intercalate_cons_cons]
      rfl

theorem stringOf_chars (text : List Char) : stringOf (text.map Char.toNat) = some (String.ofList text) := by
  have valid : (text.map Char.toNat).all (fun point => decide point.isValidChar) = true := by
    simpa using fun char _ => char.valid
  rw [stringOf, if_pos valid, List.map_map]
  simp [Function.comp_def, Char.ofNat_toNat]

variable {text : List Char}

theorem isPlainName_of_letters (isText : needsQuoting text = false) : isPlainName text = true := by
  simp only [needsQuoting, Bool.not_eq_false', Bool.and_eq_true, all_eq_true] at isText
  simp only [isPlainName, Bool.and_eq_true, all_eq_true]
  refine ⟨isText.1, fun char member => ?_⟩
  simpa [isIdentifierPart, isIdentifierStart, isAsciiLetter, isDigit] using isText.2 char member

variable {ν : Type}

theorem parseKey_keyPiece {key : String} (steady : KeySteady key.toList) : ∃ token,
    (keyPiece key.toList).token = some token ∧ parseKey token = some (keyLiteral key : Expr ν) ∧
      token ≠ .punctuator ['}'] := by
  have notProto := steady.ne_proto
  unfold keyPiece keyLiteral
  split_ifs with quoting
  · exact ⟨_, rfl, by simp [parseKey, stringOf_chars, notProto], by simp⟩
  · refine ⟨_, rfl, ?_, by simp⟩
    have plain := isPlainName_of_letters (by simpa using quoting)
    simp only [parseKey, plain, true_and]
    rw [if_pos steady.1, String.ofList_toList]

variable [JsNumber ν] {entry : String × Json ν}

theorem number_decimal (literal : isDecimalLiteral text = true) :
    number text = some (.literal (.number (JsNumber.ofText (String.ofList text))) : Expr ν) := if_pos literal

theorem parseWord_decimal (literal : isDecimalLiteral text = true) (rest : List Token) :
    parseWord text rest = some ((.literal (.number (JsNumber.ofText (String.ofList text))) : Expr ν), rest) := by
  have starts := (decimalText_of_literal literal).starts
  have different : ∀ word : List Char, word.head?.any isDigit = false → text ≠ word := by
    rintro word outside rfl
    rw [starts] at outside
    cases outside
  have notName : isPlainName text = false := by
    cases text with
    | nil => rfl
    | cons char rest =>
      have notLetter : isAsciiLetter char = false := by
        rw [Bool.eq_false_iff]
        intro letter
        have digit : isDigit char = true := by simpa using starts
        have notDigit : isDigit char = false := start_not_digit letter
        rw [notDigit] at digit
        cases digit
      simp [isPlainName, notLetter]
  rw [parseWord.eq_def, if_neg (different _ (by decide)), if_neg (different _ (by decide)),
    if_neg (different _ (by decide)), if_neg (by simp [notName]), number_decimal literal]
  rfl

theorem parseWord_call (name : List Char) (plain : isPlainName name = true) (free : name ∉ reservedWords)
    (text : List Char) (rest : List Token) :
    parseWord name (.punctuator ['('] :: .string (text.map Char.toNat) :: .punctuator [')'] :: rest) =
      some ((.call (.identifier (String.ofList name)) [.literal (.string (String.ofList text))] : Expr ν), rest) := by
  have different : ∀ word ∈ reservedWords, name ≠ word := by
    rintro word member rfl
    exact free member
  rw [parseWord, if_neg (different _ (by decide)), if_neg (different _ (by decide)),
    if_neg (different _ (by decide)), if_pos ⟨plain, free⟩]
  simp [stringOf_chars]

theorem parseExpression_stringPieces (value : List Char) (depth : ℕ) (rest : List Token) :
    parseExpression (depth + 1) (tokensOf (stringPieces value) ++ rest) =
      some ((stringLiteral value : Expr ν), rest) := by
  unfold stringPieces stringLiteral
  split_ifs
  · exact parseWord_call "placeholder".toList (by decide) (by decide) _ rest
  · exact parseWord_call "expr".toList (by decide) (by decide) _ rest
  · simp [tokensOf, Piece.token, parseExpression, stringOf_chars]

theorem parseExpression_numberPieces {value : ν} (prints : PrintsDecimal value) (depth : ℕ) (rest : List Token) :
    parseExpression (depth + 1) (tokensOf (numberPieces (JsNumber.toText value).toList) ++ rest) =
      some ((numberLiteral (JsNumber.toText value).toList : Expr ν), rest) := by
  obtain ⟨text, literal, ⟨same, _⟩ | ⟨same, _⟩⟩ := prints
  · have starts := (decimalText_of_literal literal).starts
    rw [same]
    unfold numberPieces numberLiteral
    split
    · exact absurd starts (by simp [isDigit])
    · exact parseWord_decimal literal rest
  · rw [same]
    simp [numberPieces, numberLiteral, tokensOf, Piece.token, parseExpression, number_decimal literal]

/-- What an item or a member starts with does not close the list. -/
theorem pieces_head (value : Json ν) : ∃ token rest, tokensOf (pieces value) = token :: rest ∧
    token ≠ .punctuator [']'] := by
  cases value with
  | null => exact ⟨_, _, rfl, by simp⟩
  | boolean value => exact ⟨_, _, rfl, by simp⟩
  | number value =>
    simp only [pieces]
    unfold numberPieces
    split
    · exact ⟨_, _, rfl, by simp⟩
    · exact ⟨_, _, rfl, by simp⟩
  | string value =>
    simp only [pieces]
    unfold stringPieces
    split_ifs
    all_goals exact ⟨_, _, rfl, by simp⟩
  | array items => exact ⟨_, _, rfl, by simp⟩
  | object entries =>
    cases entries with
    | nil => exact ⟨_, _, rfl, by simp⟩
    | cons entry entries => exact ⟨_, _, rfl, by simp⟩

theorem length_le_intercalate (separator : List α) {chunk : List α} {chunks : List (List α)} (member : chunk ∈ chunks) :
    chunk.length ≤ (List.intercalate separator chunks).length := by
  induction chunks with
  | nil => cases member
  | cons first rest ih =>
    cases rest with
    | nil => simp_all
    | cons second rest =>
      rw [intercalate_cons_cons, length_append, length_append]
      rcases mem_cons.mp member with rfl | later
      · omega
      · have := ih later
        omega

theorem tokensOf_array (items : List (Json ν)) : tokensOf (pieces (.array items)) =
    .punctuator ['['] :: (List.intercalate [.punctuator [',']] (items.map fun item => tokensOf (pieces item)) ++
      [.punctuator [']']]) := by
  rw [pieces, itemPieces_eq, cons_append, tokensOf_mark, tokensOf_append, tokensOf_intercalate]
  simp [Function.comp_def]

theorem tokensOf_object (entries : List (String × Json ν)) : tokensOf (pieces (.object entries)) =
    .punctuator ['{'] :: (List.intercalate [.punctuator [',']]
      (entries.map fun entry => tokensOf (memberPieces entry)) ++ [.punctuator ['}']]) := by
  cases entries with
  | nil => rfl
  | cons entry entries =>
    rw [pieces, entryPieces_eq, tokensOf_append, tokensOf_append, tokensOf_intercalate]
    simp [Function.comp_def]

theorem tokensOf_memberPieces (steady : KeySteady entry.1.toList) :
    ∃ token, tokensOf (memberPieces entry) = token :: .punctuator [':'] :: tokensOf (pieces entry.2) ∧
      parseKey token = some (keyLiteral entry.1 : Expr ν) ∧ token ≠ .punctuator ['}'] := by
  obtain ⟨token, isToken, key, notClosed⟩ := parseKey_keyPiece (ν := ν) steady
  refine ⟨token, ?_, key, notClosed⟩
  rw [memberPieces, cons_append, tokensOf, filterMap_cons_some isToken]
  rfl

theorem parseMember_memberPieces {parse : List Token → Option (Expr ν × List Token)} (steady : KeySteady entry.1.toList)
    (parses : ∀ rest, parse (tokensOf (pieces entry.2) ++ rest) = some (literalOf entry.2, rest)) (rest : List Token) :
    parseMember parse (tokensOf (memberPieces entry) ++ rest) =
      some ((some (keyLiteral entry.1), literalOf entry.2), rest) := by
  obtain ⟨token, split, key, _⟩ := tokensOf_memberPieces steady
  rw [split, cons_append, cons_append, parseMember, key]
  simp [parses]

theorem length_le_tokens (chunks : List (List Token)) (present : ∀ chunk ∈ chunks, chunk ≠ []) :
    chunks.length ≤ (List.intercalate [.punctuator [',']] chunks).length := by
  induction chunks with
  | nil => simp
  | cons first rest ih =>
    simp only [forall_mem_cons] at present
    have positive := length_pos_iff.mpr present.1
    cases rest with
    | nil => simpa using Nat.succ_le_of_lt positive
    | cons second rest =>
      have later := ih present.2
      rw [intercalate_cons_cons, length_append, length_append, length_cons]
      omega

theorem parseItems_closed {α β : Type} {parse : List Token → Option (α × List Token)} (bracket : Char)
    (different : bracket ≠ ',') {list : List β} (nonempty : list ≠ []) {result : β → α}
    {tokens : β → List Token} (present : ∀ item ∈ list, tokens item ≠ [])
    (each : ∀ item ∈ list, ∀ rest, parse (tokens item ++ rest) = some (result item, rest))
    (rest : List Token) :
    let code := List.intercalate [.punctuator [',']] (list.map tokens) ++ .punctuator [bracket] :: rest
    (parseItems parse code.length code).bind (closed bracket) = some (list.map result, rest) := by
  intro code
  have enough : (list.map fun item => (result item, tokens item)).length ≤ code.length := by
    have bound := length_le_tokens (list.map tokens) (by simpa using present)
    simp only [code, length_append, length_map] at bound ⊢
    omega
  have parsed := parseItems_intercalate parse (list.map fun item => (result item, tokens item))
    (by simpa using nonempty) (by simpa using each) (.punctuator [bracket] :: rest)
    (by simpa using different) enough
  rw [List.map_map, List.map_map] at parsed
  simp only [code, Function.comp_def] at parsed ⊢
  rw [parsed]
  simp [closed]

theorem intercalate_starts {α : Type} (separator : List α) (first : α) (more : List α) (chunks : List (List α)) :
    ∃ behind, List.intercalate separator ((first :: more) :: chunks) = first :: behind := by
  cases chunks with
  | nil => exact ⟨more, by simp⟩
  | cons second rest => exact ⟨_, by rw [intercalate_cons_cons, append_assoc, cons_append]⟩

theorem tokensOf_pieces_ne_nil (value : Json ν) : tokensOf (pieces value) ≠ [] := by
  obtain ⟨token, more, head, _⟩ := pieces_head value
  simp [head]

variable {depth : ℕ}

theorem parseExpression_array {items : List (Json ν)}
    (each : ∀ item ∈ items, ∀ rest, parseExpression depth (tokensOf (pieces item) ++ rest) =
      some ((literalOf item : Expr ν), rest)) (rest : List Token) :
    parseExpression (depth + 1) (tokensOf (pieces (.array items)) ++ rest) = some (literalOf (.array items), rest) := by
  rw [tokensOf_array, literalOf, itemLiterals_eq, cons_append, append_assoc, singleton_append]
  cases items with
  | nil => simp [parseExpression]
  | cons item items =>
    have closes := parseItems_closed ']' (by decide) (cons_ne_nil item items)
      (fun item _ => tokensOf_pieces_ne_nil item) each rest
    obtain ⟨token, more, head, notClosed⟩ := pieces_head item
    obtain ⟨behind, starts⟩ := intercalate_starts [.punctuator [',']] token more
      (items.map fun item => tokensOf (pieces item))
    simp only [map_cons, head, starts, cons_append] at closes ⊢
    rw [parseExpression]
    · rw [closes]
      simp
    · rintro rest same
      exact notClosed (List.cons.inj same).1

theorem parseExpression_object {entries : List (String × Json ν)} (keys : ∀ entry ∈ entries, KeySteady entry.1.toList)
    (each : ∀ entry ∈ entries, ∀ rest, parseExpression depth (tokensOf (pieces entry.2) ++ rest) =
      some ((literalOf entry.2 : Expr ν), rest)) (rest : List Token) :
    parseExpression (depth + 1) (tokensOf (pieces (.object entries)) ++ rest) =
      some (literalOf (.object entries), rest) := by
  rw [tokensOf_object, literalOf, memberLiterals_eq, cons_append, append_assoc, singleton_append]
  cases entries with
  | nil => simp [parseExpression]
  | cons entry entries =>
    have present : ∀ member ∈ entry :: entries, tokensOf (memberPieces member) ≠ [] := by
      intro member isEntry
      obtain ⟨token, split, _⟩ := tokensOf_memberPieces (keys member isEntry)
      simp [split]
    have members : ∀ member ∈ entry :: entries, ∀ rest,
        parseMember (parseExpression depth) (tokensOf (memberPieces member) ++ rest) =
          some ((some (keyLiteral member.1), literalOf member.2), rest) := fun member isEntry =>
      parseMember_memberPieces (keys member isEntry) (each member isEntry)
    have closes := parseItems_closed '}' (by decide) (cons_ne_nil entry entries) present members rest
    obtain ⟨token, head, _, notClosed⟩ := tokensOf_memberPieces (keys entry mem_cons_self)
    obtain ⟨behind, starts⟩ := intercalate_starts [.punctuator [',']] token
      (.punctuator [':'] :: tokensOf (pieces entry.2))
      (entries.map fun entry => tokensOf (memberPieces entry))
    simp only [map_cons, head, starts, cons_append] at closes ⊢
    rw [parseExpression]
    · rw [closes]
      simp
    · rintro rest same
      exact notClosed (List.cons.inj same).1

variable {value : Json ν}

theorem parseExpression_pieces (steady : value.Steady) (valid : value.Valid)
    (enough : (tokensOf (pieces value)).length ≤ depth) (rest : List Token) :
    parseExpression depth (tokensOf (pieces value) ++ rest) = some (literalOf value, rest) := by
  have positive := length_pos_iff.mpr (tokensOf_pieces_ne_nil value)
  obtain ⟨below, rfl⟩ : ∃ below, depth = below + 1 := ⟨depth - 1, by omega⟩
  induction value generalizing below rest with
  | null => rfl
  | boolean value => cases value <;> rfl
  | number value => exact parseExpression_numberPieces (valid (.number value) (by simp [Json.parts])) below rest
  | string value => exact parseExpression_stringPieces value.toList below rest
  | array items ih =>
    obtain ⟨_, itemsSteady⟩ := forall_parts_array.mp steady
    obtain ⟨_, itemsValid⟩ := forall_parts_array.mp valid
    refine parseExpression_array (fun item member rest => ?_) rest
    have shorter : (tokensOf (pieces item)).length ≤ below := by
      have within := length_le_intercalate [.punctuator [',']]
        (mem_map_of_mem (f := fun item => tokensOf (pieces item)) member)
      rw [tokensOf_array, length_cons] at enough
      simp only [length_append] at enough
      omega
    have itemPositive := length_pos_iff.mpr (tokensOf_pieces_ne_nil item)
    obtain ⟨deeper, rfl⟩ : ∃ deeper, below = deeper + 1 := ⟨below - 1, by omega⟩
    exact ih item member (itemsSteady item member) (itemsValid item member) rest itemPositive deeper shorter
  | object entries ih =>
    obtain ⟨keys, entriesSteady⟩ := forall_parts_object.mp steady
    obtain ⟨_, entriesValid⟩ := forall_parts_object.mp valid
    refine parseExpression_object keys (fun entry member rest => ?_) rest
    have shorter : (tokensOf (pieces entry.2)).length ≤ below := by
      have within := length_le_intercalate [.punctuator [',']]
        (mem_map_of_mem (f := fun entry => tokensOf (memberPieces entry)) member)
      obtain ⟨token, split, _⟩ := tokensOf_memberPieces (keys entry member)
      rw [tokensOf_object, length_cons] at enough
      simp only [length_append, split, length_cons] at enough within
      omega
    have entryPositive := length_pos_iff.mpr (tokensOf_pieces_ne_nil entry.2)
    obtain ⟨deeper, rfl⟩ : ∃ deeper, below = deeper + 1 := ⟨below - 1, by omega⟩
    exact ih entry member (entriesSteady entry member) (entriesValid entry member) rest entryPositive deeper shorter

def exported (value : Json ν) : Json ν := .object [("parameters", value)]

omit [JsNumber ν] in
theorem exported_steady (steady : value.Steady) : (exported value).Steady := by
  refine forall_parts_object.mpr ⟨?_, forall_mem_singleton.mpr steady⟩
  simp only [Json.NodeSteady, mem_singleton, forall_eq, KeySteady]
  decide

theorem exported_valid (valid : value.Valid) : (exported value).Valid :=
  forall_parts_object.mpr ⟨by simp [Json.NodeValid], forall_mem_singleton.mpr valid⟩

def programPieces (value : Json ν) : List Piece :=
  [.word "export".toList, .space, .word "default".toList, .space] ++ pieces (exported value) ++ [.mark ';']

theorem textOf_programPieces (value : Json ν) : textOf (programPieces value) = parameterCode value := by
  have start : textOf [.word "export".toList, .space, .word "default".toList, .space] ++
      (['{', ' '] ++ (formatKey "parameters".toList ++ [':', ' '])) =
        "export default \x7b parameters: ".toList := by decide
  have finish : [' ', '}'] ++ textOf [.mark ';'] = " \x7d;".toList := by decide
  have split : textOf (programPieces value) = textOf [.word "export".toList, .space, .word "default".toList, .space] ++
        (['{', ' '] ++ (formatKey "parameters".toList ++ [':', ' '])) ++ formatValue value ++
        ([' ', '}'] ++ textOf [.mark ';']) := by
    rw [programPieces, textOf_append, textOf_append, textOf_pieces, exported, formatValue, formatEntries,
      formatEntries, intercalate_singleton]
    simp only [append_assoc]
  exact split.trans (congrArg₂ (fun before after => before ++ formatValue value ++ after) start finish)

theorem parseProgram_parameterCode (steady : value.Steady) (valid : value.Valid) :
    (tokens (executableCode (parameterCode value))).bind parseProgram =
      some [.exportDefaultDeclaration (literalOf (exported value) : Expr ν)] := by
  have legible : Legible (programPieces value) [] := by
    have inner : Legible (pieces (exported value)) (textOf [.mark ';'] ++ []) :=
      legible_pieces (exported_steady steady) (exported_valid valid) ⟨';', by simp, rfl⟩
    refine legible_append.mpr ⟨legible_append.mpr ⟨?_, inner⟩, .inl (by simp [brackets]), trivial⟩
    refine ⟨⟨.inr (identifierText_of_letters (by decide)), ' ', by simp, rfl⟩, trivial,
      ⟨.inr (identifierText_of_letters (by decide)), ' ', by simp, rfl⟩, trivial, trivial⟩
  let code := tokensOf (pieces (exported value)) ++ [Token.punctuator [';']]
  have parsed : parseExpression code.length code = some ((literalOf (exported value) : Expr ν), [.punctuator [';']]) :=
    parseExpression_pieces (exported_steady steady) (exported_valid valid) (by simp [code]) _
  simp only [code] at parsed
  rw [← textOf_programPieces, legible_tokens legible, Option.bind_some, programPieces, tokensOf_append, tokensOf_append]
  simp only [tokensOf_word, tokensOf_space, tokensOf_mark, tokensOf_nil, cons_append, nil_append,
    parseProgram, and_self, if_true, parsed]

end Parse

end N8n.FormatValue
