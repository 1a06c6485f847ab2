import Mathlib.Data.List.Infix
import N8n.JsText

/-! `isFromAIOnlyExpression`: the scan that admits single `$fromAI()` calls, beside the
grammar of calls with literal arguments. -/

namespace N8n.FromAI

open JsText List Option

/-- `FROM_AI_AUTO_GENERATED_MARKER`. -/
def autoGeneratedMarker : List Char := "/*n8n-auto-generated-fromAI-override*/".toList

/-- The text without the `=`, the braces and the marker. -/
def stripDelimiters (expr : List Char) : List Char :=
  let str := trim (if ['='] <+: expr then expr.drop 1 else expr)
  let str :=
    if ['{', '{'] <+: str ∧ ['}', '}'] <:+ str then trim ((str.drop 2).rdrop 2) else str
  if autoGeneratedMarker <+: str then trim (str.drop autoGeneratedMarker.length) else str

def callName : List Char := "$fromai".toList

/-- What follows `/^\$fromAI\s*\(/i`. -/
def readCallHead (str : List Char) : Option (List Char) :=
  if (str.take callName.length).map Char.toLower = callName then
    match (str.drop callName.length).dropWhile isWhiteSpace with
    | '(' :: rest => some rest
    | _ => none
  else none

def isQuote (char : Char) : Bool := char == '"' || char == '\'' || char == '`'

theorem isQuote_eq_false {char : Char} : isQuote char = false ↔ char ≠ '"' ∧ char ≠ '\'' ∧ char ≠ '`' := by
  simp [isQuote, and_assoc]

/-- `/[a-zA-Z0-9.,\s-]/`. -/
def isLiteralChar (char : Char) : Bool :=
  char.isAlphanum || char == '.' || char == ',' || char == '-' || isWhiteSpace char

def isWordChar (char : Char) : Bool := char.isAlphanum || char == '_'

/-- The text behind the closing parenthesis, unless the scan rejects what stands before.
It goes by the open quote and by the last character outside quotes that is no white space. -/
def scanArguments : Option Char → Option Char → List Char → Option (List Char)
  | _, _, [] => none
  | some quote, last, '\\' :: _ :: rest => scanArguments (some quote) last rest
  | some quote, last, char :: rest =>
    if quote = '`' ∧ char = '$' ∧ ['{'] <+: rest then none
    else if char = quote then scanArguments none last rest
    else scanArguments (some quote) last rest
  | none, last, char :: rest =>
    if isQuote char then
      if char = '`' ∧ last.any isWordChar then none
      else scanArguments (some char) (some char) rest
    else if char = ')' then some rest
    else if !isLiteralChar char then none
    else scanArguments none (if isWhiteSpace char then last else some char) rest

def isFromAIOnlyExpression (expr : List Char) : Bool :=
  match readCallHead (stripDelimiters expr) with
  | none => false
  | some rest =>
    match scanArguments none none rest with
    | none => false
    | some remainder => trim remainder == []

section Literals

def isHexDigit (char : Char) : Bool :=
  char.isDigit || ('a' ≤ char && char ≤ 'f') || ('A' ≤ char && char ≤ 'F')

def isCodePoint (rest : List Char) : Bool :=
  let digits := rest.takeWhile isHexDigit
  let significant := digits.dropWhile (· == '0')
  digits ≠ [] && ['}'] <+: rest.drop digits.length &&
    (significant.length < 6 || significant.length == 6 && ['1', '0'] <+: significant)

/-- What has to follow a backslash and `char`. -/
def escapeFollows (quote char : Char) (rest : List Char) : Bool :=
  if char = 'x' then 2 ≤ (rest.takeWhile isHexDigit).length
  else if char = 'u' then
    4 ≤ (rest.takeWhile isHexDigit).length || ['{'] <+: rest && isCodePoint (rest.drop 1)
  else if char.isDigit && quote = '`' then char = '0' && !rest.head?.any Char.isDigit
  else true

/-- What stands between the quotes of a literal: well-formed escapes, and a line break only
in a template. -/
def isStringBody (quote : Char) : List Char → Bool
  | [] => true
  | '\\' :: '\r' :: '\n' :: rest => isStringBody quote rest
  | '\\' :: char :: rest => escapeFollows quote char rest && isStringBody quote rest
  | char :: rest =>
    char != '\\' && char != quote && (quote == '`' || char != '\n' && char != '\r') && isStringBody quote rest

/-- Whether a template holds a `${`. -/
def interpolates : List Char → Bool
  | '\\' :: _ :: rest => interpolates rest
  | '$' :: '{' :: _ => true
  | _ :: rest => interpolates rest
  | [] => false

def isExponent : List Char → Bool
  | [] => true
  | mark :: digits =>
    let unsigned := if ['-'] <+: digits ∨ ['+'] <+: digits then digits.drop 1 else digits
    (mark == 'e' || mark == 'E') && unsigned ≠ [] && unsigned.all Char.isDigit

def isDecimal (text : List Char) : Bool :=
  let whole := text.takeWhile Char.isDigit
  match text.dropWhile Char.isDigit with
  | '.' :: rest =>
    (whole ≠ [] || rest.takeWhile Char.isDigit ≠ []) && isExponent (rest.dropWhile Char.isDigit)
  | rest => whole ≠ [] && isExponent rest

def isRadixDigit (mark char : Char) : Bool :=
  if mark = 'x' ∨ mark = 'X' then isHexDigit char
  else if mark = 'o' ∨ mark = 'O' then '0' ≤ char && char ≤ '7'
  else if mark = 'b' ∨ mark = 'B' then char == '0' || char == '1'
  else false

def isUnsigned : List Char → Bool
  | '0' :: mark :: digit :: digits =>
    (digit :: digits).all (isRadixDigit mark) || isDecimal ('0' :: mark :: digit :: digits)
  | text => isDecimal text

def isNumber : List Char → Bool
  | '-' :: text => isUnsigned text
  | text => isUnsigned text

def isWord (text : List Char) : Bool :=
  text == "true".toList || text == "false".toList || isNumber text

inductive Literal : List Char → Prop
  | word {text : List Char} : isWord text = true → Literal text
  | string {quote : Char} {body : List Char} : isQuote quote = true →
      isStringBody quote body = true → (quote = '`' → interpolates body = false) →
      Literal (quote :: body ++ [quote])

def Blank (text : List Char) : Prop := ∀ char ∈ text, isWhiteSpace char = true

def Argument (text : List Char) : Prop :=
  ∃ before literal after, text = before ++ literal ++ after ∧ Blank before ∧ Literal literal ∧ Blank after

/-- Literals with commas between them, or none. -/
def ArgumentList (args : List Char) : Prop :=
  Blank args ∨ ∃ pieces ≠ [], args = [','].intercalate pieces ∧ ∀ piece ∈ pieces, Argument piece

/-- One call of `$fromAI` on literals, and nothing else. -/
def LiteralCall (text : List Char) : Prop :=
  ∃ name gap args tail, text = name ++ gap ++ '(' :: (args ++ ')' :: tail) ∧
    name.map Char.toLower = callName ∧ Blank gap ∧ ArgumentList args ∧ Blank tail

end Literals

section Items

/-- A character outside quotes, or all that stands between two quotes. -/
inductive Item where
  | plain (char : Char)
  | quoted (quote : Char) (body : List Char)
  deriving DecidableEq

def Item.text : Item → List Char
  | plain char => [char]
  | quoted quote body => quote :: body ++ [quote]

def textOf (items : List Item) : List Char := items.flatMap Item.text

@[simp] theorem textOf_nil : textOf [] = [] := rfl

@[simp] theorem textOf_cons (item : Item) (items : List Item) :
    textOf (item :: items) = item.text ++ textOf items := rfl

@[simp] theorem textOf_append (items more : List Item) :
    textOf (items ++ more) = textOf items ++ textOf more := flatMap_append

@[simp] theorem textOf_plain (text : List Char) : textOf (text.map .plain) = text := by
  induction text with
  | nil => rfl
  | cons char text ih => rw [map_cons, textOf_cons, ih]; rfl

/-- The items up to the first closing parenthesis outside quotes, and what follows it. An
open quote comes with what was read since, the last character first. -/
def readItems : Option (Char × List Char) → List Char → Option (List Item × List Char)
  | _, [] => none
  | some (quote, body), '\\' :: char :: rest => readItems (some (quote, char :: '\\' :: body)) rest
  | some (quote, body), char :: rest =>
    if char = quote then (readItems none rest).map (Prod.map (.quoted quote body.reverse :: ·) id)
    else readItems (some (quote, char :: body)) rest
  | none, char :: rest =>
    if isQuote char then readItems (some (char, [])) rest
    else if char = ')' then some ([], rest)
    else (readItems none rest).map (Prod.map (.plain char :: ·) id)

def openText : Option (Char × List Char) → List Char
  | none => []
  | some (quote, body) => quote :: body.reverse

variable {items : List Item} {tail : List Char}

theorem map_item_some {read : Option (List Item × List Char)} {item : Item}
    (found : read.map (Prod.map (item :: ·) id) = some (items, tail)) :
    ∃ rest, read = some (rest, tail) ∧ items = item :: rest := by
  obtain ⟨⟨rest, tail'⟩, taken, same⟩ := map_eq_some_iff.mp found
  obtain ⟨rfl, rfl⟩ := Prod.mk.inj same
  exact ⟨rest, taken, rfl⟩

variable {text : List Char} {state : Option (Char × List Char)}

theorem readItems_text (read : readItems state text = some (items, tail)) :
    openText state ++ text = textOf items ++ ')' :: tail := by
  fun_induction readItems state text generalizing items with
  | case1 => cases read
  | case2 quote body char rest ih => simpa [openText] using ih read
  | case3 quote body rest _ ih =>
    obtain ⟨items, taken, rfl⟩ := map_item_some read
    simpa [openText, Item.text] using ih taken
  | case4 quote body char rest _ differs ih => simpa [openText] using ih read
  | case5 char rest opens ih => simpa [openText] using ih read
  | case6 rest opens =>
    obtain ⟨rfl, rfl⟩ := Prod.mk.inj (some.inj read)
    rfl
  | case7 char rest opens closes ih =>
    obtain ⟨items, taken, rfl⟩ := map_item_some read
    simpa [openText, Item.text] using ih taken

def Item.Admitted : Item → Prop
  | plain char => isLiteralChar char = true
  | quoted quote body => isQuote quote = true ∧ (quote = '`' → interpolates body = false)

variable {body : List Char}

theorem interpolates_append (more : List Char)
    (found : interpolates body = true) : interpolates (body ++ more) = true := by
  fun_induction interpolates body with
  | case1 char rest ih => exact ih found
  | case2 rest => rfl
  | case3 char rest notEscape notOpen ih =>
    rw [cons_append, interpolates]
    · exact ih found
    · rintro next tail rfl same
      cases rest with
      | nil => cases found
      | cons other rest => exact notEscape other rest rfl rfl
    · rintro tail rfl same
      cases rest with
      | nil => cases found
      | cons other rest =>
        obtain ⟨rfl, -⟩ := List.cons.inj same
        exact notOpen rest rfl rfl
  | case4 => cases found

def Uninterpolated (rest : List Char) (state : Option (Char × List Char)) : Prop :=
  ∀ quote body, state = some (quote, body) → isQuote quote = true ∧ (quote = '`' →
    ∀ more, more.head? = rest.head? → interpolates (body.reverse ++ more) = interpolates more)

variable {rest : List Char}

theorem Uninterpolated.outside : Uninterpolated rest none :=
  fun _ _ same => by cases same

variable {quote : Char}

theorem Uninterpolated.opened (quotes : isQuote quote = true) : Uninterpolated rest (some (quote, [])) := by
  rintro quote' body same
  obtain ⟨rfl, rfl⟩ := Prod.mk.inj (some.inj same)
  exact ⟨quotes, fun _ more _ => rfl⟩

theorem Uninterpolated.closed (h : Uninterpolated (quote :: rest) (some (quote, body))) :
    isQuote quote = true ∧ (quote = '`' → interpolates body.reverse = false) := by
  obtain ⟨quotes, verdict⟩ := h quote body rfl
  refine ⟨quotes, ?_⟩
  rintro rfl
  have ends := verdict rfl ['`'] rfl
  rw [Bool.eq_false_iff]
  intro found
  rw [interpolates_append _ found] at ends
  cases ends

theorem Uninterpolated.escape {char : Char} (h : Uninterpolated ('\\' :: char :: rest) (some (quote, body))) :
    Uninterpolated rest (some (quote, char :: '\\' :: body)) := by
  rintro quote' body' same
  obtain ⟨rfl, rfl⟩ := Prod.mk.inj (some.inj same)
  obtain ⟨quotes, verdict⟩ := h _ _ rfl
  refine ⟨quotes, fun template more _ => ?_⟩
  have step := verdict template ('\\' :: char :: more) rfl
  simpa [interpolates] using step

theorem Uninterpolated.plain {char : Char} (h : Uninterpolated (char :: rest) (some (quote, body)))
    (notEscape : ∀ next tail, char = '\\' → rest = next :: tail → False)
    (uncut : ¬(quote = '`' ∧ char = '$' ∧ ['{'] <+: rest)) :
    Uninterpolated rest (some (quote, char :: body)) := by
  rintro quote' body' same
  obtain ⟨rfl, rfl⟩ := Prod.mk.inj (some.inj same)
  obtain ⟨quotes, verdict⟩ := h _ _ rfl
  refine ⟨quotes, fun template more first => ?_⟩
  have step := verdict template (char :: more) rfl
  rw [reverse_cons, append_assoc, singleton_append, step, interpolates]
  · rintro next tail escape rfl
    obtain ⟨tail, rfl⟩ := head?_eq_some_iff.mp first.symm
    exact notEscape next tail escape rfl
  · rintro tail dollar rfl
    obtain ⟨tail, rfl⟩ := head?_eq_some_iff.mp first.symm
    exact uncut ⟨template, dollar, ⟨tail, rfl⟩⟩

theorem scanArguments_items {last : Option Char}
    (opened : Uninterpolated text state) (scanned : scanArguments (state.map Prod.fst) last text = some tail) :
    ∃ items, readItems state text = some (items, tail) ∧ ∀ item ∈ items, item.Admitted := by
  fun_induction readItems state text generalizing last with
  | case1 state => cases state <;> cases scanned
  | case2 quote body char rest ih => exact ih opened.escape scanned
  | case3 body char rest notEscape ih =>
    rw [map_some, scanArguments] at scanned
    · rw [if_pos rfl] at scanned
      obtain ⟨items, read, admitted⟩ := ih .outside (ite_none_left_eq_some.mp scanned).2
      rw [read]
      exact ⟨_, rfl, forall_mem_cons.mpr ⟨opened.closed, admitted⟩⟩
    · exact notEscape
  | case4 quote body char rest notEscape differs ih =>
    rw [map_some, scanArguments] at scanned
    · rw [if_neg differs] at scanned
      obtain ⟨uncut, scanned⟩ := ite_none_left_eq_some.mp scanned
      exact ih (opened.plain notEscape uncut) scanned
    · exact notEscape
  | case5 char rest opens ih =>
    rw [map_none, scanArguments, if_pos opens] at scanned
    exact ih (.opened opens) (ite_none_left_eq_some.mp scanned).2
  | case6 rest opens =>
    rw [map_none, scanArguments, if_neg opens, if_pos rfl] at scanned
    exact ⟨[], by rw [some.inj scanned], by simp⟩
  | case7 char rest opens closes ih =>
    rw [map_none, scanArguments, if_neg opens, if_neg closes] at scanned
    obtain ⟨admits, scanned⟩ := ite_none_left_eq_some.mp scanned
    obtain ⟨items, read, admitted⟩ := ih .outside scanned
    rw [read]
    refine ⟨_, rfl, forall_mem_cons.mpr ⟨?_, admitted⟩⟩
    simpa [Item.Admitted] using admits

/-- Whatever follows it, `text` is read as `items`. -/
def Reads (text : List Char) (items : List Item) : Prop :=
  ∀ rest, readItems none (text ++ rest) = (readItems none rest).map (Prod.map (items ++ ·) id)

theorem Reads.nil : Reads [] [] := fun rest => by
  rw [nil_append]
  cases readItems none rest <;> rfl

theorem Reads.append {more : List Char} {others : List Item} (left : Reads text items)
    (right : Reads more others) : Reads (text ++ more) (items ++ others) := fun rest => by
  rw [append_assoc, left, right]
  cases readItems none rest <;> simp [Prod.map]

theorem Reads.plain (plain : ∀ char ∈ text, isQuote char = false ∧ char ≠ ')') : Reads text (text.map .plain) := by
  induction text with
  | nil => exact .nil
  | cons char text ih =>
    obtain ⟨⟨unquoted, inside⟩, others⟩ := forall_mem_cons.mp plain
    intro rest
    rw [cons_append, readItems, if_neg (by simp [unquoted]), if_neg inside, ih others]
    cases readItems none rest <;> simp [Prod.map]

theorem readItems_body (quotes : isQuote quote = true)
    (closed : isStringBody quote body = true) (done rest : List Char) :
    readItems (some (quote, done)) (body ++ quote :: rest) =
      (readItems none rest).map (Prod.map (.quoted quote (done.reverse ++ body) :: ·) id) := by
  have unescaped : quote ≠ '\\' := by rintro rfl; cases quotes
  fun_induction isStringBody quote body generalizing done with
  | case1 => simp [readItems, unescaped]
  | case2 body ih =>
    have plain : ¬ '\n' = quote := by rintro rfl; cases quotes
    rw [cons_append, cons_append, cons_append, readItems, readItems, if_neg plain, ih closed]
    · simp
    · exact fun _ _ escape => absurd escape (by decide)
  | case3 char body _ ih =>
    rw [Bool.and_eq_true] at closed
    simp only [cons_append, readItems]
    rw [ih closed.2]
    simp
  | case4 char body notBreak notEscape ih =>
    simp only [Bool.and_eq_true, bne_iff_ne, ne_eq] at closed
    obtain ⟨⟨⟨plain, inside⟩, _⟩, closed⟩ := closed
    rw [cons_append, readItems, if_neg inside, ih closed]
    · simp
    · exact fun _ _ escape => absurd escape plain

theorem Reads.quoted (quotes : isQuote quote = true) (closed : isStringBody quote body = true) :
    Reads (quote :: body ++ [quote]) [.quoted quote body] := fun rest => by
  rw [append_assoc, cons_append, readItems, if_pos quotes, singleton_append,
    readItems_body quotes closed]
  rfl

end Items

section Pieces

def isSpaceItem : Item → Bool
  | .plain char => isWhiteSpace char
  | .quoted _ _ => false

def trimItems (items : List Item) : List Item :=
  (items.dropWhile isSpaceItem).rdropWhile isSpaceItem

def wordOf : List Item → Option (List Char)
  | [] => some []
  | .plain char :: items => (wordOf items).map (char :: ·)
  | .quoted _ _ :: _ => none

/-- One quoted section or one word, with white space around it. -/
def isLiteralPiece (piece : List Item) : Bool :=
  match trimItems piece with
  | [.quoted quote body] => isStringBody quote body
  | items => (wordOf items).any isWord

/-- Every piece between commas is a literal, or there is nothing but white space. -/
def piecesLiteral (items : List Item) : Bool :=
  items.all isSpaceItem || (items.splitOn (.plain ',')).all isLiteralPiece

variable {items : List Item}

theorem wordOf_some {word : List Char} (found : wordOf items = some word) : items = word.map .plain := by
  induction items generalizing word with
  | nil => simp [wordOf] at found; simp [← found]
  | cons item items ih =>
    cases item with
    | quoted => cases found
    | plain char =>
      obtain ⟨rest, taken, rfl⟩ := map_eq_some_iff.mp found
      rw [ih taken, map_cons]

@[simp] theorem wordOf_plain (word : List Char) : wordOf (word.map .plain) = some word := by
  induction word with
  | nil => rfl
  | cons char word ih => rw [map_cons, wordOf, ih, map_some]

theorem space_items (blank : ∀ item ∈ items, isSpaceItem item = true) : Blank (textOf items) := by
  intro char member
  obtain ⟨item, listed, member⟩ := mem_flatMap.mp member
  have space := blank item listed
  cases item with
  | quoted => cases space
  | plain letter => rwa [mem_singleton.mp member]

theorem trimItems_split (items : List Item) : ∃ before after, items = before ++ trimItems items ++ after ∧
      (∀ item ∈ before, isSpaceItem item = true) ∧ ∀ item ∈ after, isSpaceItem item = true := by
  refine ⟨items.takeWhile isSpaceItem, (items.dropWhile isSpaceItem).rtakeWhile isSpaceItem, ?_,
    fun item member => mem_takeWhile_imp member, fun item member => ?_⟩
  · rw [append_assoc, trimItems, rdropWhile_append_rtakeWhile, takeWhile_append_dropWhile]
  · exact mem_rtakeWhile_imp member

theorem trimItems_between {before after : List Item} (blankBefore : ∀ item ∈ before, isSpaceItem item = true)
    (solid : ∀ item ∈ items, isSpaceItem item = false) (filled : items ≠ [])
    (blankAfter : ∀ item ∈ after, isSpaceItem item = true) : trimItems (before ++ items ++ after) = items :=
  drop_between blankBefore (fun item first => solid item (mem_of_head? first))
    (fun item last => solid item (mem_of_getLast? last)) filled blankAfter

theorem argument_of_piece {piece : List Item} (admitted : ∀ item ∈ piece, item.Admitted)
    (literal : isLiteralPiece piece = true) : Argument (textOf piece) := by
  obtain ⟨before, after, split, blankBefore, blankAfter⟩ := trimItems_split piece
  have within : ∀ item ∈ trimItems piece, item ∈ piece := fun item member => by
    rw [split]
    exact mem_append_left _ (mem_append_right _ member)
  refine ⟨textOf before, textOf (trimItems piece), textOf after, ?_, space_items blankBefore, ?_,
    space_items blankAfter⟩
  · rw [← textOf_append, ← textOf_append, ← split]
  · rw [isLiteralPiece] at literal
    split at literal
    · rename_i quote body trimmed
      have quotes := admitted _ (within (.quoted quote body) (by simp [trimmed]))
      rw [trimmed, textOf_cons, textOf_nil, append_nil]
      exact .string quotes.1 literal quotes.2
    · obtain ⟨word, found, good⟩ := (any_eq_true _ _).mp literal
      rw [wordOf_some found, textOf_plain]
      exact .word good

theorem textOf_intercalate (pieces : List (List Item)) :
    textOf ([.plain ','].intercalate pieces) = [','].intercalate (pieces.map textOf) := by
  match pieces with
  | [] => rfl
  | [piece] => simp only [intercalate_singleton, map_cons, map_nil]
  | piece :: next :: rest =>
    simp only [intercalate_cons_cons, textOf_append, map_cons]
    rw [textOf_intercalate (next :: rest)]
    rfl

theorem mem_intercalate {α : Type} {separator xs : List α} {x : α} {pieces : List (List α)}
    (listed : xs ∈ pieces) (member : x ∈ xs) : x ∈ separator.intercalate pieces := by
  match pieces, listed with
  | [piece], listed => rwa [intercalate_singleton, ← mem_singleton.mp listed]
  | piece :: next :: rest, listed =>
    rw [intercalate_cons_cons]
    cases mem_cons.mp listed with
    | inl here => exact mem_append_left _ (mem_append_left _ (here ▸ member))
    | inr later => exact mem_append_right _ (mem_intercalate later member)

theorem argumentList_of_pieces (admitted : ∀ item ∈ items, item.Admitted)
    (literal : piecesLiteral items = true) : ArgumentList (textOf items) := by
  rw [piecesLiteral, Bool.or_eq_true] at literal
  cases literal with
  | inl blank => exact .inl (space_items (List.all_eq_true.mp blank))
  | inr pieces =>
    have rejoined : [Item.plain ','].intercalate (items.splitOn (.plain ',')) = items :=
      intercalate_splitOn _
    refine .inr ⟨(items.splitOn (.plain ',')).map textOf, ?_, ?_, ?_⟩
    · simp
    · rw [← textOf_intercalate, rejoined]
    · intro text listed
      obtain ⟨piece, member, rfl⟩ := List.mem_map.mp listed
      refine argument_of_piece (fun item inside => admitted item ?_) (List.all_eq_true.mp pieces piece member)
      rw [← rejoined]
      exact mem_intercalate member inside

end Pieces

section Reading

def isNumberChar (char : Char) : Bool :=
  char.isAlphanum || char == '.' || char == '-' || char == '+'

variable {text : List Char}

theorem digits_chars (digits : text.all Char.isDigit = true) : text.all isNumberChar = true := by
  rw [List.all_eq_true] at digits ⊢
  intro char member
  simp [isNumberChar, Char.isAlphanum, digits char member]

theorem isExponent_chars (exponent : isExponent text = true) : text.all isNumberChar = true := by
  match text with
  | [] => rfl
  | mark :: digits =>
    simp only [isExponent, Bool.and_eq_true, Bool.or_eq_true, beq_iff_eq] at exponent
    obtain ⟨⟨marked, _⟩, digitsOnly⟩ := exponent
    have first : isNumberChar mark = true := by obtain rfl | rfl := marked <;> rfl
    rw [all_cons, first, Bool.true_and]
    split_ifs at digitsOnly with signed
    · have tail := digits_chars digitsOnly
      obtain ⟨rest, rfl⟩ | ⟨rest, rfl⟩ := signed <;> exact tail
    · exact digits_chars digitsOnly

theorem all_of_dropWhile (rest : (text.dropWhile Char.isDigit).all isNumberChar = true) :
    text.all isNumberChar = true := by
  rw [← takeWhile_append_dropWhile (p := Char.isDigit) (l := text), all_append, rest, Bool.and_true]
  exact digits_chars (List.all_eq_true.mpr fun char member => mem_takeWhile_imp member)

theorem isDecimal_chars (decimal : isDecimal text = true) : text ≠ [] ∧ text.all isNumberChar = true := by
  refine ⟨(by rintro rfl; cases decimal), all_of_dropWhile ?_⟩
  rw [isDecimal] at decimal
  split at decimal
  · rename_i rest dropped
    rw [dropped, all_cons]
    rw [Bool.and_eq_true] at decimal
    exact all_of_dropWhile (isExponent_chars decimal.2)
  · rw [Bool.and_eq_true] at decimal
    exact isExponent_chars decimal.2

variable {char : Char}

theorem isHexDigit_alphanum (digit : isHexDigit char = true) : char.isAlphanum = true := by
  simp only [isHexDigit, Bool.or_eq_true, Bool.and_eq_true, decide_eq_true_eq] at digit
  obtain (decimal | ⟨low, high⟩) | ⟨low, high⟩ := digit
  · simp [Char.isAlphanum, decimal]
  · have bounds : 97 ≤ char.toNat ∧ char.toNat ≤ 102 := ⟨low, high⟩
    exact alphanum_iff.mpr (by omega)
  · have bounds : 65 ≤ char.toNat ∧ char.toNat ≤ 70 := ⟨low, high⟩
    exact alphanum_iff.mpr (by omega)

theorem isRadixDigit_chars {mark : Char} (digit : isRadixDigit mark char = true) :
    isNumberChar mark = true ∧ isNumberChar char = true := by
  have letter {c : Char} (h : c.isAlphanum = true) : isNumberChar c = true := by
    simp [isNumberChar, h]
  rw [isRadixDigit] at digit
  split_ifs at digit with hex octal binary
  · exact ⟨by obtain rfl | rfl := hex <;> rfl, letter (isHexDigit_alphanum digit)⟩
  · rw [Bool.and_eq_true, decide_eq_true_eq, decide_eq_true_eq] at digit
    have bounds : 48 ≤ char.toNat ∧ char.toNat ≤ 55 := digit
    exact ⟨by obtain rfl | rfl := octal <;> rfl, letter (alphanum_iff.mpr (by omega))⟩
  · rw [Bool.or_eq_true, beq_iff_eq, beq_iff_eq] at digit
    exact ⟨by obtain rfl | rfl := binary <;> rfl, by obtain rfl | rfl := digit <;> rfl⟩

theorem isUnsigned_chars (unsigned : isUnsigned text = true) : text ≠ [] ∧ text.all isNumberChar = true := by
  rw [isUnsigned.eq_def] at unsigned
  split at unsigned
  · rename_i mark digit digits
    cases radix : (digit :: digits).all (isRadixDigit mark) with
    | true =>
      refine ⟨by simp, ?_⟩
      have each := List.all_eq_true.mp radix
      rw [all_cons, all_cons, (isRadixDigit_chars (each digit (by simp))).1]
      simpa [isNumberChar] using fun char member => (isRadixDigit_chars (each char member)).2
    | false =>
      rw [radix, Bool.false_or] at unsigned
      exact isDecimal_chars unsigned
  · exact isDecimal_chars unsigned

theorem isNumber_chars (number : isNumber text = true) : text ≠ [] ∧ text.all isNumberChar = true := by
  match text with
  | [] => cases number
  | char :: rest =>
    refine ⟨by simp, ?_⟩
    rw [isNumber.eq_def] at number
    split at number
    · rename_i rest same
      obtain ⟨rfl, rfl⟩ := List.cons.inj same
      exact (isUnsigned_chars number).2
    · exact (isUnsigned_chars number).2

theorem isNumberChar_solid (h : isNumberChar char = true) :
    isQuote char = false ∧ char ≠ ')' ∧ char ≠ ',' ∧ isWhiteSpace char = false := by
  simp only [isNumberChar, Bool.or_eq_true, beq_iff_eq] at h
  obtain ((letter | rfl) | rfl) | rfl := h
  · have other (mark : Char) (h : mark.isAlphanum = false) : char ≠ mark := by
      rintro rfl
      rw [letter] at h
      cases h
    exact ⟨isQuote_eq_false.mpr ⟨other _ rfl, other _ rfl, other _ rfl⟩, other _ rfl, other _ rfl,
      alphanum_solid letter⟩
  all_goals decide

theorem isWord_solid (word : isWord text = true) :
    text ≠ [] ∧ ∀ char ∈ text, isQuote char = false ∧ char ≠ ')' ∧ char ≠ ',' ∧ isWhiteSpace char = false := by
  simp only [isWord, Bool.or_eq_true, beq_iff_eq] at word
  have letters : text ≠ [] ∧ text.all isNumberChar = true := by
    obtain (rfl | rfl) | number := word
    · decide
    · decide
    · exact isNumber_chars number
  exact ⟨letters.1, fun char member => isNumberChar_solid (List.all_eq_true.mp letters.2 char member)⟩

theorem Blank.plain (blank : Blank text) : ∀ char ∈ text, isQuote char = false ∧ char ≠ ')' := by
  intro char member
  have other (mark : Char) (h : isWhiteSpace mark = false) : char ≠ mark := by
    rintro rfl
    rw [blank char member] at h
    cases h
  exact ⟨isQuote_eq_false.mpr ⟨other _ rfl, other _ rfl, other _ rfl⟩, other _ rfl⟩

theorem reads_of_literal (literal : Literal text) :
    ∃ items ≠ [], Reads text items ∧ (∀ item ∈ items, isSpaceItem item = false) ∧
      .plain ',' ∉ items ∧ ∀ piece, trimItems piece = items → isLiteralPiece piece = true := by
  cases literal with
  | word word =>
    obtain ⟨filled, solid⟩ := isWord_solid word
    refine ⟨text.map .plain, by simpa using filled, ?_, ?_, ?_, fun piece trimmed => ?_⟩
    · exact .plain fun char member => ⟨(solid char member).1, (solid char member).2.1⟩
    · simp only [List.mem_map, forall_exists_index, and_imp, forall_apply_eq_imp_iff₂]
      exact fun char member => (solid char member).2.2.2
    · simp only [List.mem_map, Item.plain.injEq, exists_eq_right]
      exact fun comma => (solid ',' comma).2.2.1 rfl
    · rw [isLiteralPiece, trimmed]
      split
      · rename_i quote body same
        cases text <;> cases same
      · rw [wordOf_plain, any_some, word]
  | string quotes closed _ =>
    exact ⟨_, by simp, .quoted quotes closed, by simp [isSpaceItem], by simp,
      fun piece trimmed => by rw [isLiteralPiece, trimmed]; exact closed⟩

theorem Reads.blank (blank : Blank text) : Reads text (text.map .plain) :=
  .plain blank.plain

theorem space_of_blank (blank : Blank text) : ∀ item ∈ text.map Item.plain, isSpaceItem item = true := by
  simp only [List.mem_map, forall_exists_index, and_imp, forall_apply_eq_imp_iff₂]
  exact blank

theorem comma_notMem {items : List Item} (blank : ∀ item ∈ items, isSpaceItem item = true) :
    .plain ',' ∉ items := fun comma => absurd (blank _ comma) (by decide)

theorem reads_of_argument (argument : Argument text) :
    ∃ items, Reads text items ∧ .plain ',' ∉ items ∧ isLiteralPiece items = true := by
  obtain ⟨before, literal, after, rfl, blankBefore, literal, blankAfter⟩ := argument
  obtain ⟨items, filled, reads, solid, unsplit, good⟩ := reads_of_literal literal
  have spaceBefore := space_of_blank blankBefore
  have spaceAfter := space_of_blank blankAfter
  refine ⟨_, ((Reads.blank blankBefore).append reads).append (Reads.blank blankAfter), ?_, ?_⟩
  · simp only [mem_append, not_or]
    exact ⟨⟨comma_notMem spaceBefore, unsplit⟩, comma_notMem spaceAfter⟩
  · exact good _ (trimItems_between spaceBefore solid filled spaceAfter)

theorem reads_of_pieces {pieces : List (List Char)} (arguments : ∀ piece ∈ pieces, Argument piece) :
    ∃ read : List (List Item), read.length = pieces.length ∧
      Reads ([','].intercalate pieces) ([.plain ','].intercalate read) ∧
      ∀ items ∈ read, .plain ',' ∉ items ∧ isLiteralPiece items = true := by
  match pieces with
  | [] => exact ⟨[], rfl, .nil, by simp⟩
  | [piece] =>
    obtain ⟨items, reads, good⟩ := reads_of_argument (arguments piece (by simp))
    exact ⟨[items], rfl, by simpa using reads, by simpa using good⟩
  | piece :: next :: rest =>
    obtain ⟨items, reads, good⟩ := reads_of_argument (arguments piece (by simp))
    obtain ⟨read, length, others, goods⟩ := reads_of_pieces
      fun piece (member : piece ∈ next :: rest) => arguments piece (mem_cons_of_mem _ member)
    obtain ⟨first, more, rfl⟩ := exists_cons_of_length_eq_add_one length
    refine ⟨items :: first :: more, by simpa using length, ?_, forall_mem_cons.mpr ⟨good, goods⟩⟩
    have comma : Reads [','] [.plain ','] := .plain (by simp [isQuote])
    rw [intercalate_cons_cons, intercalate_cons_cons]
    exact (reads.append comma).append others

theorem reads_of_argumentList {args : List Char} (list : ArgumentList args) :
    ∃ items, Reads args items ∧ piecesLiteral items = true := by
  rcases list with blank | ⟨pieces, filled, rfl, arguments⟩
  · refine ⟨_, .blank blank, ?_⟩
    rw [piecesLiteral, List.all_eq_true.mpr (space_of_blank blank), Bool.true_or]
  · obtain ⟨read, length, reads, good⟩ := reads_of_pieces arguments
    have some : read ≠ [] := by
      rintro rfl
      exact filled (length_eq_zero_iff.mp length.symm)
    refine ⟨_, reads, ?_⟩
    rw [piecesLiteral, splitOn_intercalate _ (fun items member => (good items member).1) some,
      List.all_eq_true.mpr fun items member => (good items member).2, Bool.or_true]

end Reading

section Calls

theorem readCallHead_some {text rest : List Char} (read : readCallHead text = some rest) :
    ∃ name gap, text = name ++ gap ++ '(' :: rest ∧ name.map Char.toLower = callName ∧
      Blank gap := by
  rw [readCallHead] at read
  split_ifs at read with named
  split at read
  · rename_i rest' dropped
    obtain rfl := some.inj read
    refine ⟨_, (text.drop callName.length).takeWhile isWhiteSpace, ?_, named,
      fun char member => mem_takeWhile_imp member⟩
    rw [append_assoc, ← dropped, takeWhile_append_dropWhile, take_append_drop]
  · cases read

theorem readCallHead_call {name gap : List Char} (named : name.map Char.toLower = callName)
    (blank : Blank gap) (rest : List Char) :
    readCallHead (name ++ gap ++ '(' :: rest) = some rest := by
  have length : name.length = callName.length := by rw [← named, length_map]
  rw [readCallHead, append_assoc, ← length, take_left, if_pos named, drop_left,
    dropWhile_append_of_pos blank]
  rfl

/-- Between the parentheses every piece is one word or one quoted section, and well formed. -/
def hasLiteralArguments (text : List Char) : Bool :=
  ((readCallHead text).bind (readItems none)).any fun (items, _) => piecesLiteral items

theorem hasLiteralArguments_of_call {text : List Char} (call : LiteralCall text) : hasLiteralArguments text = true := by
  obtain ⟨name, gap, args, tail, rfl, named, blank, list, -⟩ := call
  obtain ⟨items, reads, literal⟩ := reads_of_argumentList list
  rw [hasLiteralArguments, readCallHead_call named blank, bind_some, reads]
  simpa [readItems, isQuote] using literal

/-- What acceptance says about the text: a call, admitted items, and white space. -/
theorem items_of_accepted {expr : List Char} (accepted : isFromAIOnlyExpression expr = true) :
    ∃ rest items tail, readCallHead (stripDelimiters expr) = some rest ∧
      readItems none rest = some (items, tail) ∧ (∀ item ∈ items, item.Admitted) ∧ Blank tail := by
  rw [isFromAIOnlyExpression] at accepted
  split at accepted
  · cases accepted
  · rename_i rest head
    split at accepted
    · cases accepted
    · rename_i tail scanned
      have opened : Uninterpolated rest none := .outside
      obtain ⟨items, read, admitted⟩ := scanArguments_items opened scanned
      exact ⟨rest, items, tail, head, read, admitted, trim_eq_nil.mp (beq_iff_eq.mp accepted)⟩

end Calls

end N8n.FromAI
