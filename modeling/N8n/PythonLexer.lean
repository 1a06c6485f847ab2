import N8n.PythonLines

/-! Python's lexical rules for line breaks, line joins, brackets, string literals and indentation. -/

namespace N8n.Python

inductive Quote where
  | single
  | double
  deriving DecidableEq

def Quote.char : Quote → Char
  | .single => '\''
  | .double => '"'

/-- A string literal; `spec` inside the format specification of one of its replacement fields. -/
structure Literal where
  quote : Quote
  triple : Bool
  formatted : Bool
  raw : Bool
  spec : Bool
  deriving DecidableEq

/-- What a logical line consists of: names, numbers and operators character by character. -/
inductive Item where
  | blank
  | char (char : Char)
  | text (text : List Char)
  deriving DecidableEq

/-- A replacement field keeps its source, which `{x=}` puts into the string. -/
inductive Frame where
  | bracket (opening : Char)
  | field (literal : Literal) (source : List Char)
  deriving DecidableEq

inductive Scan where
  | plain
  | closing (quotes : ℕ)
  | escaped
  | named
  | name
  | opened
  | closed
  deriving DecidableEq

inductive Mode where
  | code
  | joining
  | comment
  | quoted (literal : Literal) (twice : Bool)
  | text (literal : Literal) (scan : Scan) (chars : List Char)
  deriving DecidableEq

/-- A logical line and what stands in front of it. -/
structure RawLine where
  lead : List Char
  items : List Item
  deriving DecidableEq

structure State where
  mode : Mode
  stack : List Frame
  lead : List Char
  items : List Item
  lines : List RawLine
  deriving DecidableEq

def start : State := { mode := .code, stack := [], lead := [], items := [], lines := [] }

def identifierChar (char : Char) : Bool := char.isAlphanum || char == '_' || 128 ≤ char.toNat

def prefixOf : List Item → List Char
  | .char char :: items => if identifierChar char then prefixOf items ++ [char.toLower] else []
  | _ => []

def literalAt (items : List Item) (quote : Quote) : Literal :=
  let letters := prefixOf items
  { quote, triple := false, spec := false, raw := letters.contains 'r',
    formatted := letters == ['f'] || letters == ['f', 'r'] || letters == ['r', 'f'] }

def closes : Char → Char → Bool
  | '(', ')' => true
  | '[', ']' => true
  | '{', '}' => true
  | _, _ => false

namespace State

def push (state : State) (item : Item) : State := { state with items := item :: state.items }

/-- Before the first item of a line a space belongs to its indentation. -/
def space (state : State) (char : Char) : State :=
  match state.items with
  | [] => { state with lead := state.lead ++ [char] }
  | .blank :: _ => state
  | _ => state.push .blank

/-- The end of a line that holds nothing but spaces and a comment is skipped. -/
def newline (state : State) : State :=
  match state.items, state.stack with
  | [], _ => { state with lead := [] }
  | items, [] => { state with lead := [], items := [], lines := ⟨state.lead, items.reverse⟩ :: state.lines }
  | _, _ => state.space '\n'

end State

def endsInEquals : List Item → Bool
  | .char char :: _ => char == '='
  | .blank :: .char char :: _ => char == '='
  | _ => false

/-- `{x=}` puts the source of the field into the string. -/
def debug (items : List Item) (source : List Char) : List Item :=
  if endsInEquals items then .text source :: items else items

def codeStep (state : State) (char : Char) : Option State :=
  if char = '\n' then some state.newline
  else if char = ' ' ∨ char = '\t' ∨ char = '\x0c' then some (state.space char)
  else if isSpace char then none
  else if char = '#' then some { state with mode := .comment }
  else if char = '\\' then some { state with mode := .joining }
  else if char = '"' then
    some { state.push (.char char) with mode := .quoted (literalAt state.items .double) false }
  else if char = '\'' then
    some { state.push (.char char) with mode := .quoted (literalAt state.items .single) false }
  else if char = '(' ∨ char = '[' ∨ char = '{' then
    some { state.push (.char char) with stack := .bracket char :: state.stack }
  else if char = ')' ∨ char = ']' ∨ char = '}' then
    match state.stack with
    | .bracket opening :: stack => if closes opening char then some { state.push (.char char) with stack } else none
    | .field literal source :: stack =>
      if char = '}' then
        some { state with mode := .text literal .plain [], stack, items := .char char :: debug state.items source }
      else none
    | [] => none
  else if char = ':' ∨ char = '!' then
    match state.stack with
    | .field literal source :: _ =>
      some { state with
        mode := if char = ':' then .text { literal with spec := true } .plain [] else .code
        items := .char char :: debug state.items source }
    | _ => some (state.push (.char char))
  else some (state.push (.char char))

def close (state : State) (literal : Literal) (chars : List Char) : Option State :=
  if literal.spec then none
  else
    some { state with
      mode := .code
      items := List.replicate (if literal.triple then 3 else 1) (.char literal.quote.char) ++
        .text chars :: state.items }

def plainStep (state : State) (literal : Literal) (chars : List Char) (char : Char) : Option State :=
  if char = literal.quote.char then
    if literal.triple then some { state with mode := .text literal (.closing 1) chars } else close state literal chars
  else if char = '\n' ∧ literal.triple = false then none
  else if char = '\\' then some { state with mode := .text literal .escaped (chars ++ [char]) }
  else if literal.formatted ∧ char = '{' then some { state with mode := .text literal .opened chars }
  else if literal.formatted ∧ char = '}' then
    if literal.spec then
      match state.stack with
      | .field outer _ :: stack =>
        some { state with mode := .text outer .plain [], stack, items := .char char :: .text chars :: state.items }
      | _ => none
    else some { state with mode := .text literal .closed chars }
  else some { state with mode := .text literal .plain (chars ++ [char]) }

def textStep (state : State) (literal : Literal) (scan : Scan) (chars : List Char) (char : Char) : Option State :=
  match scan with
  | .plain => plainStep state literal chars char
  | .closing quotes =>
    if char = literal.quote.char then
      if quotes = 2 then close state literal chars
      else some { state with mode := .text literal (.closing (quotes + 1)) chars }
    else plainStep state literal (chars ++ List.replicate quotes literal.quote.char) char
  | .escaped =>
    if literal.formatted ∧ (char = '{' ∨ char = '}') then plainStep state literal chars char
    else
      let scan := if literal.formatted ∧ literal.raw = false ∧ char = 'N' then .named else .plain
      some { state with mode := .text literal scan (chars ++ [char]) }
  | .named =>
    if char = '{' then some { state with mode := .text literal .name (chars ++ [char]) }
    else plainStep state literal chars char
  | .name =>
    if char = '}' then some { state with mode := .text literal .plain (chars ++ [char]) }
    else if char = literal.quote.char ∨ char = '{' ∨ char = '\\' ∨ char = '\n' then none
    else some { state with mode := .text literal .name (chars ++ [char]) }
  | .opened =>
    if char = '{' ∧ literal.spec = false then some { state with mode := .text literal .plain (chars ++ [char]) }
    else
      codeStep { state with
        mode := .code
        stack := .field literal [char] :: state.stack
        items := .char '{' :: .text chars :: state.items } char
  | .closed => if char = '}' then some { state with mode := .text literal .plain (chars ++ [char]) } else none

def modeStep (state : State) (char : Char) : Option State :=
  match state.mode with
  | .code => codeStep state char
  | .joining => if char = '\n' then some ({ state with mode := .code }.space char) else none
  | .comment => if char = '\n' then some { state with mode := .code }.newline else some state
  | .quoted literal twice =>
    if char = literal.quote.char then
      some { state.push (.char char) with
        mode := if twice then .text { literal with triple := true } .plain [] else .quoted literal true }
    else if twice then codeStep { state with mode := .code } char
    else plainStep state literal [] char
  | .text literal scan chars => textStep state literal scan chars char

def Frame.record (text : List Char) : Frame → Frame
  | .bracket opening => .bracket opening
  | .field literal source => .field literal (source ++ text)

/-- The fields around a character have it in their source, unless it stands in a comment. -/
def State.record (state : State) (char : Char) : State :=
  if state.mode = .comment ∧ char ≠ '\n' then state else { state with stack := state.stack.map (Frame.record [char]) }

def step (state : State) (char : Char) : Option State := modeStep (state.record char) char

def run (state : State) (text : List Char) : Option State := text.foldlM step state

def finish (state : State) : Option (List RawLine) :=
  if state.mode = .code ∧ state.stack = [] ∧ state.lead = [] ∧ state.items = [] then some state.lines.reverse else none

def logicalLines (text : List Char) : Option (List RawLine) :=
  if '\x00' ∈ text then none else (run start (terminated text)).bind finish

/-- A tab goes on to the next multiple of 8 columns; the second count takes it for one column. -/
structure Width where
  column : ℕ
  alternate : ℕ
  joined : ℕ
  deriving DecidableEq

/-- Each physical line starts at the margin. -/
def Width.advance (margin : ℕ) (width : Width) (char : Char) : Width :=
  if char = ' ' then { width with column := width.column + 1, alternate := width.alternate + 1 }
  else if char = '\t' then { width with column := (width.column / 8 + 1) * 8, alternate := width.alternate + 1 }
  else if char = '\n' then
    { column := width.column + margin
      alternate := width.alternate + margin
      joined := if width.joined = 0 then width.column else width.joined }
  else { width with column := margin, alternate := margin }

def measure (margin : ℕ) (lead : List Char) : Width :=
  lead.foldl (Width.advance margin) { column := margin, alternate := margin, joined := 0 }

def Width.level (width : Width) : ℕ × ℕ :=
  if width.joined = 0 then (width.column, width.alternate) else (width.joined, width.joined)

/-- The stack of open indentations after a line. -/
def nest (stack : List (ℕ × ℕ)) (level : ℕ × ℕ) : Option (List (ℕ × ℕ)) :=
  match stack with
  | [] => none
  | top :: _ =>
    if top.1 < level.1 then
      if stack.length < 100 ∧ top.2 < level.2 then some (level :: stack) else none
    else
      match stack.dropWhile fun above => level.1 < above.1 with
      | [] => none
      | top :: rest => if level = top then some (top :: rest) else none

def nesting (stack : List (ℕ × ℕ)) : List (ℕ × ℕ) → Option (List ℕ)
  | [] => some []
  | level :: levels =>
    (nest stack level).bind fun stack => (nesting stack levels).map fun depths => (stack.length - 1) :: depths

def levels (margin : ℕ) (lines : List RawLine) : List (ℕ × ℕ) :=
  lines.map fun line => (measure margin line.lead).level

structure LogicalLine where
  depth : ℕ
  items : List Item
  deriving DecidableEq

def tokens (text : List Char) : Option (List LogicalLine) :=
  (logicalLines text).bind fun lines =>
    (nesting [(0, 0)] (levels 0 lines)).map fun depths =>
      List.zipWith LogicalLine.mk depths (lines.map RawLine.items)

end N8n.Python
