import N8n.JsTokens
import N8n.SdkMachine
import N8n.SdkSyntax

/-! The part of the JavaScript grammar that a generated value needs: literals, array and
object literals and the call of a function with one string, exported as the default of a
module. Whatever is accepted here is what the grammar of the language gives. -/

namespace N8n.JsFragment

open JsTokens Sdk List

def isAsciiLetter (char : Char) : Bool :=
  ('a' ≤ char ∧ char ≤ 'z') ∨ ('A' ≤ char ∧ char ≤ 'Z') ∨ char = '_' ∨ char = '$'

def isPlainName (text : List Char) : Bool :=
  text.head?.any isAsciiLetter && text.all fun char => isAsciiLetter char || isDigit char

def reservedWords : List (List Char) :=
  ["break", "case", "catch", "class", "const", "continue", "debugger", "default", "delete", "do", "else",
    "enum", "export", "extends", "false", "finally", "for", "function", "if", "import", "in", "instanceof",
    "new", "null", "return", "super", "switch", "this", "throw", "true", "try", "typeof", "var", "void",
    "while", "with", "yield", "let", "static", "implements", "interface", "package", "private",
    "protected", "public", "await"].map String.toList

/-- Behind the mantissa of a decimal literal. -/
def isExponent : List Char → Bool
  | [] => true
  | 'e' :: '+' :: digits => !digits.isEmpty && digits.all isDigit
  | 'e' :: '-' :: digits => !digits.isEmpty && digits.all isDigit
  | 'e' :: digits => !digits.isEmpty && digits.all isDigit
  | _ => false

def isFraction : List Char → Bool
  | '.' :: rest => isExponent (rest.dropWhile isDigit)
  | rest => isExponent rest

def isDecimalLiteral (text : List Char) : Bool :=
  let integer := text.takeWhile isDigit
  (integer = ['0'] || integer.head?.any (· ≠ '0')) && isFraction (text.dropWhile isDigit)

/-- The string of a list of code points, unless half of a surrogate pair is among them. -/
def stringOf (codePoints : List ℕ) : Option String :=
  if codePoints.all fun point => decide point.isValidChar then
    some (String.ofList (codePoints.map Char.ofNat))
  else none

section Parser

variable {ν α : Type} [JsNumber ν]

def parseItems (parse : List Token → Option (α × List Token)) : ℕ → List Token → Option (List α × List Token)
  | 0, _ => none
  | count + 1, tokens => do
    let (item, behind) ← parse tokens
    match behind with
    | .punctuator [','] :: rest =>
      let (items, after) ← parseItems parse count rest
      some (item :: items, after)
    | _ => some ([item], behind)

def number (text : List Char) : Option (Expr ν) :=
  if isDecimalLiteral text then some (.literal (.number (JsNumber.ofText (String.ofList text)))) else none

local instance lawfulText : LawfulBEq (List Char) := inferInstance

def parseWord (text : List Char) (rest : List Token) : Option (Expr ν × List Token) :=
  if text = "null".toList then some (.literal .null, rest)
  else if text = "true".toList then some (.literal (.boolean true), rest)
  else if text = "false".toList then some (.literal (.boolean false), rest)
  else if isPlainName text ∧ text ∉ reservedWords then
    match rest with
    | .punctuator ['('] :: .string value :: .punctuator [')'] :: behind =>
      (stringOf value).map fun argument =>
        (.call (.identifier (String.ofList text)) [.literal (.string argument)], behind)
    | _ => none
  else (number text).map fun literal => (literal, rest)

/-- The key of a property, apart from `__proto__`. -/
def parseKey : Token → Option (Expr ν)
  | .word text =>
    if isPlainName text ∧ text ≠ "__proto__".toList then some (.identifier (String.ofList text)) else none
  | .string value =>
    (stringOf value).bind fun key => if key ≠ "__proto__" then some (.literal (.string key)) else none
  | _ => none

def parseMember (parse : List Token → Option (Expr ν × List Token)) :
    List Token → Option ((Option (Expr ν) × Expr ν) × List Token)
  | key :: .punctuator [':'] :: rest => do
    let name ← parseKey key
    let (value, behind) ← parse rest
    some ((some name, value), behind)
  | _ => none

def closed (bracket : Char) (result : α × List Token) : Option (α × List Token) :=
  match result.2 with
  | .punctuator [char] :: rest => if char = bracket then some (result.1, rest) else none
  | _ => none

def parseExpression : (depth : ℕ) → List Token → Option (Expr ν × List Token)
  | 0, _ => none
  | depth + 1, tokens =>
    match tokens with
    | .string value :: rest => (stringOf value).map fun text => (.literal (.string text), rest)
    | .word text :: rest => parseWord text rest
    | .punctuator ['-'] :: .word text :: rest =>
      (number text).map fun literal => (.unary .minus literal, rest)
    | .punctuator ['['] :: .punctuator [']'] :: rest => some (.array [], rest)
    | .punctuator ['['] :: rest => do
      let (items, behind) ← (parseItems (parseExpression depth) rest.length rest).bind (closed ']')
      some (.array (items.map some), behind)
    | .punctuator ['{'] :: .punctuator ['}'] :: rest => some (.object [], rest)
    | .punctuator ['{'] :: rest => do
      let (members, behind) ← (parseItems (parseMember (parseExpression depth)) rest.length rest).bind (closed '}')
      some (.object members, behind)
    | _ => none

/-- `export default expression;` -/
def parseProgram : List Token → Option (Program ν)
  | .word export_ :: .word default_ :: rest =>
    if export_ = "export".toList ∧ default_ = "default".toList then
      match parseExpression rest.length rest with
      | some (declaration, [.punctuator [';']]) => some [.exportDefaultDeclaration declaration]
      | _ => none
    else none
  | _ => none

def ParsesFragment (parse : List Char → Option (Program ν)) : Prop :=
  ∀ code program, (tokens code).bind parseProgram = some program → parse code = some program

end Parser

section Lists

variable {α : Type}

theorem parseItems_intercalate (parse : List Token → Option (α × List Token))
    (chunks : List (α × List Token)) (nonempty : chunks ≠ [])
    (each : ∀ chunk ∈ chunks, ∀ rest, parse (chunk.2 ++ rest) = some (chunk.1, rest))
    (rest : List Token) (ends : rest.head? ≠ some (.punctuator [','])) {count : ℕ} (enough : chunks.length ≤ count) :
    parseItems parse count (List.intercalate [.punctuator [',']] (chunks.map Prod.snd) ++ rest) =
      some (chunks.map Prod.fst, rest) := by
  induction chunks generalizing count with
  | nil => exact absurd rfl nonempty
  | cons chunk others ih =>
    obtain ⟨fuel, rfl⟩ : ∃ fuel, count = fuel + 1 := ⟨count - 1, by simp at enough; omega⟩
    have first := each chunk mem_cons_self
    cases others with
    | nil =>
      simp only [map_cons, map_nil, intercalate_singleton, parseItems, first,
        Option.bind_eq_bind, Option.bind_some]
      split
      · exact absurd rfl ends
      · rfl
    | cons second others =>
      have enoughLater : (second :: others).length ≤ fuel := by simpa using enough
      have later := ih (by simp) (fun other member => each other (mem_cons_of_mem _ member)) enoughLater
      simp only [map_cons] at later
      simp only [map_cons, intercalate_cons_cons, append_assoc, cons_append,
        nil_append, parseItems, first, Option.bind_eq_bind, Option.bind_some, later]

end Lists

end N8n.JsFragment
