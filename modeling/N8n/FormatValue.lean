import N8n.JsTokens
import N8n.SdkMachine

/-! The text that the code generator writes for a parameter value, and the two SDK
functions that occur in it. Texts are lists of characters. Annotations of expressions,
which are block comments, are left out. -/

namespace N8n.FormatValue

open Sdk

inductive Json (ν : Type) where
  | null
  | boolean (value : Bool)
  | number (value : ν)
  | string (value : String)
  | array (items : List (Json ν))
  | object (entries : List (String × Json ν))

section Strings

/-- `text.replace(/char/g, replacement)`. -/
def replaceAll (char : Char) (replacement : String) (text : List Char) : List Char :=
  text.flatMap fun other => if other = char then replacement.toList else [other]

def escapeString (str : List Char) : List Char :=
  [('\\', "\\\\"), ('\'', "\\'"), ('\u2018', "\\u2018"), ('\u2019', "\\u2019"), ('\u201c', "\\u201C"),
    ('\u201d', "\\u201D"), ('\n', "\\n"), ('\r', "\\r")].foldl (fun text entry => replaceAll entry.1 entry.2 text) str

def isIdentifierStart (char : Char) : Bool :=
  ('a' ≤ char ∧ char ≤ 'z') ∨ ('A' ≤ char ∧ char ≤ 'Z') ∨ char = '_' ∨ char = '$'

def isIdentifierPart (char : Char) : Bool := isIdentifierStart char ∨ ('0' ≤ char ∧ char ≤ '9')

def needsQuoting (key : List Char) : Bool :=
  !(key.head?.any isIdentifierStart && key.all isIdentifierPart)

def formatKey (key : List Char) : List Char :=
  if needsQuoting key then '\'' :: escapeString key ++ ['\''] else key

def placeholderStart : List Char := "<__PLACEHOLDER_VALUE__".toList

def placeholderEnd : List Char := "__>".toList

def isPlaceholderValue (value : List Char) : Bool :=
  placeholderStart.isPrefixOf value && placeholderEnd.isSuffixOf value

/-- The hint is empty where the pattern does not match: the two markers overlap or a line
ends between them. -/
def extractPlaceholderHint (value : List Char) : List Char :=
  let hint := (value.drop placeholderStart.length).dropLast.dropLast.dropLast
  if value = placeholderStart ++ hint ++ placeholderEnd ∧ hint.any JsTokens.isLineTerminator = false then hint
  else []

end Strings

section SdkFunctions

def expr (expression : List Char) : List Char :=
  let normalized := if expression.head? = some '=' then expression.tail else expression
  '=' :: normalized

def placeholder (hint : List Char) : List Char := placeholderStart ++ hint ++ placeholderEnd

end SdkFunctions

section Format

variable {ν : Type} [JsNumber ν]

def formatString (value : List Char) : List Char :=
  if isPlaceholderValue value then
    "placeholder('".toList ++ escapeString (extractPlaceholderHint value) ++ "')".toList
  else if value.head? = some '=' then "expr('".toList ++ escapeString value.tail ++ "')".toList
  else '\'' :: escapeString value ++ ['\'']

mutual

def formatValue : Json ν → List Char
  | .null => "null".toList
  | .boolean value => (if value then "true" else "false").toList
  | .number value => (JsNumber.toText value).toList
  | .string value => formatString value.toList
  | .array items => '[' :: List.intercalate ", ".toList (formatItems items) ++ [']']
  | .object [] => ['{', '}']
  | .object (entry :: entries) =>
    ['{', ' '] ++ List.intercalate ", ".toList (formatEntries (entry :: entries)) ++ [' ', '}']

def formatItems : List (Json ν) → List (List Char)
  | [] => []
  | item :: items => formatValue item :: formatItems items

def formatEntries : List (String × Json ν) → List (List Char)
  | [] => []
  | (key, value) :: entries =>
    (formatKey key.toList ++ [':', ' '] ++ formatValue value) :: formatEntries entries

end

def parameterCode (value : Json ν) : List Char :=
  "export default \x7b parameters: ".toList ++ formatValue value ++ " \x7d;".toList

end Format

end N8n.FormatValue
