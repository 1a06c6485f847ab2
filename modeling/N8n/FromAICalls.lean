import N8n.FromAIExpression
import N8n.JsonReader
import N8n.ReplaceAll

/-! `$fromAI` calls: the expressions that `createFromAIExpression` writes and the calls that
`extractFromAICalls` finds in a text. -/

namespace N8n.FromAI

open JsText JsonReader

inductive JsNumber (ν : Type) where
  | nan
  | infinity (negative : Bool)
  | finite (value : ν)

variable {ν : Type}

/-- `String(value)`. -/
def JsNumber.text (N : Numerals ν) : JsNumber ν → List Char
  | nan => "NaN".toList
  | infinity true => "-Infinity".toList
  | infinity false => "Infinity".toList
  | finite value => N.toText value

/-- The numbers of the language, with `Number(text)`. -/
structure Numbers (ν : Type) extends Numerals ν where
  number : List Char → JsNumber ν
  number_text : ∀ n : JsNumber ν, number (n.text toNumerals) = n

/-- What a call has as its default. -/
inductive Value (ν : Type) where
  | json (value : Json ν)
  | nan

def JsNumber.value : JsNumber ν → Value ν
  | nan => .nan
  | infinity negative => .json (.infinity negative)
  | finite value => .json (.number value)

inductive FromAIArgumentType where
  | string
  | number
  | boolean
  | json
  deriving DecidableEq

def FromAIArgumentType.name : FromAIArgumentType → List Char
  | string => "string".toList
  | number => "number".toList
  | boolean => "boolean".toList
  | json => "json".toList

section Creation

def isKeyChar (char : Char) : Bool := char.isAlphanum || char == '_' || char == '-'

/-- `text.replace(/_+/g, '_')`. -/
def collapseUnderscores : List Char → List Char
  | [] => []
  | char :: rest =>
    if char = '_' ∧ rest.head? = some '_' then collapseUnderscores rest
    else char :: collapseUnderscores rest

def sanitizeFromAIKey (key : List Char) : List Char :=
  let replaced := key.map fun char => if isKeyChar char then char else '_'
  let trimmed := ((collapseUnderscores replaced).dropWhile (· == '_')).rdropWhile (· == '_')
  let sanitized := trimmed.take 64
  if sanitized = [] then "param".toList else sanitized

def escapeForQuote (str : List Char) (quoteChar : Char) : List Char :=
  (str.flatMap fun char => if char = '\\' then ['\\', '\\'] else [char]).flatMap fun char =>
    if char = quoteChar then ['\\', quoteChar] else [char]

def getBestQuoteChar (str : List Char) : Char :=
  if '\'' ∉ str then '\'' else if '"' ∉ str then '"' else '`'

def escapeArg (arg : List Char) : List Char :=
  let quoteChar := getBestQuoteChar arg
  quoteChar :: escapeForQuote arg quoteChar ++ [quoteChar]

inductive DefaultValue (ν : Type) where
  | string (value : List Char)
  | number (value : JsNumber ν)
  | boolean (value : Bool)
  | object (members : List (List Char × Json ν)) (proper : Proper (.object members))

def DefaultValue.type : DefaultValue ν → FromAIArgumentType
  | string _ => .string
  | number _ => .number
  | boolean _ => .boolean
  | object _ _ => .json

def DefaultValue.value : DefaultValue ν → Value ν
  | string value => .json (.string value)
  | number value => value.value
  | boolean value => .json (.boolean value)
  | object members _ => .json (.object members)

variable (N : Numbers ν)

def serializeDefaultValue : DefaultValue ν → List Char
  | .string value => escapeArg value
  | .number value => value.text N.toNumerals
  | .boolean value => if value then "true".toList else "false".toList
  | .object members _ => (Json.object members).text N.toNumerals

/-- The arguments of `createFromAIExpression`. -/
structure CallSpec (ν : Type) where
  key : List Char
  description : Option (List Char) := none
  type : FromAIArgumentType := .string
  defaultValue : Option (DefaultValue ν) := none

def callArguments (spec : CallSpec ν) : List (List Char) :=
  let key := [escapeArg (sanitizeFromAIKey spec.key)]
  let described := spec.description.isSome || spec.type ≠ .string || spec.defaultValue.isSome
  let description := if described then [escapeArg (spec.description.getD [])] else []
  let typed := spec.type ≠ .string || spec.defaultValue.isSome
  let type := if typed then [escapeArg spec.type.name] else []
  let defaultValue := match spec.defaultValue with
    | none => []
    | some value => [serializeDefaultValue N value]
  key ++ description ++ type ++ defaultValue

def createFromAIExpression (spec : CallSpec ν) : List Char :=
  "=\x7b\x7b ".toList ++ autoGeneratedMarker ++ " $fromAI(".toList ++
    [',', ' '].intercalate (callArguments N spec) ++ ") \x7d\x7d".toList

end Creation

section Extraction

structure FromAIArgument (ν : Type) where
  key : List Char
  description : Option (List Char)
  type : List Char
  defaultValue : Option (Value ν)

inductive ParseError where
  | invalidType (type : List Char)
  | unparsed (argsString : List Char) (error : ParseError)
  | unbalanced (rest : List Char)

/-- The message of the error, `String(error)` without the name of its class. -/
def ParseError.message : ParseError → List Char
  | invalidType type => "Invalid type: ".toList ++ type
  | unparsed argsString error =>
    "Failed to parse $fromAI arguments: ".toList ++ argsString ++ ": Error: ".toList ++ error.message
  | unbalanced rest => "Unbalanced parentheses while parsing $fromAI call: ".toList ++ rest

def lowerCase (text : List Char) : List Char := text.map Char.toLower

def isFromAIArgumentType (value : List Char) : Bool :=
  ["string".toList, "number".toList, "boolean".toList, "json".toList].contains (lowerCase value)

variable (N : Numbers ν)

local instance lawfulText : LawfulBEq (List Char) := inferInstance

def parseDefaultValue (value : Option (List Char)) (type : List Char) : Option (Value ν) :=
  value.map fun value =>
    let parsed : Value ν := match parseJson N.toNumerals value with
      | some parsed => .json parsed
      | none => .json (.string value)
    if type = "string".toList then .json (.string value)
    else if type = "boolean".toList ∧ lowerCase value ∈ ["true".toList, "false".toList] then
      .json (.boolean (lowerCase value == "true".toList))
    else if type = "number".toList then
      match N.number value with
      | .nan => parsed
      | number => number.value
    else parsed

/-- The arguments between commas outside quotes, without backslashes that escape. It goes by
the open quote and by what has been read of the current argument. -/
def splitArguments : Option Char → List Char → List Char → List (List Char)
  | _, currentArg, [] | _, currentArg, ['\\'] =>
    if currentArg = [] then [] else [trim currentArg]
  | quote, currentArg, '\\' :: char :: rest => splitArguments quote (currentArg ++ [char]) rest
  | some quote, currentArg, char :: rest =>
    splitArguments (if char = quote then none else some quote) (currentArg ++ [char]) rest
  | none, currentArg, char :: rest =>
    if isQuote char then splitArguments (some char) (currentArg ++ [char]) rest
    else if char = ',' then trim currentArg :: splitArguments none [] rest
    else splitArguments none (currentArg ++ [char]) rest

example : splitArguments none [] ['a', ',', '\'', ',', '\''] = [['a'], ['\'', ',', '\'']] := by
  simp [splitArguments, isQuote, trim, trimStart, trimEnd, isWhiteSpace, List.rdropWhile]

/-- `text.replace(/\\mark/g, 'mark')`. -/
def replaceEscaped (mark : Char) : List Char → List Char
  | [] => []
  | [char] => [char]
  | char :: next :: rest =>
    if char = '\\' ∧ next = mark then mark :: replaceEscaped mark rest
    else char :: replaceEscaped mark (next :: rest)

def unescape (text : List Char) : List Char :=
  replaceEscaped '\\' (replaceEscaped '"' (replaceEscaped '`' (replaceEscaped '\'' text)))

def cleanArgument (arg : List Char) : List Char :=
  let trimmed := trim arg
  if ['\'', '`', '"'].any fun quote =>
      trimmed.head? == some quote && trimmed.getLast? == some quote then
    unescape (trimmed.drop 1).dropLast
  else trimmed

def parseArguments (argsString : List Char) : Except ParseError (FromAIArgument ν) :=
  let cleanArgs := (splitArguments none [] argsString).map cleanArgument
  let type := cleanArgs[2]?.getD "string".toList
  if !isFromAIArgumentType type then .error (.invalidType type)
  else .ok {
    key := cleanArgs[0]?.getD []
    description := cleanArgs[1]?
    type
    defaultValue := parseDefaultValue N cleanArgs[3]? type }

/-- The text up to the parenthesis that closes the call, `depth` of them being open. -/
def scanCall : Option Char → ℕ → List Char → Option (List Char)
  | _, _, [] => none
  | some quote, depth, '\\' :: char :: rest =>
    (scanCall (some quote) depth rest).map fun args => '\\' :: char :: args
  | some quote, depth, char :: rest =>
    (scanCall (if char = quote then none else some quote) depth rest).map (char :: ·)
  | none, depth, char :: rest =>
    if isQuote char then (scanCall (some char) depth rest).map (char :: ·)
    else if char = '(' then (scanCall none (depth + 1) rest).map (char :: ·)
    else if char = ')' then
      if depth ≤ 1 then some [] else (scanCall none (depth - 1) rest).map (char :: ·)
    else (scanCall none depth rest).map (char :: ·)

example : scanCall none 1 ['f', '(', ')', ')', 'b'] = some ['f', '(', ')'] := by simp [scanCall, isQuote]

/-- The length of a match of `/\$fromAI\s*\(\s*/i`. -/
def readCallStart (text : List Char) : Option ℕ :=
  (readCallHead text).map fun rest => text.length - (rest.dropWhile isWhiteSpace).length

/-- What follows each match of the pattern. -/
def callTexts (str : List Char) : List (List Char) :=
  (ReplaceAll.pieces readCallStart id 0 str).filterMap fun
    | .plain _ _ => none
    | .taken _ rest => some rest

def extractCall (rest : List Char) : Except ParseError (FromAIArgument ν) :=
  match scanCall none 1 rest with
  | none => .error (.unbalanced rest)
  | some argsString => (parseArguments N argsString).mapError (.unparsed argsString)

def extractFromAICalls (str : List Char) : Except ParseError (List (FromAIArgument ν)) :=
  (callTexts str).mapM (extractCall N)

end Extraction

end N8n.FromAI
