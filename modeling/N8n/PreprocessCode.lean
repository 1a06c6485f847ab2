import Mathlib.Data.List.Basic

/-! What `parseWorkflowCode` does to SDK code before it is parsed:
`unescapeJsonEscapeSequences`, then `escapeN8nVariables`. The code is a list of
characters. A reader that starts behind an opening delimiter returns what it appends
to the result and the code behind the literal. -/

namespace N8n.PreprocessCode

def N8N_RUNTIME_VARIABLES : List String :=
  ["$today", "$now", "$json", "$input", "$binary", "$execution", "$workflow", "$vars", "$node",
    "$item", "$position", "$runIndex", "$prevNode", "$env", "$itemIndex", "$parameter", "$jmespath",
    "$if", "$min", "$max"]

section Readers

def readDoubleQuotedString : List Char → List Char × List Char
  | [] => ([], [])
  | '\\' :: next :: rest =>
    let (read, behind) := readDoubleQuotedString rest
    ('\\' :: next :: read, behind)
  | '"' :: rest => (['"'], rest)
  | char :: rest =>
    let (read, behind) := readDoubleQuotedString rest
    (char :: read, behind)

/-- The rest of a template literal. An escaped backtick switches between the literal and
one nested in it, where `${` is escaped. -/
def readTemplateLiteral (depth : ℕ) (inNestedTemplateLiteral : Bool) : List Char → List Char × List Char
  | [] => ([], [])
  | '\\' :: next :: rest =>
    let nested := if next = '`' then !inNestedTemplateLiteral else inNestedTemplateLiteral
    let (read, behind) := readTemplateLiteral depth nested rest
    ('\\' :: next :: read, behind)
  | '$' :: '{' :: rest =>
    if inNestedTemplateLiteral ∧ depth = 0 then
      let (read, behind) := readTemplateLiteral depth inNestedTemplateLiteral rest
      ('\\' :: '$' :: '{' :: read, behind)
    else
      let (read, behind) := readTemplateLiteral (depth + 1) inNestedTemplateLiteral rest
      ('$' :: '{' :: read, behind)
  | char :: rest =>
    if char = '}' ∧ 0 < depth then
      let (read, behind) := readTemplateLiteral (depth - 1) inNestedTemplateLiteral rest
      ('}' :: read, behind)
    else if char = '`' ∧ depth = 0 then (['`'], rest)
    else
      let (read, behind) := readTemplateLiteral depth inNestedTemplateLiteral rest
      (char :: read, behind)

/-- To the `\\')` that closes a double-escaped node reference. -/
def readDoubleEscapedReference : List Char → List Char × List Char
  | [] => ([], [])
  | '\\' :: '\\' :: '\'' :: ')' :: rest => (['\\', '\'', ')'], rest)
  | '\\' :: next :: rest =>
    let (read, behind) := readDoubleEscapedReference rest
    ('\\' :: next :: read, behind)
  | char :: rest =>
    let (read, behind) := readDoubleEscapedReference rest
    (char :: read, behind)

/-- To the `')` that closes a node reference. -/
def readNodeReference : List Char → List Char × List Char
  | [] => ([], [])
  | '\\' :: next :: rest =>
    let (read, behind) := readNodeReference rest
    ('\\' :: next :: read, behind)
  | '\'' :: ')' :: rest => (['\\', '\'', ')'], rest)
  | char :: rest =>
    let (read, behind) := readNodeReference rest
    (char :: read, behind)

theorem readDoubleQuotedString_length (code : List Char) : (readDoubleQuotedString code).2.length ≤ code.length := by
  fun_induction readDoubleQuotedString code <;> simp_all <;> omega

theorem readTemplateLiteral_length (depth : ℕ) (nested : Bool) (code : List Char) :
    (readTemplateLiteral depth nested code).2.length ≤ code.length := by
  fun_induction readTemplateLiteral depth nested code <;> simp_all <;> omega

theorem readDoubleEscapedReference_length (code : List Char) :
    (readDoubleEscapedReference code).2.length ≤ code.length := by
  fun_induction readDoubleEscapedReference code <;> simp_all <;> omega

theorem readNodeReference_length (code : List Char) : (readNodeReference code).2.length ≤ code.length := by
  fun_induction readNodeReference code <;> simp_all <;> omega

end Readers

def isLetter (char : Char) : Bool := ('a' ≤ char ∧ char ≤ 'z') ∨ ('A' ≤ char ∧ char ≤ 'Z')

def isLowercase (char : Char) : Bool := 'a' ≤ char ∧ char ≤ 'z'

def isContraction (prevChar : Option Char) (rest : List Char) : Bool :=
  prevChar.any isLetter && rest.head?.any isLowercase

/-- The rest of a single-quoted string. `prevChar` is the last character of the result
behind the opening quote. -/
def readAndFixSingleQuotedString (prevChar : Option Char) : (code : List Char) → List Char × List Char
  | [] => ([], [])
  | '\\' :: next :: rest =>
    let (read, behind) := readAndFixSingleQuotedString (some next) rest
    ('\\' :: next :: read, behind)
  | '$' :: '(' :: '\\' :: '\\' :: '\'' :: rest =>
    let fixed := '$' :: '(' :: '\\' :: '\'' :: (readDoubleEscapedReference rest).1
    have := readDoubleEscapedReference_length rest
    let (read, behind) :=
      readAndFixSingleQuotedString fixed.getLast? (readDoubleEscapedReference rest).2
    (fixed ++ read, behind)
  | '$' :: '(' :: '\'' :: rest =>
    let fixed := '$' :: '(' :: '\\' :: '\'' :: (readNodeReference rest).1
    have := readNodeReference_length rest
    let (read, behind) := readAndFixSingleQuotedString fixed.getLast? (readNodeReference rest).2
    (fixed ++ read, behind)
  | '\'' :: rest =>
    if isContraction prevChar rest then
      let (read, behind) := readAndFixSingleQuotedString (some '\'') rest
      ('\\' :: '\'' :: read, behind)
    else (['\''], rest)
  | char :: rest =>
    let (read, behind) := readAndFixSingleQuotedString (some char) rest
    (char :: read, behind)
termination_by code => code.length

theorem readAndFixSingleQuotedString_length (prevChar : Option Char) (code : List Char) :
    (readAndFixSingleQuotedString prevChar code).2.length ≤ code.length := by
  fun_induction readAndFixSingleQuotedString prevChar code <;> simp_all <;> omega

def escapeNodeReferencesInSingleQuotedStrings : (code : List Char) → List Char
  | [] => []
  | '"' :: rest =>
    have := readDoubleQuotedString_length rest
    '"' :: (readDoubleQuotedString rest).1 ++ escapeNodeReferencesInSingleQuotedStrings (readDoubleQuotedString rest).2
  | '`' :: rest =>
    have := readTemplateLiteral_length 0 false rest
    '`' :: (readTemplateLiteral 0 false rest).1 ++
      escapeNodeReferencesInSingleQuotedStrings (readTemplateLiteral 0 false rest).2
  | '\'' :: rest =>
    have := readAndFixSingleQuotedString_length none rest
    '\'' :: (readAndFixSingleQuotedString none rest).1 ++
      escapeNodeReferencesInSingleQuotedStrings (readAndFixSingleQuotedString none rest).2
  | char :: rest => char :: escapeNodeReferencesInSingleQuotedStrings rest
termination_by code => code.length

/-- `code.replace(/(?<!\\)pattern/g, '\\' + pattern)` for a pattern that starts with `${`: no
match begins inside another one. The lookbehind sees the code before the replacement. -/
def escapePattern (pattern : List Char) (previous : Option Char) : List Char → List Char
  | [] => []
  | char :: rest =>
    if previous ≠ some '\\' ∧ pattern.isPrefixOf (char :: rest) then
      '\\' :: char :: escapePattern pattern (some char) rest
    else char :: escapePattern pattern (some char) rest

def templatePatterns : List (List Char) :=
  N8N_RUNTIME_VARIABLES.map (fun varName => '$' :: '{' :: varName.toList) ++ [['$', '{', '$', '('], ['$', '{', '{']]

def escapeN8nVariablesInTemplateLiterals (code : List Char) : List Char :=
  templatePatterns.foldl (fun result pattern => escapePattern pattern none result) code

def escapeN8nVariables (code : List Char) : List Char :=
  escapeN8nVariablesInTemplateLiterals (escapeNodeReferencesInSingleQuotedStrings code)

section Unescape

def sliceString (quote : Char) : List Char → List Char × List Char
  | [] => ([], [])
  | '\\' :: next :: rest =>
    let (read, behind) := sliceString quote rest
    ('\\' :: next :: read, behind)
  | char :: rest =>
    if char = quote then ([char], rest)
    else
      let (read, behind) := sliceString quote rest
      (char :: read, behind)

/-- A template literal up to and with its closing backtick, and the code behind it. -/
def sliceTemplate (depth : ℕ) : List Char → List Char × List Char
  | [] => ([], [])
  | '\\' :: next :: rest =>
    let (read, behind) := sliceTemplate depth rest
    ('\\' :: next :: read, behind)
  | '$' :: '{' :: rest =>
    let (read, behind) := sliceTemplate (depth + 1) rest
    ('$' :: '{' :: read, behind)
  | char :: rest =>
    if char = '}' ∧ 0 < depth then
      let (read, behind) := sliceTemplate (depth - 1) rest
      (char :: read, behind)
    else if char = '`' ∧ depth = 0 then ([char], rest)
    else
      let (read, behind) := sliceTemplate depth rest
      (char :: read, behind)

theorem sliceString_length (quote : Char) (code : List Char) : (sliceString quote code).2.length ≤ code.length := by
  fun_induction sliceString quote code <;> simp_all <;> omega

theorem sliceTemplate_length (depth : ℕ) (code : List Char) : (sliceTemplate depth code).2.length ≤ code.length := by
  fun_induction sliceTemplate depth code <;> simp_all <;> omega

def hasLiteralBackslashNOutsideStrings : (code : List Char) → Bool
  | [] => false
  | '"' :: rest =>
    have := sliceString_length '"' rest
    hasLiteralBackslashNOutsideStrings (sliceString '"' rest).2
  | '\'' :: rest =>
    have := sliceString_length '\'' rest
    hasLiteralBackslashNOutsideStrings (sliceString '\'' rest).2
  | '`' :: rest =>
    have := sliceTemplate_length 0 rest
    hasLiteralBackslashNOutsideStrings (sliceTemplate 0 rest).2
  | '\\' :: 'n' :: _ => true
  | _ :: rest => hasLiteralBackslashNOutsideStrings rest
termination_by code => code.length

def unescapeOutsideStrings : (code : List Char) → List Char
  | [] => []
  | '"' :: rest =>
    have := sliceString_length '"' rest
    '"' :: (sliceString '"' rest).1 ++ unescapeOutsideStrings (sliceString '"' rest).2
  | '\'' :: rest =>
    have := sliceString_length '\'' rest
    '\'' :: (sliceString '\'' rest).1 ++ unescapeOutsideStrings (sliceString '\'' rest).2
  | '`' :: rest =>
    have := sliceTemplate_length 0 rest
    '`' :: (sliceTemplate 0 rest).1 ++ unescapeOutsideStrings (sliceTemplate 0 rest).2
  | '\\' :: 'n' :: rest => '\n' :: unescapeOutsideStrings rest
  | '\\' :: 'r' :: rest => '\r' :: unescapeOutsideStrings rest
  | '\\' :: 't' :: rest => '\t' :: unescapeOutsideStrings rest
  | '\\' :: '\\' :: rest => '\\' :: unescapeOutsideStrings rest
  | '\\' :: '"' :: rest => '"' :: unescapeOutsideStrings rest
  | char :: rest => char :: unescapeOutsideStrings rest
termination_by code => code.length

def unescapeJsonEscapeSequences (code : List Char) : List Char :=
  if '\n' ∈ code ∧ hasLiteralBackslashNOutsideStrings code = false then code
  else if hasLiteralBackslashNOutsideStrings code = false then code
  else unescapeOutsideStrings code

end Unescape

/-- The code that `parseWorkflowCode` hands to the interpreter. -/
def executableCode (code : List Char) : List Char :=
  escapeN8nVariables (unescapeJsonEscapeSequences code)

section Quiet

/-- One of the three repairs of a single-quoted string is made before its closing quote. -/
def repairsString (prevChar : Option Char) : List Char → Bool
  | [] => false
  | '\\' :: next :: rest => repairsString (some next) rest
  | '$' :: '(' :: '\\' :: '\\' :: '\'' :: _ => true
  | '$' :: '(' :: '\'' :: _ => true
  | '\'' :: rest => isContraction prevChar rest
  | char :: rest => repairsString (some char) rest

/-- A `${` of a nested template literal is escaped before the closing backtick. -/
def repairsTemplate (depth : ℕ) (inNestedTemplateLiteral : Bool) : List Char → Bool
  | [] => false
  | '\\' :: next :: rest =>
    repairsTemplate depth (if next = '`' then !inNestedTemplateLiteral else inNestedTemplateLiteral) rest
  | '$' :: '{' :: rest =>
    (inNestedTemplateLiteral ∧ depth = 0) || repairsTemplate (depth + 1) inNestedTemplateLiteral rest
  | char :: rest =>
    if char = '}' ∧ 0 < depth then repairsTemplate (depth - 1) inNestedTemplateLiteral rest
    else if char = '`' ∧ depth = 0 then false
    else repairsTemplate depth inNestedTemplateLiteral rest

/-- Something in the code is taken for a string or template literal that needs a repair. -/
def repairsLiterals : (code : List Char) → Bool
  | [] => false
  | '"' :: rest =>
    have := sliceString_length '"' rest
    repairsLiterals (sliceString '"' rest).2
  | '`' :: rest =>
    have := sliceTemplate_length 0 rest
    repairsTemplate 0 false rest || repairsLiterals (sliceTemplate 0 rest).2
  | '\'' :: rest =>
    have := sliceString_length '\'' rest
    repairsString none rest || repairsLiterals (sliceString '\'' rest).2
  | _ :: rest => repairsLiterals rest
termination_by code => code.length

theorem readDoubleQuotedString_eq (code : List Char) : readDoubleQuotedString code = sliceString '"' code := by
  fun_induction readDoubleQuotedString code <;> simp_all [sliceString]
variable {code : List Char}

theorem readTemplateLiteral_eq {depth : ℕ} {nested : Bool} (quiet : repairsTemplate depth nested code = false) :
    readTemplateLiteral depth nested code = sliceTemplate depth code := by
  fun_induction readTemplateLiteral depth nested code <;> grind [sliceTemplate, repairsTemplate]

theorem readAndFixSingleQuotedString_eq {prevChar : Option Char} (quiet : repairsString prevChar code = false) :
    readAndFixSingleQuotedString prevChar code = sliceString '\'' code := by
  fun_induction readAndFixSingleQuotedString prevChar code <;> grind [sliceString, repairsString]

theorem sliceString_append (quote : Char) (code : List Char) :
    (sliceString quote code).1 ++ (sliceString quote code).2 = code := by
  fun_induction sliceString quote code <;> simp_all

theorem sliceTemplate_append (depth : ℕ) (code : List Char) :
    (sliceTemplate depth code).1 ++ (sliceTemplate depth code).2 = code := by
  fun_induction sliceTemplate depth code <;> simp_all

theorem escapeNodeReferences_quiet (quiet : repairsLiterals code = false) :
    escapeNodeReferencesInSingleQuotedStrings code = code := by
  fun_induction repairsLiterals code <;> simp_all [escapeNodeReferencesInSingleQuotedStrings, readDoubleQuotedString_eq,
    readTemplateLiteral_eq, readAndFixSingleQuotedString_eq, sliceString_append, sliceTemplate_append]

end Quiet

end N8n.PreprocessCode
