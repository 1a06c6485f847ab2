import Mathlib.Data.List.Infix
import N8n.ReplaceAll

/-! Renaming a node in an expression. Expressions and names are lists of characters. The
regular expressions that are built from a name are given by what they match. -/

namespace N8n.NodeReferences

open ReplaceAll

def isDotNotationBanned (c : Char) : Bool := c ∈ "\\ `!@#$%^&*()_+-=[]\x7b\x7d;':\"|,.<>?~".toList

def hasDotNotationBannedChar (nodeName : List Char) : Bool :=
  nodeName.head?.any Char.isDigit || nodeName.any isDotNotationBanned

/-! ## Replacement templates -/

def dollarEscape (nodeName : List Char) : List Char :=
  nodeName.flatMap fun c => if c = '$' then ['$', '$'] else [c]

/-- Backslashes and quotes get a backslash. -/
def quoteEscape (nodeName : List Char) : List Char :=
  nodeName.flatMap fun c => if c = '\\' ∨ c = '"' ∨ c = '\'' then ['\\', c] else [c]

def prepareNewNodeName (nodeName : List Char) : List Char := quoteEscape (dollarEscape nodeName)

def groupOf (groups : List (List Char)) (digits : List Char) : Option (List Char) :=
  if digits.all Char.isDigit then
    match digits.foldl (fun n c => 10 * n + (c.toNat - '0'.toNat)) 0 with
    | 0 => none
    | n + 1 => groups[n]?
  else none

/-- What a `$` of a template stands for, and how much of the template that takes: two digits if
there is such a group, else one. A name brings no other `$`, since all of its own are doubled. -/
def readGroup (groups : List (List Char)) : List Char → Option (List Char × ℕ)
  | '$' :: '$' :: _ => some (['$'], 2)
  | '$' :: d :: e :: _ =>
    ((groupOf groups [d, e]).map fun text => (text, 3)).or ((groupOf groups [d]).map fun text => (text, 2))
  | ['$', d] => (groupOf groups [d]).map fun text => (text, 2)
  | _ => none

def expand (groups : List (List Char)) : List Char → List Char :=
  replaceAll (readGroup groups) Prod.snd fun text _ => text.1

/-! ## Access patterns -/

/-- How a character of a name stands in an expression. -/
def spellings (c : Char) : List (List Char) :=
  if c = '\\' then [['\\', '\\']]
  else if c = '"' ∨ c = '\'' then [['\\', c], [c]]
  else [[c]]

def readFirst (alternatives : List (List Char)) (s : List Char) : Option (List Char) :=
  alternatives.find? fun text => text.isPrefixOf s

def readName : List Char → List Char → Option (List Char)
  | [], _ => some []
  | c :: name, s => do
    let text ← readFirst (spellings c) s
    let more ← readName name (s.drop text.length)
    return text ++ more

inductive AccessPattern
  | call
  | node
  | dot
  | items
  deriving DecidableEq

/-- `ACCESS_PATTERNS` -/
def accessPatterns : List AccessPattern := [.call, .node, .dot, .items]

namespace AccessPattern

def checkPattern : AccessPattern → List Char
  | .call => ['$', '(']
  | .node => ['$', 'n', 'o', 'd', 'e', '[']
  | .dot => ['$', 'n', 'o', 'd', 'e', '.']
  | .items => ['$', 'i', 't', 'e', 'm', 's', '(']

def openings : AccessPattern → List (List Char)
  | .dot => [['$', 'n', 'o', 'd', 'e', '.']]
  | access => [access.checkPattern ++ ['\''], access.checkPattern ++ ['"']]

def closings : AccessPattern → List (List Char)
  | .call => [['\'', ')'], ['"', ')']]
  | .node => [['\'', ']'], ['"', ']']]
  | .dot => [['.'], []]
  | .items => [['\'', ','], ['"', ','], ['\'', ')'], ['"', ')']]

end AccessPattern

structure Reference where
  opening : List Char
  written : List Char
  closing : List Char
  deriving DecidableEq

def Reference.text (r : Reference) : List Char := r.opening ++ r.written ++ r.closing

def readReference (name : List Char) (access : AccessPattern) (s : List Char) : Option Reference := do
  let opening ← readFirst access.openings s
  let written ← readName name (s.drop opening.length)
  let closing ← readFirst access.closings (s.drop (opening ++ written).length)
  return ⟨opening, written, closing⟩

/-- The matches of `.` do not include these. -/
def isLineTerminator (c : Char) : Bool := c = '\n' || c = '\r' || c = '\u2028' || c = '\u2029'

def readMember (newName : List Char) : List Char → Option Char
  | c :: s =>
    if !isLineTerminator c && newName.isPrefixOf s then
      (s.drop newName.length).head?.filter fun t => t = ' ' || t = '.'
    else none
  | [] => none

def customCallback (newName escapedNewName expression : List Char) : List Char :=
  if hasDotNotationBannedChar newName then
    replaceAll (readMember newName) (fun _ => newName.length + 2)
      (fun t _ => expand [[t]] (['[', '"'] ++ escapedNewName ++ ['"', ']', '$', '1'])) expression
  else expression

def renameAccess (previousName newName expression : List Char) (access : AccessPattern) : List Char :=
  if access.checkPattern <:+: expression then
    let expression := replaceAll (readReference previousName access) (fun r => r.text.length)
      (fun r _ => expand [r.opening, r.closing] (['$', '1'] ++ prepareNewNodeName newName ++ ['$', '2']))
      expression
    match access with
    | .dot => customCallback newName (prepareNewNodeName newName) expression
    | _ => expression
  else expression

def applyAccessPatterns (expression previousName newName : List Char) : List Char :=
  if accessPatterns.any fun access => access.checkPattern <:+: expression then
    accessPatterns.foldl (renameAccess previousName newName) expression
  else expression

/-! ## References -/

inductive Spelled : List Char → List Char → Prop
  | nil : Spelled [] []
  | cons {c : Char} {piece name text : List Char} : piece ∈ spellings c → Spelled name text →
      Spelled (c :: name) (piece ++ text)

/-- A character that continues a name behind a dot. Beyond ASCII every character counts. -/
def isIdentifierPart (c : Char) : Bool := c.isAlphanum || c = '_' || c = '$' || 128 ≤ c.toNat

/-- `text`, with `rest` behind it, refers to the node. -/
inductive RefersTo (name : List Char) : List Char → List Char → Prop
  | call {q : Char} {written rest : List Char} : q = '\'' ∨ q = '"' → Spelled name written →
      RefersTo name (['$', '('] ++ q :: written ++ [q, ')']) rest
  | node {q : Char} {written rest : List Char} : q = '\'' ∨ q = '"' → Spelled name written →
      RefersTo name (['$', 'n', 'o', 'd', 'e', '['] ++ q :: written ++ [q, ']']) rest
  | dot {written rest : List Char} : Spelled name written →
      (∀ c ∈ rest.head?, isIdentifierPart c = false) → RefersTo name (['$', 'n', 'o', 'd', 'e', '.'] ++ written) rest
  | items {q e : Char} {written rest : List Char} : q = '\'' ∨ q = '"' → e = ')' ∨ e = ',' →
      Spelled name written → RefersTo name (['$', 'i', 't', 'e', 'm', 's', '('] ++ q :: written ++ [q, e]) rest

inductive SameOutsideReferences (name : List Char) : List Char → List Char → Prop
  | nil : SameOutsideReferences name [] []
  | same (c : Char) {s t : List Char} : SameOutsideReferences name s t → SameOutsideReferences name (c :: s) (c :: t)
  | reference {text s : List Char} (changed : List Char) {t : List Char} : RefersTo name text s →
      SameOutsideReferences name s t → SameOutsideReferences name (text ++ s) (changed ++ t)

end N8n.NodeReferences
