import Mathlib.Data.List.Basic
import Mathlib.Data.String.Basic

/-! Format templates of Python, and the search for replacement fields that reach what is blocked.
Templates are lists of characters; the texts of errors that nobody reads are left out. -/

namespace N8n.FormatTemplate

open List Option

structure ReplacementField where
  fieldName : List Char
  formatSpec : List Char := []
  conversion : Option Char := none

structure Parsed where
  literal : List Char
  field : Option ReplacementField := none

section Parse

/-- Reads up to the character that ends the name. Between brackets none does. -/
def readFieldName : Bool → List Char → Option (List Char × Char × List Char)
  | _, [] => none
  | true, c :: text =>
    (readFieldName (c != ']') text).map fun (name, stop, rest) => (c :: name, stop, rest)
  | false, c :: text =>
    if c = '\x7b' then none
    else if c = '\x7d' ∨ c = ':' ∨ c = '!' then some ([], c, text)
    else (readFieldName (c == '[') text).map fun (name, stop, rest) => (c :: name, stop, rest)

/-- Reads up to the brace that closes the field, from inside so many nested ones. -/
def readFormatSpec : ℕ → List Char → Option (List Char × List Char)
  | _, [] => none
  | depth, c :: text =>
    if c = '\x7b' then
      (readFormatSpec (depth + 1) text).map fun (spec, rest) => (c :: spec, rest)
    else if c = '\x7d' then
      match depth with
      | 0 => some ([], text)
      | depth + 1 => (readFormatSpec depth text).map fun (spec, rest) => (c :: spec, rest)
    else (readFormatSpec depth text).map fun (spec, rest) => (c :: spec, rest)

def parseField (text : List Char) : Option (ReplacementField × List Char) := do
  let (fieldName, stop, rest) ← readFieldName false text
  if stop = '\x7d' then return ({ fieldName }, rest)
  else if stop = ':' then
    let (formatSpec, rest) ← readFormatSpec 0 rest
    return ({ fieldName, formatSpec }, rest)
  else
    match rest with
    | conversion :: '\x7d' :: rest => return ({ fieldName, conversion := some conversion }, rest)
    | conversion :: ':' :: rest =>
      let (formatSpec, rest) ← readFormatSpec 0 rest
      return ({ fieldName, formatSpec, conversion := some conversion }, rest)
    | _ => none

theorem readFieldName_length {inside : Bool} {text name rest : List Char} {stop : Char}
    (read : readFieldName inside text = some (name, stop, rest)) : name.length + rest.length < text.length := by
  induction text generalizing inside name with
  | nil => cases inside <;> cases read
  | cons c text ih =>
    cases inside with
    | true =>
      obtain ⟨⟨name', stop', rest'⟩, read', same⟩ := map_eq_some_iff.mp read
      cases same
      have shorter := ih read'
      simp only [length_cons]
      omega
    | false =>
      rw [readFieldName] at read
      split_ifs at read with opens ends
      · cases read
        simp
      · obtain ⟨⟨name', stop', rest'⟩, read', same⟩ := map_eq_some_iff.mp read
        cases same
        have shorter := ih read'
        simp only [length_cons]
        omega

theorem readFormatSpec_length {depth : ℕ} {text spec rest : List Char}
    (read : readFormatSpec depth text = some (spec, rest)) : spec.length + rest.length < text.length := by
  have step : ∀ {depth : ℕ} {c : Char} {text spec : List Char},
      (∀ {spec}, readFormatSpec depth text = some (spec, rest) → spec.length + rest.length < text.length) →
      ((readFormatSpec depth text).map fun (spec, rest) => (c :: spec, rest)) =
        some (spec, rest) → spec.length + rest.length < (c :: text).length := by
    intro depth c text spec ih read
    obtain ⟨⟨spec', rest'⟩, read', same⟩ := map_eq_some_iff.mp read
    cases same
    have shorter := ih read'
    simp only [length_cons]
    omega
  induction text generalizing depth spec with
  | nil => cases read
  | cons c text ih =>
    simp only [readFormatSpec] at read
    split_ifs at read with opens closes
    · exact step (fun read => ih read) read
    · cases depth with
      | zero =>
        cases read
        simp
      | succ depth => exact step (fun read => ih read) read
    · exact step (fun read => ih read) read
variable {field : ReplacementField}

theorem parseField_length {text rest : List Char} (parsed : parseField text = some (field, rest)) :
    field.formatSpec.length + rest.length < text.length := by
  simp only [parseField, bind, bind_eq_some_iff] at parsed
  obtain ⟨⟨fieldName, stop, behind⟩, named, parsed⟩ := parsed
  have name := readFieldName_length named
  dsimp only at parsed name
  split_ifs at parsed with closes spec
  · cases parsed
    simp only [length_nil]
    omega
  · obtain ⟨⟨formatSpec, rest'⟩, read, same⟩ := bind_eq_some_iff.mp parsed
    cases same
    have shorter := readFormatSpec_length read
    dsimp only at shorter ⊢
    omega
  · split at parsed
    · cases parsed
      simp only [length_cons] at name ⊢
      simp only [length_nil]
      omega
    · obtain ⟨⟨formatSpec, rest'⟩, read, same⟩ := bind_eq_some_iff.mp parsed
      cases same
      have shorter := readFormatSpec_length read
      simp only [length_cons] at name ⊢
      omega
    · cases parsed

def isBrace (c : Char) : Bool := c == '\x7b' || c == '\x7d'

/-- `string.Formatter.parse`; an error is `none`. -/
def parse (template : List Char) : Option (List Parsed) :=
  let literal := template.takeWhile fun c => !isBrace c
  match _stops : template.dropWhile fun c => !isBrace c with
  | [] => some (if literal = [] then [] else [{ literal }])
  | [_] => none
  | brace :: c :: text =>
    -- A doubled brace is text.
    if c = brace then (parse text).map ({ literal := literal ++ [brace] } :: ·)
    else if brace = '\x7d' then none
    else
      match _fields : parseField (c :: text) with
      | none => none
      | some (field, rest) => (parse rest).map ({ literal, field } :: ·)
termination_by template.length
decreasing_by
  · have shorter := (dropWhile_sublist (l := template) fun c => !isBrace c).length_le
    simp only [_stops, length_cons] at shorter
    omega
  · have shorter := (dropWhile_sublist (l := template) fun c => !isBrace c).length_le
    have field := parseField_length _fields
    simp only [_stops, length_cons] at shorter field
    omega

theorem parse_spec_length {template : List Char} {parsed : List Parsed}
    (read : parse template = some parsed) {item : Parsed} (listed : item ∈ parsed) (has : item.field = some field) :
    field.formatSpec.length < template.length := by
  fun_induction parse template generalizing parsed with
  | case1 template stops =>
    cases read
    split_ifs at listed
    · cases listed
    · cases mem_singleton.mp listed
      cases has
  | case2 => cases read
  | case3 template literal c text stops =>
    rename_i ih
    obtain ⟨rest, read', rfl⟩ := map_eq_some_iff.mp read
    have shorter := (dropWhile_sublist (l := template) fun c => !isBrace c).length_le
    rcases mem_cons.mp listed with rfl | later
    · cases has
    · have deeper := ih read' later
      simp only [stops, length_cons] at shorter
      omega
  | case4 => cases read
  | case5 => cases read
  | case6 template literal brace c text stops different opens field' rest fields =>
    rename_i ih
    obtain ⟨behind, read', rfl⟩ := map_eq_some_iff.mp read
    have shorter := (dropWhile_sublist (l := template) fun c => !isBrace c).length_le
    have inside := parseField_length fields
    simp only [stops, length_cons] at shorter inside
    rcases mem_cons.mp listed with rfl | later
    · cases has
      omega
    · have deeper := ih read' later
      omega

end Parse

section Blocked

def EXECUTOR_SAFE_FORMAT_KEY : String := "__n8n_internal_safe_format__"

def BLOCKED_NAMES : List String :=
  ["__loader__", "__builtins__", "__globals__", "__spec__", "__name__", EXECUTOR_SAFE_FORMAT_KEY]

def BLOCKED_ATTRIBUTES : List String := [
  -- runtime attributes
  "__subclasses__", "__globals__", "__builtins__", "__traceback__", "tb_frame", "tb_next",
  "f_back", "f_globals", "f_locals", "f_code", "f_builtins", "__getattribute__", "__qualname__",
  "__module__", "gi_frame", "gi_code", "gi_yieldfrom", "cr_frame", "cr_code", "ag_frame",
  "ag_code", "obj", "__thisclass__", "__self_class__", "__objclass__",
  -- serialization
  "__reduce__", "__reduce_ex__",
  -- metaclass
  "__prepare__",
  -- match protocol
  "__instancecheck__", "__subclasscheck__", "__match_args__",
  -- introspection attributes
  "__base__", "__class__", "__bases__", "__code__", "__closure__", "__loader__", "__cached__",
  "__dict__", "__import__", "__mro__", "__init_subclass__", "__getattr__", "__setattr__",
  "__delattr__", "__self__", "__func__", "__wrapped__", "__annotations__", "__spec__"]

def isBlocked (name : List Char) : Bool :=
  BLOCKED_ATTRIBUTES.contains (String.ofList name) || BLOCKED_NAMES.contains (String.ofList name)

variable (isalnum : Char → Bool)

def isWord (c : Char) : Bool := isalnum c || c == '_'

/-- `_FIELD_ATTR_PATTERN.finditer`. A match holds no second dot, so the next one starts behind. -/
def attrMatches : List Char → List (List Char)
  | [] => []
  | c :: text =>
    let word := text.takeWhile (isWord isalnum)
    if c = '.' ∧ word ≠ [] then word :: attrMatches text else attrMatches text

/-- `_FIELD_SUBSCRIPT_PATTERN` from behind the bracket that it starts with. -/
def subscriptMatch (text : List Char) : Option (List Char) :=
  let (quote, text) := match text with
    | c :: rest => if c = '\'' ∨ c = '"' then ([c], rest) else ([], text)
    | [] => ([], [])
  let word := text.takeWhile (isWord isalnum)
  if word ≠ [] ∧ (quote ++ [']']) <+: text.dropWhile (isWord isalnum) then some word else none

/-- `_FIELD_SUBSCRIPT_PATTERN.finditer`. A match holds no second opening bracket. -/
def subscriptMatches : List Char → List (List Char)
  | [] => []
  | c :: text =>
    match if c = '[' then subscriptMatch isalnum text else none with
    | some word => word :: subscriptMatches text
    | none => subscriptMatches text

def findBlockedFormatTokens (template : List Char) : List (List Char) :=
  match _read : parse template with
  | none => []
  | some parsed => parsed.attach.flatMap fun item =>
    match _has : item.1.field with
    | none => []
    | some field =>
      (attrMatches isalnum field.fieldName).filter isBlocked ++
        (subscriptMatches isalnum field.fieldName).filter isBlocked ++
        findBlockedFormatTokens field.formatSpec
termination_by template.length
decreasing_by exact parse_spec_length _read item.2 _has

end Blocked

end N8n.FormatTemplate
