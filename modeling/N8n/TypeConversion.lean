import N8n.ExceptFold
import N8n.FilterParameter
import N8n.JsonReader

/-! `validateFieldType` converts a JSON value to a type. A text that spells the JSON value `null`
is taken for an object, as `typeof null` is `'object'`; all other conversions end in the type. -/

namespace N8n.TypeConversion

open Js JsonReader TypeValidation List Option

/-! ## What the language makes of JSON values -/

/-- The nodes that `syntaxNodeToValue` tells apart. -/
inductive SyntaxNode (Host : Type) where
  | objectExpression (properties : List (SyntaxNode Host))
  | property (key value : SyntaxNode Host)
  | identifier (name : String)
  | literal (value : Value Host)
  | arrayExpression (elements : List (SyntaxNode Host))
  | unaryExpression (operator : String) (argument : SyntaxNode Host)
  | other

variable {Host : Type} {double : ℚ → Prop}

mutual

/-- What `JSON.parse` makes of a JSON text. -/
def ofJson : Json {x // double x} → Value Host
  | .null => .null
  | .boolean value => .boolean value
  | .number value => .number (.finite value)
  | .infinity negative => .number (.infinity negative)
  | .string value => .string (String.ofList value)
  | .array items => .array (ofItems items)
  | .object members => .object (ofMembers members)

def ofItems : List (Json {x // double x}) → List (Value Host)
  | [] => []
  | item :: items => ofJson item :: ofItems items

def ofMembers : List (List Char × Json {x // double x}) → List (String × Value Host)
  | [] => []
  | (key, value) :: members => (String.ofList key, ofJson value) :: ofMembers members

end

section Language

variable [DecidablePred double] (rt : Runtime Host) (N : Numerals {x // double x})

def numberText : JsNumber → List Char
  | .nan => "NaN".toList
  | .infinity negative => if negative then "-Infinity".toList else "Infinity".toList
  | .finite x => if h : double x then N.toText ⟨x, h⟩ else (rt.numberToString (.finite x)).toList

def objectText (members : List (String × Value Host)) : Except JsError (List Char) :=
  match members.lookup "toString", members.lookup "valueOf" with
  | none, _ => .ok "[object Object]".toList
  | some (.host _), _ => (rt.objectToString (.object members)).map String.toList
  | some _, some (.host _) => (rt.objectToString (.object members)).map String.toList
  | some _, _ => .error .typeError

mutual

/-- `String(value)`. -/
def textOf : Value Host → Except JsError (List Char)
  | .undefined => .ok "undefined".toList
  | .null => .ok "null".toList
  | .boolean value => .ok (if value then "true" else "false").toList
  | .number value => .ok (numberText rt N value)
  | .string value => .ok value.toList
  | .array items => (elementTexts items).map separated
  | .object members => objectText rt members
  | .date time => (rt.objectToString (.date time)).map String.toList
  | .dateTime time => (rt.objectToString (.dateTime time)).map String.toList
  | .host value => (rt.objectToString (.host value)).map String.toList

/-- The texts that `join` puts together. -/
def elementTexts : List (Value Host) → Except JsError (List (List Char))
  | [] => .ok []
  | item :: items =>
    (if item.isNullish then .ok [] else textOf item) >>= fun text => (elementTexts items).map (text :: ·)

end

mutual

def toJson : Value Host → Option (Json {x // double x})
  | .null => some .null
  | .boolean value => some (.boolean value)
  | .number (.finite value) => if h : double value then some (.number ⟨value, h⟩) else none
  | .number (.infinity negative) => some (.infinity negative)
  | .string value => some (.string value.toList)
  | .array items => (toItems items).map .array
  | .object members => (toMembers members).map .object
  | _ => none

def toItems : List (Value Host) → Option (List (Json {x // double x}))
  | [] => some []
  | item :: items => do return (← toJson item) :: (← toItems items)

def toMembers : List (String × Value Host) → Option (List (List Char × Json {x // double x}))
  | [] => some []
  | (key, value) :: members => do return (key.toList, ← toJson value) :: (← toMembers members)

end

/-- `JSON.stringify(value)`, of JSON values. -/
def stringify (value : Value Host) : Except JsError (Option String) :=
  match toJson value with
  | some json => .ok (some (String.ofList (json.text N)))
  | none => rt.stringify value

def isObjectExpression : SyntaxNode Host → Bool
  | .objectExpression _ => true
  | _ => false

def negate : JsNumber → JsNumber
  | .nan => .nan
  | .infinity negative => .infinity !negative
  | .finite value => .finite (-value)

mutual

def syntaxNodeToValue : SyntaxNode Host → Except JsError (Value Host)
  | .objectExpression properties => (propertyValues properties).map fun entries =>
    .object (entries.foldl (fun own entry => OrderedMap.setEntry entry.1 entry.2 own) [])
  | .identifier name => .ok (.string name)
  | .literal value => .ok value
  | .arrayExpression elements => (elementValues elements).map .array
  | .unaryExpression operator argument => do
    match ← syntaxNodeToValue argument with
    | .number value => return .number (if operator = "-" then negate value else value)
    | value => return value
  | .property _ _ => .ok .undefined
  | .other => .ok .undefined

/-- What `Object.fromEntries` is given, with the keys as texts. -/
def propertyValues : List (SyntaxNode Host) → Except JsError (List (String × Value Host))
  | [] => .ok []
  | .property key value :: properties => do
    let text ← textOf rt N (← syntaxNodeToValue key)
    return (String.ofList text, ← syntaxNodeToValue value) :: (← propertyValues properties)
  | _ :: properties => propertyValues properties

def elementValues : List (SyntaxNode Host) → Except JsError (List (Value Host))
  | [] => .ok []
  | element :: elements => do return (← syntaxNodeToValue element) :: (← elementValues elements)

end

/-- `esprimaParse` gives the expressions of the statements; a statement of another kind is `other`. -/
def parseJSObject (esprimaParse : String → Except JsError (List (SyntaxNode Host))) (objectAsString : String) :
    Except JsError (Value Host) := do
  match (← esprimaParse s!"({objectAsString})").find? isObjectExpression with
  | some jsExpression => syntaxNodeToValue rt N jsExpression
  | none => return .undefined

def standard (esprimaParse : String → Except JsError (List (SyntaxNode Host))) : Runtime Host :=
  { rt with
    numberToString := fun value => String.ofList (numberText rt N value)
    objectToString := fun value => (textOf rt N value).map String.ofList
    stringify := stringify rt N
    parseJson := fun text => match JsonReader.parseJson N text.toList with
      | some value => .ok (ofJson value)
      | none => .error .syntaxError
    parseJSObject := parseJSObject rt N esprimaParse }

end Language

/-! ## What is claimed -/

inductive TargetType where
  | string
  | number
  | boolean
  | array
  | object
  deriving DecidableEq

def TargetType.fieldType : TargetType → FilterOperatorType
  | string => .string
  | number => .number
  | boolean => .boolean
  | array => .array
  | object => .object

/-- A value of the type, and not `null`. -/
def OfType : TargetType → Value Host → Prop
  | .string, value => ∃ text, value = .string text
  | .number, value => ∃ number, value = .number number
  | .boolean, value => ∃ boolean, value = .boolean boolean
  | .array, value => ∃ items, value = .array items
  | .object, value => ∃ members, value = .object members

def LandsAndStays (rt : Runtime Host) (fieldName : String) (value : Value Host) (type : TargetType) : Prop :=
  ∀ newValue, validateFieldType rt fieldName value type.fieldType ⟨false, true⟩ = .ok (.valid newValue) →
    OfType type newValue ∧ validateFieldType rt fieldName newValue type.fieldType ⟨true, true⟩ = .ok (.valid newValue)

/-- The word `null`, with JSON's white space around it. -/
def SpellsNull (text : List Char) : Prop :=
  ∃ rest, skipSpace text = "null".toList ++ rest ∧ skipSpace rest = []

/-- A text that spells `null`, in any number of brackets. -/
inductive Spelled : Json {x // double x} → Prop
  | string {text : List Char} : SpellsNull text → Spelled (.string text)
  | array {item : Json {x // double x}} : Spelled item → Spelled (.array [item])

/-! ## Texts that spell `null` -/

variable {text : List Char}

theorem SpellsNull.chars (spelled : SpellsNull text) {char : Char} (member : char ∈ text) :
    isJsonSpace char = true ∨ char ∈ "null".toList := by
  obtain ⟨rest, skipped, closed⟩ := spelled
  rw [← takeWhile_append_dropWhile (p := isJsonSpace) (l := text)] at member
  rcases mem_append.mp member with space | solid
  · exact .inl (mem_takeWhile_imp space)
  · rw [show text.dropWhile isJsonSpace = _ from skipped] at solid
    rcases mem_append.mp solid with word | behind
    · exact .inr word
    · exact .inl (dropWhile_eq_nil_iff.mp closed char behind)

theorem not_spellsNull (char : Char) (member : char ∈ text) (solid : isJsonSpace char = false)
    (other : char ∉ "null".toList) : ¬SpellsNull text := by
  intro spelled
  rcases spelled.chars member with space | word
  · exact absurd (space.symm.trans solid) (by decide)
  · exact other word

theorem SpellsNull.has_n (spelled : SpellsNull text) : 'n' ∈ text := by
  obtain ⟨rest, skipped, -⟩ := spelled
  have inside : 'n' ∈ skipSpace text := by
    rw [skipped]
    simp
  exact (dropWhile_suffix isJsonSpace).subset inside

section Texts

theorem ofItems_eq (items : List (Json {x // double x})) : (ofItems items : List (Value Host)) = items.map ofJson := by
  induction items with
  | nil => rfl
  | cons item items ih => rw [ofItems, ih, map_cons]

theorem isNullish_ofJson (value : Json {x // double x}) :
    (ofJson value : Value Host).isNullish = true ↔ value = .null := by
  cases value <;> simp [ofJson, Value.isNullish]

variable {rt : Runtime Host} {N : Numerals {x // double x}}

variable {text : List Char}

theorem readValue_eq_null {n : ℕ} {rest : List Char} :
    readValue N (n + 1) text = some (.null, rest) ↔ skipSpace text = 'n' :: 'u' :: 'l' :: 'l' :: rest := by
  constructor
  · intro read
    rw [readValue] at read
    split at read
    case h_6 after start =>
      obtain ⟨-, rfl⟩ := Prod.mk.inj (some.inj read)
      exact start
    case h_2 | h_3 =>
      split at read
      · cases read
      · obtain ⟨_, -, same⟩ := map_eq_some_iff.mp read
        cases same
    case h_4 | h_5 => cases read
    case h_1 =>
      obtain ⟨_, -, same⟩ := map_eq_some_iff.mp read
      cases same
    case h_7 =>
      split at read
      · cases read
      · obtain ⟨numeral, -, same⟩ := map_eq_some_iff.mp read
        cases numeral <;> cases same
  · intro start
    rw [readValue, start]
    rfl

theorem parseJson_eq_null : JsonReader.parseJson N text = some .null ↔ SpellsNull text := by
  simp only [JsonReader.parseJson, bind_eq_bind, bind_eq_some_iff]
  constructor
  · rintro ⟨⟨value, rest⟩, read, closed⟩
    split at closed
    · rename_i behind
      obtain rfl := some.inj closed
      exact ⟨rest, readValue_eq_null.mp read, behind⟩
    · cases closed
  · rintro ⟨rest, start, behind⟩
    exact ⟨(.null, rest), readValue_eq_null.mpr start, if_pos behind⟩

variable [DecidablePred double]

theorem elementTexts_length {values : List (Value Host)} {texts : List (List Char)}
    (joined : elementTexts rt N values = .ok texts) : texts.length = values.length := by
  induction values generalizing texts with
  | nil =>
    obtain rfl := Except.ok.inj joined
    rfl
  | cons value values ih =>
    simp only [elementTexts, bind_eq_ok, map_eq_ok] at joined
    obtain ⟨text, -, rest, later, rfl⟩ := joined
    rw [length_cons, length_cons, ih later]

/-- One item is not set apart by anything. -/
theorem textOf_single (value : Value Host) :
    textOf rt N (.array [value]) = if value.isNullish then .ok [] else textOf rt N value := by
  rw [textOf, elementTexts]
  split
  · rfl
  · cases textOf rt N value with
    | error _ => rfl
    | ok text => simp [bind, Except.bind, Except.map, elementTexts, separated]

theorem textOf_several {first second : Value Host} {others : List (Value Host)}
    (joined : textOf rt N (.array (first :: second :: others)) = .ok text) : ',' ∈ text := by
  rw [textOf, map_eq_ok] at joined
  obtain ⟨texts, each, rfl⟩ := joined
  have length := elementTexts_length each
  match texts, length with
  | [], length => cases length
  | [_], length => simp at length
  | _ :: _ :: _, _ => simp [separated]

variable {value : Value Host} {members : List (List Char × Json {x // double x})}

omit [DecidablePred double] in
theorem lookup_ofMembers {key : String} (found : (ofMembers members).lookup key = some value) :
    ∃ json : Json {x // double x}, value = ofJson json := by
  induction members with
  | nil => cases found
  | cons member members ih =>
    rw [ofMembers, lookup_cons] at found
    split at found
    · exact ⟨member.2, (some.inj found).symm⟩
    · exact ih found

theorem objectText_ofMembers (written : textOf rt N (ofJson (.object members)) = .ok text) :
    text = "[object Object]".toList := by
  have data : ∀ key (method : Host), (ofMembers members).lookup key ≠ some (.host method) := by
    intro key method found
    obtain ⟨json, same⟩ := lookup_ofMembers found
    cases json <;> cases same
  rw [ofJson, textOf, objectText] at written
  split at written
  · exact (Except.ok.inj written).symm
  · rename_i found
    exact absurd found (data _ _)
  · rename_i found
    exact absurd found (data _ _)
  · cases written

omit [DecidablePred double] in
theorem spelled_single {item : Json {x // double x}} : Spelled (.array [item]) ↔ Spelled item :=
  ⟨fun spelled => by cases spelled with | array inner => exact inner, .array⟩

variable (rt N) in
theorem textOf_spellsNull (value : Json {x // double x}) :
    (∃ text, textOf rt N (ofJson value) = .ok text ∧ SpellsNull text) ↔ value = .null ∨ Spelled value := by
  induction value with
  | null => exact ⟨fun _ => .inl rfl, fun _ => ⟨_, rfl, [], rfl, rfl⟩⟩
  | boolean value =>
    refine ⟨fun ⟨text, written, spelled⟩ => ?_, fun either => by rcases either with ⟨⟨⟩⟩ | ⟨⟨⟩⟩⟩
    obtain rfl := Except.ok.inj written
    have letter : 'e' ∈ (if value then "true" else "false").toList := by cases value <;> decide
    exact absurd spelled (not_spellsNull 'e' letter rfl (by decide))
  | number value =>
    refine ⟨fun ⟨text, written, spelled⟩ => ?_, fun either => by rcases either with ⟨⟨⟩⟩ | ⟨⟨⟩⟩⟩
    obtain rfl := Except.ok.inj written
    have numeral : 'n' ∈ N.toText value := by
      simpa [numberText, value.2] using spelled.has_n
    cases N.numeral value 'n' numeral
  | infinity negative =>
    refine ⟨fun ⟨text, written, spelled⟩ => ?_, fun either => by rcases either with ⟨⟨⟩⟩ | ⟨⟨⟩⟩⟩
    obtain rfl := Except.ok.inj written
    have letter : 'I' ∈ numberText rt N (.infinity negative) := by cases negative <;> simp [numberText]
    exact absurd spelled (not_spellsNull 'I' letter rfl (by decide))
  | string value =>
    simp only [ofJson, textOf, String.toList_ofList, Except.ok.injEq, exists_eq_left', reduceCtorEq, false_or]
    exact ⟨.string, fun spelled => by cases spelled with | string spelled => exact spelled⟩
  | array items each =>
    rw [ofJson, ofItems_eq]
    match items, each with
    | [], _ =>
      refine ⟨fun ⟨text, written, spelled⟩ => ?_, fun either => by rcases either with ⟨⟨⟩⟩ | ⟨⟨⟩⟩⟩
      obtain rfl := Except.ok.inj written
      exact absurd spelled.has_n not_mem_nil
    | [item], each =>
      rw [map_singleton, textOf_single]
      split
      · rename_i absent
        obtain rfl := (isNullish_ofJson item).mp absent
        rw [spelled_single]
        refine ⟨fun ⟨text, written, spelled⟩ => ?_, fun either => by rcases either with ⟨⟨⟩⟩ | ⟨⟨⟩⟩⟩
        obtain rfl := Except.ok.inj written
        exact absurd spelled.has_n not_mem_nil
      · rename_i present
        have filled : item ≠ .null := fun same => present ((isNullish_ofJson item).mpr same)
        rw [each item (mem_singleton_self _), spelled_single, or_iff_right filled, or_iff_right nofun]
    | first :: second :: others, _ =>
      refine ⟨fun ⟨text, written, spelled⟩ => ?_, fun either => by rcases either with ⟨⟨⟩⟩ | ⟨⟨⟩⟩⟩
      exact absurd spelled (not_spellsNull ',' (textOf_several written) rfl (by decide))
  | object members =>
    refine ⟨fun ⟨text, written, spelled⟩ => ?_, fun either => by rcases either with ⟨⟨⟩⟩ | ⟨⟨⟩⟩⟩
    rw [objectText_ofMembers written] at spelled
    exact absurd spelled (not_spellsNull '[' (by decide) rfl (by decide))

theorem syntaxNodeToValue_object {node : SyntaxNode Host} (object : isObjectExpression node = true)
    (read : syntaxNodeToValue rt N node = .ok value) : ∃ members, value = .object members := by
  cases node with
  | objectExpression properties =>
    rw [syntaxNodeToValue, map_eq_ok] at read
    obtain ⟨entries, -, rfl⟩ := read
    exact ⟨_, rfl⟩
  | _ => cases object

variable {esprimaParse : String → Except JsError (List (SyntaxNode Host))}

theorem parseJSObject_ok {text : String} (read : parseJSObject rt N esprimaParse text = .ok value) :
    value = .undefined ∨ ∃ members, value = .object members := by
  simp only [parseJSObject, bind_eq_ok] at read
  obtain ⟨body, -, read⟩ := read
  split at read
  · rename_i node found
    exact .inr (syntaxNodeToValue_object (find?_some found) read)
  · exact .inl (Except.ok.inj read).symm

theorem jsonParse_standard {text : String} (parsed : jsonParse (standard rt N esprimaParse) text = .ok value) :
    (∃ json, JsonReader.parseJson N text.toList = some json ∧ value = ofJson json) ∨
      value = .undefined ∨ ∃ members, value = .object members := by
  cases read : JsonReader.parseJson N text.toList with
  | some json =>
    simp only [jsonParse, standard, read] at parsed
    exact .inl ⟨json, rfl, (Except.ok.inj parsed).symm⟩
  | none =>
    simp only [jsonParse, standard, read] at parsed
    split at parsed
    · rename_i found
      obtain rfl := Except.ok.inj parsed
      exact .inr (parseJSObject_ok found)
    · cases parsed

theorem jsonParse_null (word : SpellsNull text) :
    jsonParse (standard rt N esprimaParse) (String.ofList text) = .ok .null := by
  simp only [jsonParse, standard, String.toList_ofList, parseJson_eq_null.mpr word, ofJson]

theorem toText_standard (value : Json {x // double x}) :
    (ofJson value).toText (standard rt N esprimaParse) = (textOf rt N (ofJson value)).map String.ofList := by
  cases value <;> simp [ofJson, Value.toText, textOf, standard, Except.map]

theorem tryToParseObject_of_spelled {value : Json {x // double x}} (spelled : Spelled value) :
    tryToParseObject (standard rt N esprimaParse) (ofJson value) = .ok .null := by
  obtain ⟨text, written, word⟩ := (textOf_spellsNull rt N value).mpr (.inr spelled)
  have plain : ((ofJson value).truthy (standard rt N esprimaParse) &&
      (ofJson value).typeof (standard rt N esprimaParse) == "object" &&
        !(ofJson value : Value Host).isArray) = false := by
    cases spelled <;> simp [ofJson, Value.typeof, Value.isArray]
  rw [tryToParseObject, plain, if_neg Bool.false_ne_true, toText_standard, written]
  simp [Except.map, jsonParse_null word, Value.typeof, Value.isArray]

theorem tryToParseObject_standard {value : Json {x // double x}} (filled : value ≠ .null) {newValue : Value Host}
    (parsed : tryToParseObject (standard rt N esprimaParse) (ofJson value) = .ok newValue) :
    (∃ members, newValue = .object members) ∨ newValue = .null ∧ Spelled value := by
  unfold tryToParseObject at parsed
  split at parsed
  · rename_i plain
    obtain rfl := Except.ok.inj parsed
    cases value <;> simp [ofJson, Value.typeof, Value.isArray, Value.truthy] at plain ⊢
  · split at parsed
    · rename_i read found
      split at parsed
      · cases parsed
      · rename_i object
        obtain rfl := Except.ok.inj parsed
        rw [toText_standard, bind_eq_ok] at found
        obtain ⟨_, written, reads⟩ := found
        obtain ⟨text, spelling, rfl⟩ := map_eq_ok.mp written
        rcases jsonParse_standard reads with ⟨json, word, rfl⟩ | rfl | members
        · cases json with
          | null =>
            rw [String.toList_ofList, parseJson_eq_null] at word
            exact .inr ⟨rfl, ((textOf_spellsNull rt N value).mp ⟨text, spelling, word⟩).resolve_left filled⟩
          | object members => exact .inl ⟨_, rfl⟩
          | _ => simp [ofJson, Value.typeof, Value.isArray] at object
        · simp [Value.typeof] at object
        · exact .inl members
    · cases parsed

end Texts

/-! ## Validation -/

section Validation

variable {rt : Runtime Host} {type : TargetType} {value newValue : Value Host} {fieldName : String} {strict : Bool}

def strictly (rt : Runtime Host) : TargetType → Value Host → Bool
  | .string, value => value.typeof rt == "string"
  | .number, value => value.typeof rt == "number"
  | .boolean, value => value.typeof rt == "boolean"
  | .array, value => value.isArray
  | .object, value => rt.isObject value

def parsed (rt : Runtime Host) : TargetType → Value Host → Except ParseFailure (Value Host)
  | .string, value => tryToParseString rt value
  | .number, value => (tryToParseNumber rt value).map .number
  | .boolean, value => (tryToParseBoolean rt value).map .boolean
  | .array, value => tryToParseArray rt value
  | .object, value => tryToParseObject rt value

theorem checked_eq_valid {α : Type} {blocked : Bool} {message : String} {computed : Except ParseFailure α}
    {toValue : α → Value Host} : (if blocked = true then Except.ok (.invalid message)
      else .ok (caught message computed toValue) : Except JsError (ValidationResult Host)) = .ok (.valid newValue) ↔
        blocked = false ∧ computed.map toValue = .ok newValue := by
  cases blocked <;> cases computed <;> simp [caught, Except.map]

variable (type) in
theorem validateFieldType_eq_valid (filled : value.isNullish = false)
    (described : ∃ text, getValueDescription rt value = .ok text) :
    validateFieldType rt fieldName value type.fieldType ⟨strict, true⟩ = .ok (.valid newValue) ↔
      (strict && !strictly rt type value) = false ∧ parsed rt type value = .ok newValue := by
  obtain ⟨text, described⟩ := described
  unfold validateFieldType
  simp only [filled, described, bind, Except.bind, pure, Except.pure, Bool.false_eq_true, if_false, Bool.not_true]
  cases type with
  | string => exact checked_eq_valid.trans (by rw [Except.map_id]; rfl)
  | number => exact checked_eq_valid
  | boolean => exact checked_eq_valid
  | array => exact checked_eq_valid.trans (by rw [Except.map_id]; rfl)
  | object => exact checked_eq_valid.trans (by rw [Except.map_id]; rfl)

theorem described_of_data (data : ∀ host, value ≠ .host host) : ∃ text, getValueDescription rt value = .ok text := by
  cases value with
  | host host => exact absurd rfl (data host)
  | _ => exact ⟨_, rfl⟩

theorem OfType.data (of : OfType type value) : ∀ host, value ≠ .host host := by
  cases type <;> (obtain ⟨_, rfl⟩ := of; nofun)

theorem OfType.strictly (isObject : rt.IsObjectTells) (of : OfType type value) :
    value.isNullish = false ∧ strictly rt type value = true := by
  cases type <;> (obtain ⟨_, rfl⟩ := of; simp [TypeConversion.strictly, Value.typeof, Value.isArray, isObject _,
    Value.isNullish])

theorem not_nan_of_parsed {number : JsNumber} (done : tryToParseNumber rt value = .ok number) :
    number.isNaN = false := by
  obtain ⟨read, -, checked⟩ := bind_eq_ok.mp done
  split at checked
  · cases checked
  · rename_i real
    obtain rfl := Except.ok.inj checked
    simpa using real

theorem tryToParseArray_ok (done : tryToParseArray rt value = .ok newValue) : ∃ items, newValue = .array items := by
  unfold tryToParseArray at done
  dsimp only at done
  split at done
  · obtain rfl := Except.ok.inj done
    cases value <;> simp_all [Value.isArray]
  · split at done
    · exact ⟨_, (Except.ok.inj done).symm⟩
    · cases done

end Validation

section Conversion

theorem ofJson_data (value : Json {x // double x}) : ∀ host : Host, ofJson value ≠ .host host := by
  cases value <;> nofun

theorem ofJson_filled {value : Json {x // double x}} (filled : value ≠ .null) :
    (ofJson value : Value Host).isNullish = false := by
  rw [Bool.eq_false_iff]
  exact mt (isNullish_ofJson value).mp filled

variable [DecidablePred double] {rt : Runtime Host} {N : Numerals {x // double x}}
  {esprimaParse : String → Except JsError (List (SyntaxNode Host))} {type : TargetType}
  {value : Json {x // double x}} {newValue : Value Host}

theorem toJson_ofJson (value : Json {x // double x}) : toJson (ofJson value : Value Host) = some value := by
  induction value with
  | null => rfl
  | boolean value => rfl
  | number value => simp [ofJson, toJson, value.2]
  | infinity negative => rfl
  | string value => simp [ofJson, toJson]
  | array items each =>
    have all : toItems (ofItems items : List (Value Host)) = some items := by
      induction items with
      | nil => rfl
      | cons item items ih =>
        obtain ⟨first, rest⟩ := forall_mem_cons.mp each
        simp [ofItems, toItems, first, ih rest]
    rw [ofJson, toJson, all, map_some]
  | object members each =>
    have all : toMembers (ofMembers members : List (String × Value Host)) = some members := by
      induction members with
      | nil => rfl
      | cons member members ih =>
        obtain ⟨first, rest⟩ := forall_mem_cons.mp each
        simp [ofMembers, toMembers, first, ih rest]
    rw [ofJson, toJson, all, map_some]

theorem stringify_ofJson (value : Json {x // double x}) :
    (standard rt N esprimaParse).stringify (ofJson value) = .ok (some (String.ofList (value.text N))) := by
  simp only [standard, stringify, toJson_ofJson]

theorem tryToParseString_standard (filled : value ≠ .null)
    (done : tryToParseString (standard rt N esprimaParse) (ofJson value) = .ok newValue) :
    ∃ text, newValue = .string text := by
  cases value with
  | null => exact absurd rfl filled
  | array items =>
    simp only [tryToParseString, stringify_ofJson] at done
    exact ⟨_, (Except.ok.inj done).symm⟩
  | object members =>
    simp only [tryToParseString, stringify_ofJson] at done
    exact ⟨_, (Except.ok.inj done).symm⟩
  | _ => exact ⟨_, (Except.ok.inj done).symm⟩

theorem parsed_settles (filled : value ≠ .null)
    (done : parsed (standard rt N esprimaParse) type (ofJson value) = .ok newValue) :
    (OfType type newValue ∧ parsed (standard rt N esprimaParse) type newValue = .ok newValue) ∨
      type = .object ∧ Spelled value := by
  cases type with
  | string =>
    obtain ⟨text, rfl⟩ := tryToParseString_standard filled done
    exact .inl ⟨⟨text, rfl⟩, rfl⟩
  | number =>
    obtain ⟨number, read, rfl⟩ := map_eq_ok.mp done
    refine .inl ⟨⟨number, rfl⟩, ?_⟩
    have real := not_nan_of_parsed read
    simp [parsed, tryToParseNumber, Value.toNumber, liftJs, Except.mapError, real, Except.map]
  | boolean =>
    obtain ⟨boolean, -, rfl⟩ := map_eq_ok.mp done
    exact .inl ⟨⟨boolean, rfl⟩, rfl⟩
  | array =>
    obtain ⟨items, rfl⟩ := tryToParseArray_ok done
    exact .inl ⟨⟨items, rfl⟩, rfl⟩
  | object =>
    rcases tryToParseObject_standard filled done with ⟨members, rfl⟩ | ⟨-, spelled⟩
    · exact .inl ⟨⟨members, rfl⟩, rfl⟩
    · exact .inr ⟨rfl, spelled⟩

/-- A text that spells `null` is an object, and that is `null`. -/
theorem valid_of_spelled (spelled : Spelled value) (fieldName : String) : value ≠ .null ∧
    validateFieldType (standard rt N esprimaParse) fieldName (ofJson value) .object ⟨false, true⟩ =
      .ok (.valid .null) := by
  have filled : value ≠ .null := by
    rintro rfl
    cases spelled
  exact ⟨filled, (validateFieldType_eq_valid .object (ofJson_filled filled)
    (described_of_data (ofJson_data value))).mpr ⟨rfl, tryToParseObject_of_spelled spelled⟩⟩

theorem isObjectTells_standard (isObject : rt.IsObjectTells) :
    (standard rt N esprimaParse).IsObjectTells := by
  intro value
  refine (isObject value).trans ?_
  cases value <;> rfl

end Conversion

/-- A conversion of a JSON value lands in the type and stays, unless a text that spells `null` is
converted to an object. -/
theorem landsAndStays_iff [DecidablePred double] (rt : Runtime Host) (N : Numerals {x // double x})
    (esprimaParse : String → Except JsError (List (SyntaxNode Host))) (fieldName : String)
    (isObject : rt.IsObjectTells) (value : Json {x // double x}) (type : TargetType) :
    (value ≠ .null → LandsAndStays (standard rt N esprimaParse) fieldName (ofJson value) type) ↔
      ¬(type = .object ∧ Spelled value) := by
  constructor
  · rintro lands ⟨rfl, spelled⟩
    obtain ⟨filled, valid⟩ := valid_of_spelled spelled fieldName
    obtain ⟨⟨members, same⟩, -⟩ := lands filled .null valid
    cases same
  · intro fine filled newValue valid
    have done := ((validateFieldType_eq_valid type (ofJson_filled filled)
      (described_of_data (ofJson_data value))).mp valid).2
    rcases parsed_settles filled done with ⟨of, again⟩ | spelled
    · have tells : (standard rt N esprimaParse).IsObjectTells := isObjectTells_standard isObject
      obtain ⟨present, check⟩ := of.strictly tells
      refine ⟨of, (validateFieldType_eq_valid type present (described_of_data of.data)).mpr ⟨?_, again⟩⟩
      rw [check]
      rfl
    · exact absurd spelled fine

/-- A text of a digit lands among the numbers. -/
theorem text_lands : LandsAndStays (standard FilterParameter.plainRuntime safeIntegers fun _ => .error .syntaxError)
    "field" (ofJson (.string ['7'] : Json {x // IsSafeInteger x})) .number :=
  (landsAndStays_iff FilterParameter.plainRuntime safeIntegers (fun _ => .error .syntaxError) "field"
    FilterParameter.plainRuntime_isObject (.string ['7']) .number).mpr nofun nofun

/-- The text `null` is validated as an object. -/
theorem null_text_validated : ¬ ∀ (value : Json {x // IsSafeInteger x}) (type : TargetType), value ≠ .null →
    LandsAndStays (standard FilterParameter.plainRuntime safeIntegers fun _ => .error .syntaxError) "field"
      (ofJson value) type := by
  intro lands
  have spelled : Spelled (.string "null".toList : Json {x // IsSafeInteger x}) := .string ⟨[], rfl, rfl⟩
  obtain ⟨filled, valid⟩ := valid_of_spelled spelled "field"
  obtain ⟨⟨members, same⟩, -⟩ := lands _ .object filled .null valid
  cases same

end N8n.TypeConversion
