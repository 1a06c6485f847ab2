import N8n.JsValue

/-! `type-validation.ts`, for the types that a filter operator can have. -/

namespace N8n.TypeValidation

open Js

inductive ValidationResult (Host : Type) where
  | valid (newValue : Value Host)
  | invalid (errorMessage : String)

def ValidationResult.isValid {Host : Type} : ValidationResult Host → Bool
  | valid _ => true
  | invalid _ => false

def ValidationResult.newValue {Host : Type} : ValidationResult Host → Value Host
  | valid newValue => newValue
  | invalid _ => .undefined

/-- What the parsers throw: an error of their own or one of the language. -/
inductive ParseFailure where
  | userError (message : String)
  | jsError (error : JsError)
  deriving DecidableEq

inductive FilterOperatorType where
  | string
  | number
  | boolean
  | array
  | object
  | dateTime
  | any
  deriving DecidableEq

def FilterOperatorType.name : FilterOperatorType → String
  | string => "string"
  | number => "number"
  | boolean => "boolean"
  | array => "array"
  | object => "object"
  | dateTime => "dateTime"
  | any => "any"

variable {Host : Type} (rt : Runtime Host)

def liftJs {α : Type} (computed : Except JsError α) : Except ParseFailure α :=
  computed.mapError .jsError

def tryToParseNumber (value : Value Host) : Except ParseFailure JsNumber := do
  let number ← liftJs (value.toNumber rt)
  if number.isNaN then .error (.userError "Failed to parse value to number") else .ok number

def tryToParseString (value : Value Host) : Except ParseFailure (Value Host) := do
  if value.typeof rt = "object" then
    let text ← liftJs (rt.stringify value)
    -- an object can ask `JSON.stringify` to leave it out
    return text.elim .undefined .string
  else if value.typeof rt = "undefined" then return .string ""
  else return .string (← liftJs (value.toText rt))

/-- White space only, as `value.trim() === ''` finds it. -/
def isBlank (text : String) : Bool := JsText.trim text.toList == []

def tryToParseBoolean (value : Value Host) : Except ParseFailure Bool := do
  let named : Option Bool := match value with
    | .boolean value => some value
    | .string text =>
      if rt.toLowerCase text = "true" then some true
      else if rt.toLowerCase text = "false" then some false
      else none
    | _ => none
  let blank : Bool := match value with
    | .string text => isBlank text
    | _ => false
  match named with
  | some found => return found
  | none =>
    if blank then .error (.userError "Failed to parse value as boolean")
    else
      let number ← liftJs (value.toNumber rt)
      if number.same (.finite 0) then return false
      else if number.same (.finite 1) then return true
      else .error (.userError "Failed to parse value as boolean")

def dateFormats : List (String → Option ℤ) :=
  [rt.fromISO, rt.fromHTTP, rt.fromRFC2822, rt.fromSQL, rt.dateParse]

def tryToParseDateTime (value : Value Host) : Except ParseFailure (Value Host) := do
  match value with
  | .dateTime (some time) | .date (some time) => return .dateTime (some time)
  | _ =>
    let text ← liftJs (value.toText rt)
    let dateString := String.ofList (JsText.trim text.toList)
    match (dateFormats rt).findSome? fun format => format dateString with
    | some time => return .dateTime (some time)
    | none => .error (.userError "Value is not a valid date")

/-- `text.replace(/'/g, '"')`. -/
def doubleQuoted (text : String) : String :=
  String.ofList (text.toList.map fun char => if char = '\'' then '"' else char)

def tryToParseArray (value : Value Host) : Except ParseFailure (Value Host) :=
  if value.isArray then .ok value
  else
    let parsed := do
      let text ← value.toText rt
      (rt.parseJson text).orElseLazy fun _ => rt.parseJson (doubleQuoted text)
    match parsed with
    | .ok (.array items) => .ok (.array items)
    | _ => .error (.userError "Value is not a valid array")

/-- `jsonParse(text, { acceptJSObject: true })`. -/
def jsonParse (text : String) : Except JsError (Value Host) :=
  match rt.parseJson text with
  | .ok parsed => .ok parsed
  | .error error =>
    match rt.parseJSObject text with
    | .ok parsed => .ok parsed
    | .error _ => .error error

def tryToParseObject (value : Value Host) : Except ParseFailure (Value Host) :=
  if value.truthy rt && value.typeof rt == "object" && !value.isArray then .ok value
  else
    match value.toText rt >>= jsonParse rt with
    | .ok parsed =>
      if parsed.typeof rt != "object" || parsed.isArray then
        .error (.userError "Value is not a valid object")
      else .ok parsed
    | .error _ => .error (.userError "Value is not a valid object")

def getValueDescription (value : Value Host) : Except JsError String := do
  if value.typeof rt = "object" then
    return match value with
      | .null => "'null'"
      | .array _ => "array"
      | _ => "object"
  else return s!"'{← value.toText rt}'"

def luxonDocsURL : String :=
  "https://moment.github.io/luxon/api-docs/index.html#datetimefromformat"

structure ValidateFieldTypeOptions where
  strict : Bool := false
  parseStrings : Bool := false

/-- A parser's value, or `message` whatever the parser throws. -/
def caught {α : Type} (message : String) (parsed : Except ParseFailure α) (toValue : α → Value Host) :
    ValidationResult Host :=
  match parsed with
  | .ok value => .valid (toValue value)
  | .error _ => .invalid message

/-- `validateFieldType`, for the types of a filter operator. -/
def validateFieldType (fieldName : String) (value : Value Host) (type : FilterOperatorType)
    (options : ValidateFieldTypeOptions) : Except JsError (ValidationResult Host) := do
  if value.isNullish then return .valid .undefined
  let defaultErrorMessage :=
    s!"'{fieldName}' expects a {type.name} but we got {← getValueDescription rt value}"
  match type with
  | .string =>
    if !options.parseStrings then return .valid value
    else if options.strict && value.typeof rt != "string" then return .invalid defaultErrorMessage
    else return caught defaultErrorMessage (tryToParseString rt value) id
  | .number =>
    if options.strict && value.typeof rt != "number" then return .invalid defaultErrorMessage
    else return caught defaultErrorMessage (tryToParseNumber rt value) .number
  | .boolean =>
    if options.strict && value.typeof rt != "boolean" then return .invalid defaultErrorMessage
    else return caught defaultErrorMessage (tryToParseBoolean rt value) .boolean
  | .dateTime =>
    return caught (defaultErrorMessage ++ " <br/><br/> Consider using <a href=\"" ++ luxonDocsURL ++
      "\" target=\"_blank\"><code>DateTime.fromFormat</code></a> to work with custom date formats.")
      (tryToParseDateTime rt value) id
  | .object =>
    if options.strict && !rt.isObject value then return .invalid defaultErrorMessage
    else return caught defaultErrorMessage (tryToParseObject rt value) id
  | .array =>
    if options.strict && !value.isArray then return .invalid defaultErrorMessage
    else return caught defaultErrorMessage (tryToParseArray rt value) id
  | .any => return .valid value

end N8n.TypeValidation
