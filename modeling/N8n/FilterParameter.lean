import Mathlib.Data.List.Infix
import N8n.TypeValidation

/-! `node-parameters/filter-parameter.ts`: the conditions of a filter, how they are run and
how they are validated. -/

namespace N8n.FilterParameter

open Js TypeValidation

structure FilterOperatorValue where
  type : FilterOperatorType
  operation : String
  rightType : Option FilterOperatorType := none
  singleValue : Bool := false

structure FilterConditionValue (Host : Type) where
  leftValue : Value Host
  operator : FilterOperatorValue
  rightValue : Value Host

inductive TypeValidationMode where
  | strict
  | loose
  deriving DecidableEq

structure FilterOptionsValue where
  caseSensitive : Bool
  typeValidation : TypeValidationMode
  version : Option ℕ := none

structure FilterValue (Host : Type) where
  options : FilterOptionsValue
  conditions : List (FilterConditionValue Host)
  combinator : String

inductive ErrorFormat where
  | full
  | inline

structure FilterConditionMetadata where
  index : Option ℕ := none
  unresolvedExpressions : Bool := false
  itemIndex : Option ℕ := none
  errorFormat : Option ErrorFormat := none

structure FilterError where
  message : String
  description : String

inductive Thrown where
  | filterError (error : FilterError)
  | jsError (error : JsError)

variable {Host : Type} (rt : Runtime Host)

section Parsing

def isEmptyOperand : Value Host → Bool
  | .string text => isBlank text
  | .array items => items.isEmpty
  | _ => false

def parseSingleFilterValue (value : Value Host) (type : FilterOperatorType) (strict : Bool)
    (version : ℕ) : Except JsError (ValidationResult Host) := do
  if type = .any || value.isNullish then return .valid value
  if type = .boolean && !strict then
    if 2 ≤ version then
      let result ← validateFieldType rt "filter" value type {}
      if result.isValid then return result
    return .valid (.boolean (value.truthy rt))
  if type = .number then
    if value.isNaN then return .valid value
    if isEmptyOperand value && 3 ≤ version then return .valid .null
  validateFieldType rt "filter" value type { strict, parseStrings := true }

def withIndefiniteArticle (noun : String) : String :=
  let vowel := noun.toList.head?.elim true ("aeiou".toList.contains ·)
  let article := if vowel then "an" else "a"
  s!"{article} {noun}"

def composeInvalidTypeMessage (strict : Bool) (suffix type fromType value : String) : String :=
  let fromType := rt.toLocaleLowerCase fromType
  if strict then
    s!"Wrong type: '{value}' is {withIndefiniteArticle fromType} but was expecting " ++
      s!"{withIndefiniteArticle type} {suffix}"
  else
    s!"Conversion error: the {fromType} '{value}' can't be converted to " ++ s!"{withIndefiniteArticle type} {suffix}"

def getTypeDescription (strict : Bool) : String :=
  if strict then
    "Try changing the type of comparison. Alternatively you can enable 'Convert types where required'."
  else "Try changing the type of the comparison."

def convertionFunction : FilterOperatorType → String
  | .string => ".toString()"
  | .number => ".toNumber()"
  | .boolean => ".toBoolean()"
  | _ => ""

def composeInvalidTypeDescription (strict : Bool) (type : FilterOperatorType) (valuePosition : String) : String :=
  if strict && convertionFunction type != "" then
    "\n<p>Try either:</p>\n<ol>\n  <li>Enabling 'Convert types where required'</li>\n" ++
      s!"  <li>Converting the {valuePosition} field to {withIndefiniteArticle type.name}" ++
      s!" by adding <code>{convertionFunction type}</code></li>\n</ol>\n\t\t\t"
  else getTypeDescription strict

/-- An operand that is an expression which is not evaluated yet. -/
def isUnresolved : Value Host → Bool
  | .string text => text.startsWith "="
  | _ => false

def parseFilterConditionValues (condition : FilterConditionValue Host)
    (options : FilterOptionsValue) (metadata : FilterConditionMetadata) :
    Except Thrown (Except FilterError (Value Host × Value Host)) := do
  let strict := options.typeValidation = .strict
  let version := options.version.getD 1
  let operator := condition.operator
  let rightType := operator.rightType.getD operator.type
  let parsedLeftValue ← (parseSingleFilterValue rt condition.leftValue operator.type strict version).mapError .jsError
  let parsedRightValue ← (parseSingleFilterValue rt condition.rightValue rightType strict version).mapError .jsError
  let leftValid := parsedLeftValue.isValid || (metadata.unresolvedExpressions && isUnresolved condition.leftValue)
  let rightValid := parsedRightValue.isValid || operator.singleValue ||
    (metadata.unresolvedExpressions && isUnresolved condition.rightValue)
  let leftValueString ← (condition.leftValue.toText rt).mapError .jsError
  let rightValueString ← (condition.rightValue.toText rt).mapError .jsError
  let suffix := match metadata.errorFormat.getD .full with
    | .full => s!"[condition {metadata.index.getD 0}, item {metadata.itemIndex.getD 0}]"
    | .inline => s!"[item {metadata.itemIndex.getD 0}]"
  let leftType := condition.leftValue.typeof rt
  if !leftValid && !rightValid && leftType == condition.rightValue.typeof rt then
    return .error {
      message := s!"Comparison type expects {withIndefiniteArticle operator.type.name} " ++
        s!"but both fields are {withIndefiniteArticle leftType}"
      description := getTypeDescription strict }
  else if !leftValid then
    return .error {
      message := composeInvalidTypeMessage rt strict suffix operator.type.name leftType leftValueString
      description := composeInvalidTypeDescription strict operator.type "first" }
  else if !rightValid then
    return .error {
      message := composeInvalidTypeMessage rt strict suffix rightType.name
        (condition.rightValue.typeof rt) rightValueString
      description := composeInvalidTypeDescription strict rightType "second" }
  else return .ok (parsedLeftValue.newValue, parsedRightValue.newValue)

end Parsing

section Execution

def parseRegexPattern (pattern : String) : String × String :=
  match pattern.toList with
  | '/' :: rest =>
    let flags := rest.rtakeWhile (· != '/')
    let body := rest.rdropWhile (· != '/')
    if body ≠ [] ∧ flags.all ("gimusy".toList.contains ·) ∧
        body.all (fun char => !(['\n', '\r', '\u2028', '\u2029'].contains char)) then
      (String.ofList body.dropLast, String.ofList flags)
    else (pattern, "")
  | _ => (pattern, "")

def testRegex (pattern : Value Host) (text : String) : Except JsError Bool :=
  if pattern.truthy rt then
    match pattern with
    | .string pattern =>
      rt.testRegExp (parseRegexPattern pattern).1 (parseRegexPattern pattern).2 text
    | _ => .error .typeError
  else rt.testRegExp "" "" text

def arrayContainsValue (array : List (Value Host)) (value : Value Host) (ignoreCase : Bool) : Bool :=
  match ignoreCase, value with
  | true, .string text =>
    array.any fun
      | .string item => rt.toLocaleLowerCase item == rt.toLocaleLowerCase text
      | _ => false
  | _, _ => array.any (Value.sameValueZero rt · value)

/-- `left ?? ''`, for an operand parsed as a string. -/
def asText : Value Host → Except JsError String
  | .string text => .ok text
  | .undefined | .null => .ok ""
  | _ => .error .typeError

/-- `left ?? []`, for an operand parsed as an array. -/
def asItems : Value Host → Except JsError (List (Value Host))
  | .array items => .ok items
  | .undefined | .null => .ok []
  | _ => .error .typeError

/-- `value.toMillis()`. -/
def toMillis : Value Host → Except JsError (Value Host)
  | .dateTime time => .ok (.number (time.elim .nan fun time => .finite time))
  | _ => .error .typeError

def lowerCased : Value Host → Value Host
  | .string text => .string (rt.toLocaleLowerCase text)
  | value => value

/-- What an operation on strings gives, unless its name is unknown. -/
def executeString (operation : String) (ignoreCase : Bool) (leftValue rightValue : Value Host) :
    Except JsError (Option Bool) := do
  let isRegex := operation == "regex" || operation == "notRegex"
  let left ← asText (if ignoreCase then lowerCased rt leftValue else leftValue)
  let cased := if ignoreCase && !isRegex then lowerCased rt rightValue else rightValue
  let right := if cased.isNullish then .string "" else cased
  let searched : Except JsError (List Char) := do return (← right.toSearchText rt).toList
  match operation with
  | "empty" => return some (left.length == 0)
  | "notEmpty" => return some (left.length != 0)
  | "equals" => return some (Value.strictEquals rt (.string left) right)
  | "notEquals" => return some !(Value.strictEquals rt (.string left) right)
  | "contains" => return some (decide ((← searched) <:+: left.toList))
  | "notContains" => return some !(decide ((← searched) <:+: left.toList))
  | "startsWith" => return some ((← searched).isPrefixOf left.toList)
  | "notStartsWith" => return some !((← searched).isPrefixOf left.toList)
  | "endsWith" => return some ((← searched).isSuffixOf left.toList)
  | "notEndsWith" => return some !((← searched).isSuffixOf left.toList)
  | "regex" => return some (← testRegex rt right left)
  | "notRegex" => return some !(← testRegex rt right left)
  | _ => return none

def executeNumber (operation : String) (exist : Bool) (left right : Value Host) : Except JsError (Option Bool) := do
  match operation with
  | "empty" => return some !exist
  | "notEmpty" => return some exist
  | "equals" => return some (Value.strictEquals rt left right)
  | "notEquals" => return some !(Value.strictEquals rt left right)
  | "gt" => return some (← Value.less rt right left)
  | "lt" => return some (← Value.less rt left right)
  | "gte" => return some (← Value.lessEq rt right left)
  | "lte" => return some (← Value.lessEq rt left right)
  | _ => return none

def executeDateTime (operation : String) (exist : Bool) (left right : Value Host) : Except JsError (Option Bool) := do
  if operation = "empty" then return some !exist
  if operation = "notEmpty" then return some exist
  if !left.truthy rt || !right.truthy rt then return some false
  match operation with
  | "equals" => return some (Value.strictEquals rt (← toMillis left) (← toMillis right))
  | "notEquals" => return some !(Value.strictEquals rt (← toMillis left) (← toMillis right))
  | "after" => return some (← Value.less rt (← toMillis right) (← toMillis left))
  | "before" => return some (← Value.less rt (← toMillis left) (← toMillis right))
  | "afterOrEquals" => return some (← Value.lessEq rt (← toMillis right) (← toMillis left))
  | "beforeOrEquals" => return some (← Value.lessEq rt (← toMillis left) (← toMillis right))
  | _ => return none

def executeBoolean (operation : String) (exist : Bool) (left right : Value Host) :
    Option Bool :=
  match operation with
  | "empty" => some !exist
  | "notEmpty" => some exist
  | "true" => some (left.truthy rt)
  | "false" => some !(left.truthy rt)
  | "equals" => some (Value.strictEquals rt left right)
  | "notEquals" => some !(Value.strictEquals rt left right)
  | _ => none

def executeArray (operation : String) (ignoreCase : Bool) (leftValue right : Value Host) :
    Except JsError (Option Bool) := do
  let left ← asItems leftValue
  let length : Value Host := .number (.finite left.length)
  match operation with
  | "contains" => return some (arrayContainsValue rt left right ignoreCase)
  | "notContains" => return some !(arrayContainsValue rt left right ignoreCase)
  | "lengthEquals" => return some (Value.strictEquals rt length right)
  | "lengthNotEquals" => return some !(Value.strictEquals rt length right)
  | "lengthGt" => return some (← Value.less rt right length)
  | "lengthLt" => return some (← Value.less rt length right)
  | "lengthGte" => return some (← Value.lessEq rt right length)
  | "lengthLte" => return some (← Value.lessEq rt length right)
  | "empty" => return some left.isEmpty
  | "notEmpty" => return some !left.isEmpty
  | _ => return none

def executeObject (operation : String) (left : Value Host) : Option Bool :=
  match operation with
  | "empty" => some (!left.truthy rt || left.keyCount rt == 0)
  | "notEmpty" => some (left.truthy rt && left.keyCount rt != 0)
  | _ => none

def executeOperator (operator : FilterOperatorValue) (ignoreCase : Bool)
    (left right : Value Host) : Except JsError Bool := do
  let exist := !left.isNullish && !left.isNaN
  if operator.operation = "exists" then return exist
  if operator.operation = "notExists" then return !exist
  let result ← match operator.type with
    | .string => executeString rt operator.operation ignoreCase left right
    | .number => executeNumber rt operator.operation exist left right
    | .dateTime => executeDateTime rt operator.operation exist left right
    | .boolean => pure (executeBoolean rt operator.operation exist left right)
    | .array => executeArray rt operator.operation ignoreCase left right
    | .object => pure (executeObject rt operator.operation left)
    | .any => pure none
  return result.getD false

def executeFilterCondition (condition : FilterConditionValue Host)
    (filterOptions : FilterOptionsValue) (metadata : FilterConditionMetadata) :
    Except Thrown Bool := do
  match ← parseFilterConditionValues rt condition filterOptions metadata with
  | .error error => .error (.filterError error)
  | .ok (left, right) =>
    (executeOperator rt condition.operator (!filterOptions.caseSensitive) left right).mapError .jsError

end Execution

section Validation

/-- The issues by key, `Record<string, string[]>`. -/
abbrev Issues := List (String × List String)

def issueKey (name : String) (index : ℕ) : String := s!"{name}.{index}"

/-- `issues[key].push(message)`. -/
def pushIssue (issues : Issues) (key message : String) : Except Thrown Issues :=
  match issues.lookup key with
  | none => .error (.jsError .typeError)
  | some _ => .ok (issues.map fun entry =>
      if entry.1 = key then (entry.1, entry.2 ++ [message]) else entry)

def validateFilterParameter (name : String) (value : FilterValue Host) : Except Thrown Issues :=
  value.conditions.zipIdx.foldlM (fun issues (condition, index) =>
    match parseFilterConditionValues rt condition value.options
      { index := some index, unresolvedExpressions := true, errorFormat := some .inline } with
    -- whatever is returned is dropped, a `FilterError` as well
    | .ok _ => .ok issues
    | .error (.filterError error) => pushIssue issues (issueKey name index) error.message
    | .error (.jsError _) => .ok issues) []

end Validation

section Foresight

variable (options : FilterOptionsValue) (condition : FilterConditionValue Host)

/-- Whether an operand is refused under the operator's types, once both can be written in
a message. -/
def refusesOperand (unresolvedExpressions : Bool) : Except JsError Bool := do
  let strict := options.typeValidation = .strict
  let operator := condition.operator
  let left ← parseSingleFilterValue rt condition.leftValue operator.type strict (options.version.getD 1)
  let right ← parseSingleFilterValue rt condition.rightValue
    (operator.rightType.getD operator.type) strict (options.version.getD 1)
  let _ ← condition.leftValue.toText rt
  let _ ← condition.rightValue.toText rt
  return !(left.isValid || (unresolvedExpressions && isUnresolved condition.leftValue)) ||
    !(right.isValid || operator.singleValue || (unresolvedExpressions && isUnresolved condition.rightValue))

variable (metadata : FilterConditionMetadata)

/-- A `FilterError` is handed back and never thrown. -/
inductive Parsed : Except JsError Bool → Except Thrown (Except FilterError (Value Host × Value Host)) → Prop
  | thrown (error : JsError) : Parsed (.error error) (.error (.jsError error))
  | refused (error : FilterError) : Parsed (.ok true) (.ok (.error error))
  | accepted (operands : Value Host × Value Host) : Parsed (.ok false) (.ok (.ok operands))

theorem parseFilterConditionValues_parsed : Parsed (refusesOperand rt options condition metadata.unresolvedExpressions)
      (parseFilterConditionValues rt condition options metadata) := by
  simp only [refusesOperand, parseFilterConditionValues]
  cases parseSingleFilterValue rt condition.leftValue condition.operator.type
      (options.typeValidation = .strict) (options.version.getD 1) with
  | error error => exact .thrown error
  | ok left =>
  cases parseSingleFilterValue rt condition.rightValue (condition.operator.rightType.getD condition.operator.type)
      (options.typeValidation = .strict) (options.version.getD 1) with
  | error error => exact .thrown error
  | ok right =>
  cases condition.leftValue.toText rt with
  | error error => exact .thrown error
  | ok leftValueString =>
  cases condition.rightValue.toText rt with
  | error error => exact .thrown error
  | ok rightValueString =>
  simp only [Except.mapError, bind, Except.bind, pure, Except.pure]
  generalize (left.isValid || _) = leftValid, (right.isValid || _ || _) = rightValid
  cases leftValid with
  | false =>
    cases rightValid with
    | false =>
      simp only [Bool.not_false, Bool.true_and, Bool.or_true, if_true]
      split_ifs <;> exact .refused _
    | true => exact .refused _
  | true =>
    cases rightValid with
    | false => exact .refused _
    | true => exact .accepted _

theorem executeFilterCondition_throws (resolved : metadata.unresolvedExpressions = false) :
    (∃ error, executeFilterCondition rt condition options metadata =
      .error (.filterError error)) ↔ refusesOperand rt options condition false = .ok true := by
  have parsed := parseFilterConditionValues_parsed rt options condition metadata
  rw [resolved] at parsed
  rw [executeFilterCondition]
  generalize refusesOperand rt options condition false = refuses,
    parseFilterConditionValues rt condition options metadata = outcome at parsed
  cases parsed with
  | thrown error => simp [bind, Except.bind]
  | refused error => simp [bind, Except.bind]
  | accepted operands =>
    cases ran : executeOperator rt condition.operator (!options.caseSensitive) operands.1 operands.2 <;>
      simp [bind, Except.bind, ran, Except.mapError]

theorem validateFilterParameter_empty (name : String) (value : FilterValue Host) :
    validateFilterParameter rt name value = .ok [] := by
  rw [validateFilterParameter]
  generalize value.conditions.zipIdx = conditions
  induction conditions with
  | nil => rfl
  | cons entry rest ih =>
    have parsed := parseFilterConditionValues_parsed rt value.options entry.1
      { index := some entry.2, unresolvedExpressions := true, errorFormat := some .inline }
    rw [List.foldlM_cons]
    generalize refusesOperand _ _ _ _ = refuses,
      parsing : parseFilterConditionValues _ _ _ _ = outcome at parsed
    cases parsed with
    | thrown error => simpa [parsing, bind, Except.bind] using ih
    | refused error => simpa [parsing, bind, Except.bind] using ih
    | accepted operands => simpa [parsing, bind, Except.bind] using ih

/-- What validation promises about the run of a filter: it ends, and it has an issue under
the key of exactly those conditions that throw a `FilterError`. -/
def Foresees (name : String) (itemIndex : Option ℕ) (value : FilterValue Host) : Prop :=
  ∃ issues, validateFilterParameter rt name value = .ok issues ∧
    ∀ index condition, value.conditions[index]? = some condition →
      ((∃ messages ≠ [], issues.lookup (issueKey name index) = some messages) ↔
        ∃ error, executeFilterCondition rt condition value.options { index, itemIndex } = .error (.filterError error))

/-- Validation foresees the run exactly when no condition refuses an operand. -/
theorem validateFilterParameter_foresees (name : String) (itemIndex : Option ℕ) (value : FilterValue Host) :
    Foresees rt name itemIndex value ↔ ∀ condition ∈ value.conditions,
        refusesOperand rt value.options condition false ≠ .ok true := by
  simp only [Foresees, validateFilterParameter_empty, executeFilterCondition_throws]
  constructor
  · rintro ⟨issues, reported, foreseen⟩ condition listed refused
    obtain rfl := Except.ok.inj reported
    obtain ⟨index, found⟩ := List.mem_iff_getElem?.mp listed
    obtain ⟨messages, _, reported⟩ := (foreseen index condition found).mpr refused
    cases reported
  · intro accepted
    refine ⟨[], rfl, fun index condition found => ?_⟩
    have listed := List.mem_of_getElem? found
    simp [accepted condition listed]

end Foresight

section Unforeseen

/-- No operand is an expression still to be evaluated. -/
def FilterValue.Resolved (value : FilterValue Host) : Prop :=
  ∀ condition ∈ value.conditions, isUnresolved condition.leftValue = false ∧ isUnresolved condition.rightValue = false

/-- A runtime for plain texts and whole numbers, without objects of classes. -/
def plainRuntime : Runtime Empty where
  hostTypeof := Empty.elim
  hostTruthy := Empty.elim
  objectToString _ := .ok "[object Object]"
  objectToNumber _ := .ok .nan
  textToNumber text := text.toNat?.elim .nan fun n => .finite n
  numberToString
    | .nan => "NaN"
    | .infinity negative => if negative then "-Infinity" else "Infinity"
    | .finite value => toString value.num
  stringify _ := .error .typeError
  parseJson _ := .error .syntaxError
  parseJSObject _ := .error .syntaxError
  fromISO _ := none
  fromHTTP _ := none
  fromRFC2822 _ := none
  fromSQL _ := none
  dateParse _ := none
  toLowerCase := String.toLower
  toLocaleLowerCase := String.toLower
  sameObject _ _ := false
  looseLess _ _ := .ok false
  looseLessEq _ _ := .ok false
  searchText := Empty.elim
  keyCount _ := 0
  testRegExp _ _ _ := .error .syntaxError
  isObject
    | .array _ | .object _ | .date _ | .dateTime _ => true
    | _ => false

theorem plainRuntime_isObject : plainRuntime.IsObjectTells := by
  intro value
  cases value with
  | host value => exact value.elim
  | _ => simp [plainRuntime, Value.isNullish, Value.typeof]

def textsAsNumbers : FilterConditionValue Empty where
  leftValue := .string "abc"
  operator := { type := .number, operation := "equals" }
  rightValue := .string "def"

def strictFilter : FilterValue Empty where
  options := { caseSensitive := true, typeValidation := .strict, version := some 2 }
  conditions := [textsAsNumbers]
  combinator := "and"

/-- A condition throws when it is run and validation has no issue for it. -/
theorem texts_as_numbers_unforeseen : ¬ ∀ value : FilterValue Empty, value.Resolved →
      Foresees plainRuntime "conditions" (some 0) value := by
  intro foresees
  obtain ⟨issues, reported, foreseen⟩ := foresees strictFilter (by simp [FilterValue.Resolved,
    strictFilter, textsAsNumbers, isUnresolved])
  obtain rfl := Except.ok.inj ((validateFilterParameter_empty _ _ _).symm.trans reported)
  have throws := (executeFilterCondition_throws plainRuntime strictFilter.options textsAsNumbers
    { index := some 0, itemIndex := some 0 } rfl).mpr rfl
  obtain ⟨messages, _, issue⟩ := (foreseen 0 textsAsNumbers rfl).mpr throws
  cases issue

end Unforeseen

end N8n.FilterParameter
