import N8n.SdkValidators

/-! `SDKInterpreter`. The interpreter counts how deeply `evaluate` is nested and gives up
at `MAX_EVAL_DEPTH`, so each visit is written over an evaluator for the nodes below and
`evaluate` ties the knot by that count. -/

namespace N8n.Sdk

open Traced

def MAX_EVAL_DEPTH : ℕ := 500

section Texts

variable {ν : Type} [JsNumber ν]

def isN8nRuntimeVariable : Expr ν → Bool
  | .identifier name => name.startsWith "$"
  | .member object _ _ => isN8nRuntimeVariable object
  | .call callee _ =>
    match callee with
    | .identifier name => name.startsWith "$"
    | .member object _ _ => isN8nRuntimeVariable object
    | _ => false
  | _ => false

/-- `String(value)` of a literal. -/
def Literal.text : Literal ν → String
  | .string value => value
  | .number value => JsNumber.toText value
  | .boolean value => if value then "true" else "false"
  | .null => "null"
  | .regularExpression pattern flags => "/" ++ pattern ++ "/" ++ flags

variable (quote : String → String) (sourceText : Expr ν → String)

/-- `JSON.stringify` of a literal in brackets; the value of a regular expression is an
object without properties. -/
def Literal.json : Literal ν → String
  | .string value => quote value
  | .regularExpression _ _ => "{}"
  | literal => literal.text

/-- The source of an expression; `sourceText` is the slice of the source code, which is
empty for an expression on several lines. -/
def expressionToString : Expr ν → String
  | .identifier name => name
  | .member object property computed =>
    let obj := expressionToString object
    if computed then
      match property with
      | .literal value => obj ++ "[" ++ value.json quote ++ "]"
      | _ => obj ++ "[" ++ expressionToString property ++ "]"
    else
      match property with
      | .identifier name => obj ++ "." ++ name
      | _ => obj ++ "."
  | .call callee args => expressionToString callee ++ "(" ++ ", ".intercalate (argumentTexts args) ++ ")"
  | .literal (.string value) => quote value
  | .literal value => value.text
  | .binary operator left right =>
    expressionToString left ++ " " ++ operator.text ++ " " ++ expressionToString right
  | .logical operator left right =>
    expressionToString left ++ " " ++ operator.text ++ " " ++ expressionToString right
  | .conditional test consequent alternate =>
    expressionToString test ++ " ? " ++ expressionToString consequent ++ " : " ++ expressionToString alternate
  | .unary operator argument => operator.text ++ expressionToString argument
  | expr => sourceText expr
where
  argumentTexts : List (Expr ν) → List String
    | [] => []
    | .spread argument :: rest => ("..." ++ expressionToString argument) :: argumentTexts rest
    | arg :: rest => expressionToString arg :: argumentTexts rest

end Texts

structure Interpreter (ν : Type) where
  host : Host ν
  quote : String → String
  sourceText : Expr ν → String

section Visits

variable {ν : Type} [JsNumber ν] (interpreter : Interpreter ν) (evaluate : Expr ν → Eval ν (Value ν))

def literalValue : Literal ν → Eval ν (Value ν)
  | .string value => pure (.string value)
  | .number value => pure (.number value)
  | .boolean value => pure (.boolean value)
  | .null => pure .null
  | .regularExpression _ _ => do
    let addr ← newRegExp interpreter.host
    pure (.object addr)

def propertyName (computed : Bool) (error : String) : Expr ν → Eval ν String
  | .identifier name =>
    if computed then Comp.throw (.unsupportedNode error) else pure name
  | .literal value => do
    let key ← literalValue interpreter value
    toText interpreter.host key
  | _ => Comp.throw (.unsupportedNode error)

def isSuper (expr : Expr ν) : Bool := expr.type = "Super"

def variable_ (name : String) : Eval ν (Option (Value ν)) :=
  .read fun s => s.declaredVariables.get ((s.renamedVariables.get name).getD name)

def nameTable : List (String × Value ν) :=
  [("undefined", .undefined), ("null", .null), ("true", .boolean true), ("false", .boolean false),
    ("NaN", .number JsNumber.nan), ("Infinity", .number JsNumber.infinity)]

def visitIdentifier (name : String) : Eval ν (Value ν) := do
  match ← variable_ name with
  | some value => pure value
  | none =>
    validateIdentifier name
    match interpreter.host.sdkFunctions.get name with
    | some function => pure (.object function)
    | none =>
      match nameTable.lookup name with
      | some value => pure value
      | none => Comp.throw (.unknownIdentifier name)

/-- The own methods of `SAFE_JSON_METHODS`, or what the table inherits. -/
def safeJsonMethod (objectName methodName : String) (args : List (Expr ν)) : Eval ν (Option (Value ν)) :=
  if objectName ≠ "JSON" then pure none
  else if methodName = "stringify" then do
    let values ← Comp.mapList evaluate args
    Comp.emit (.safeMethod "stringify")
    let result ← runHost (interpreter.host.stringify values)
    pure (some result)
  else do
    let inherited ← inheritedProperty interpreter.host .undefined [interpreter.host.objectPrototype] methodName
    if inherited.truthy then
      let values ← Comp.mapList evaluate args
      match inherited with
      | .object function =>
        Comp.reject (function.callable = false) (.typeError "safeMethod is not a function")
        let result ← callHost interpreter.host (.safeTable methodName) function .undefined values
        pure (some result)
      | _ => Comp.throw (.typeError "safeMethod is not a function")
    else pure none

def isWhiteSpace (char : Char) : Bool :=
  char ∈ ['\t', '\n', '\x0b', '\x0c', '\r', ' ', '\u00a0', '\u1680', '\u2028', '\u2029', '\u202f', '\u205f',
    '\u3000', '\ufeff'] ∨ '\u2000' ≤ char ∧ char ≤ '\u200a'

/-- `text.trim()`. -/
def trimText (text : String) : String :=
  String.ofList ((text.toList.dropWhile isWhiteSpace).reverse.dropWhile isWhiteSpace).reverse

/-- `text.repeat(count)`. -/
def repeatText (text : String) (count : Value ν) : Eval ν (Value ν) := do
  let number ← toPrimitive interpreter.host false count
  match JsNumber.toCount number.primitiveNumber with
  | some times => pure (.string (String.join (List.replicate times text)))
  | none => Comp.throw (.rangeError "Invalid count value")

/-- The own methods of `SAFE_STRING_METHODS`, or what the table inherits. -/
def safeStringMethod (thisArg : Value ν) (methodName : String) (args : List (Expr ν)) : Eval ν (Option (Value ν)) :=
  match thisArg with
  | .string text =>
    if methodName = "repeat" then do
      let values ← Comp.mapList evaluate args
      Comp.emit (.safeMethod "repeat")
      let result ← repeatText interpreter text (values.head?.getD .undefined)
      pure (some result)
    else if methodName = "trim" then do
      let _ ← Comp.mapList evaluate args
      Comp.emit (.safeMethod "trim")
      pure (some (.string (trimText text)))
    else do
      let inherited ← inheritedProperty interpreter.host .undefined [interpreter.host.objectPrototype] methodName
      if inherited.truthy then
        let values ← Comp.mapList evaluate args
        match inherited with
        | .object function =>
          Comp.reject (function.callable = false) (.typeError "factory is not a function")
          let result ← callHost interpreter.host (.safeTable methodName) function .undefined (thisArg :: values)
          pure (some result)
        | _ => Comp.throw (.typeError "factory is not a function")
      else pure none
  | _ => pure none

def callValue (kind : CallKind) (func thisArg : Value ν) (args : List (Expr ν)) : Eval ν (Value ν) := do
  match func with
  | .object function =>
    Comp.reject (function.callable = false) (.interpreterError "Cannot call non-function")
    let values ← Comp.mapList evaluate args
    applyFunction interpreter.host kind function thisArg values
  | _ => Comp.throw (.interpreterError "Cannot call non-function")

def visitIdentifierCall (name : String) (args : List (Expr ν)) : Eval ν (Value ν) :=
  match interpreter.host.sdkFunctions.get name with
  | some function => callValue interpreter evaluate (.identifier name) (.object function) .undefined args
  | none => do
    match ← variable_ name with
    | some value => callValue interpreter evaluate (.identifier name) value .undefined args
    | none => Comp.throw (.unknownIdentifier name)

def methodName : Expr ν → Eval ν String
  | .identifier name => pure name
  | .literal (.string name) => pure name
  | _ => Comp.throw (.unsupportedNode "Dynamic method name")

def notAllowedMethod (name : String) : Thrown ν :=
  .security name (some ("Method '" ++ name ++ "' is not an allowed SDK method. " ++
    "Allowed methods: " ++ ", ".intercalate allowedMethodNames ++ ". " ++
    "Native array/string methods are not available in SDK code; " ++
    "use a Code node or an n8n expression for runtime logic."))

def lookupMethod (thisArg : Value ν) (name : String) : Eval ν (Value ν) := do
  if thisArg.truthy ∧ typeOf thisArg = "object" then getProperty interpreter.host thisArg name
  else pure .undefined

/-- Behind the safe methods of `JSON`. -/
def visitReceiverCall (object : Expr ν) (name : String) (args : List (Expr ν)) : Eval ν (Value ν) := do
  let thisArg ← evaluate object
  match ← safeStringMethod interpreter evaluate thisArg name args with
  | some result => pure result
  | none =>
    Comp.reject (isAllowedMethod name = false) (notAllowedMethod name)
    let func ← lookupMethod interpreter thisArg name
    callValue interpreter evaluate (.method name) func thisArg args

def visitMethodCall (object property : Expr ν) (computed : Bool) (args : List (Expr ν)) : Eval ν (Value ν) := do
  validateMemberExpression property computed
  Comp.reject (isSuper object) (.unsupportedNode "super keyword is not supported in SDK code")
  let name ← methodName property
  match object with
  | .identifier objectName =>
    match ← safeJsonMethod interpreter evaluate objectName name args with
    | some result => pure result
    | none => visitReceiverCall interpreter evaluate object name args
  | _ => visitReceiverCall interpreter evaluate object name args

def visitCallExpression (callee : Expr ν) (args : List (Expr ν)) : Eval ν (Value ν) := do
  validateCallExpression callee
  match callee with
  | .identifier name => visitIdentifierCall interpreter evaluate name args
  | .member object property computed =>
    visitMethodCall interpreter evaluate object property computed args
  | other => Comp.throw (.unsupportedNode ("Callee type " ++ other.type))

def nullishText : Value ν → String
  | .null => "null"
  | _ => "undefined"

def Value.isNullish : Value ν → Bool
  | .undefined => true
  | .null => true
  | _ => false

def visitMemberExpression (object property : Expr ν) (computed : Bool) : Eval ν (Value ν) := do
  validateMemberExpression property computed
  Comp.reject (isSuper object) (.unsupportedNode "super keyword is not supported in SDK code")
  let obj ← evaluate object
  Comp.reject obj.isNullish (.interpreterError ("Cannot access property on " ++ nullishText obj))
  let name ← propertyName interpreter computed "Dynamic property access" property
  let value ← getProperty interpreter.host obj name
  Comp.emit (.read value)
  pure value

def propertyKey : Expr ν → Eval ν String
  | .identifier name => pure name
  | .literal (.string value) => pure value
  | .literal (.number value) =>
    if JsNumber.typeOf value = "number" then pure (JsNumber.toText value)
    else Comp.throw (.unsupportedNode ("Object key type " ++ (Expr.literal (.number value)).type))
  | key => Comp.throw (.unsupportedNode ("Object key type " ++ key.type))

def visitProperty (result : Addr) : Option (Expr ν) × Expr ν → Eval ν Unit
  | (none, argument) => do
    let spreadValue ← evaluate argument
    match spreadValue with
    | .object source =>
      if typeOf spreadValue = "object" then assign interpreter.host result source else pure ()
    | _ => pure ()
  | (some key, value) => do
    let name ← propertyKey key
    let evaluated ← evaluate value
    putProperty interpreter.host result name evaluated

def visitObjectExpression (properties : List (Option (Expr ν) × Expr ν)) : Eval ν (Value ν) := do
  let result ← newObject interpreter.host
  let _ ← Comp.mapList (visitProperty interpreter evaluate result) properties
  pure (.object result)

def visitElement : Option (Expr ν) → Eval ν (List (Value ν))
  | none => pure [.undefined]
  | some (.spread argument) => do
    let spreadValue ← evaluate argument
    let items ← arrayItems interpreter.host spreadValue
    pure (items.getD [])
  | some element => do
    let value ← evaluate element
    pure [value]

def visitArrayExpression (elements : List (Option (Expr ν))) : Eval ν (Value ν) := do
  let items ← Comp.mapList (visitElement interpreter evaluate) elements
  let addr ← newArray interpreter.host items.flatten
  pure (.object addr)

def evaluateTemplateExpression (expr : Expr ν) : Eval ν String :=
  if isN8nRuntimeVariable expr then
    pure ("$\x7b" ++ expressionToString interpreter.quote interpreter.sourceText expr ++ "\x7d")
  else do
    let value ← evaluate expr
    toText interpreter.host value

def visitTemplateLiteral (quasis : List TemplateElement) (expressions : List (Expr ν)) : Eval ν (Value ν) := do
  let texts ← Comp.mapList (evaluateTemplateExpression interpreter evaluate) (expressions.take quasis.length)
  let pieces := quasis.map fun quasi => quasi.cooked.getD quasi.raw
  pure (.string (String.join (pieces.zipWith (· ++ ·) (texts ++ List.replicate quasis.length ""))))

def numeric : Option ν → Eval ν (Value ν)
  | some number => pure (.number number)
  | none => Comp.throw (.typeError "Cannot mix BigInt and other types, use explicit conversions")

def visitUnaryExpression (operator : UnaryOperator) (argument : Expr ν) : Eval ν (Value ν) := do
  let arg ← evaluate argument
  match operator with
  | .minus =>
    let number ← toPrimitive interpreter.host false arg
    numeric (JsNumber.minus number.primitiveNumber)
  | .plus =>
    let number ← toPrimitive interpreter.host false arg
    numeric (JsNumber.plus number.primitiveNumber)
  | .not => pure (.boolean !arg.truthy)
  | .typeof => pure (.string (typeOf arg))
  | .void => pure .undefined
  | .other text => Comp.throw (.unsupportedNode ("Unary operator " ++ text))

def toPrimitives (left right : Value ν) : Eval ν (Value ν × Value ν) := do
  let first ← toPrimitive interpreter.host false left
  let second ← toPrimitive interpreter.host false right
  pure (first, second)

def arithmetic (operation : ν → ν → Option ν) (left right : Value ν) : Eval ν (Value ν) := do
  let (first, second) ← toPrimitives interpreter left right
  numeric (operation first.primitiveNumber second.primitiveNumber)

def addValues (left right : Value ν) : Eval ν (Value ν) := do
  let (first, second) ← toPrimitives interpreter left right
  match first, second with
  | .string one, two => pure (.string (one ++ two.primitiveText))
  | one, .string two => pure (.string (one.primitiveText ++ two))
  | one, two => numeric (JsNumber.add one.primitiveNumber two.primitiveNumber)

def compareValues (texts : String → String → Bool) (numbers : ν → ν → Bool) (left right : Value ν) :
    Eval ν (Value ν) := do
  let (first, second) ← toPrimitives interpreter left right
  match first, second with
  | .string one, .string two => pure (.boolean (texts one two))
  | one, two => pure (.boolean (numbers one.primitiveNumber two.primitiveNumber))

def strictlyEqual : Value ν → Value ν → Bool
  | .undefined, .undefined => true
  | .null, .null => true
  | .boolean one, .boolean two => one = two
  | .number one, .number two => JsNumber.typeOf one = JsNumber.typeOf two ∧ JsNumber.equal one two
  | .string one, .string two => one = two
  | .object one, .object two => one = two
  | _, _ => false

/-- `==` of primitive values. -/
def looselyEqualPrimitives : Value ν → Value ν → Bool
  | .undefined, two => two.isNullish
  | .null, two => two.isNullish
  | .string one, .string two => one = two
  | one, two => !two.isNullish && JsNumber.equal one.primitiveNumber two.primitiveNumber

def looselyEqual (left right : Value ν) : Eval ν Bool :=
  match left, right with
  | .object one, .object two => pure (one = two)
  | .object _, two =>
    if two.isNullish then pure false
    else do
      let first ← toPrimitive interpreter.host false left
      pure (looselyEqualPrimitives first two)
  | one, .object _ =>
    if one.isNullish then pure false
    else do
      let second ← toPrimitive interpreter.host false right
      pure (looselyEqualPrimitives one second)
  | one, two => pure (looselyEqualPrimitives one two)

/-- Text order is the order of code units, which differs from that of code points only
between astral and private characters. -/
def binaryOperation (operator : BinaryOperator) (left right : Value ν) : Eval ν (Value ν) :=
  match operator with
  | .add =>
    match left, right with
    | .string one, two => do
      let text ← toText interpreter.host two
      pure (.string (one ++ text))
    | one, .string two => do
      let text ← toText interpreter.host one
      pure (.string (text ++ two))
    | one, two => addValues interpreter one two
  | .subtract => arithmetic interpreter JsNumber.subtract left right
  | .multiply => arithmetic interpreter JsNumber.multiply left right
  | .divide => arithmetic interpreter JsNumber.divide left right
  | .remainder => arithmetic interpreter JsNumber.remainder left right
  | .power => arithmetic interpreter JsNumber.power left right
  | .looseEqual => do
    let equal ← looselyEqual interpreter left right
    pure (.boolean equal)
  | .looseNotEqual => do
    let equal ← looselyEqual interpreter left right
    pure (.boolean !equal)
  | .strictEqual => pure (.boolean (strictlyEqual left right))
  | .strictNotEqual => pure (.boolean !strictlyEqual left right)
  | .less => compareValues interpreter (fun one two => one < two) JsNumber.less left right
  | .lessEqual => compareValues interpreter (fun one two => one ≤ two) JsNumber.lessEqual left right
  | .greater =>
    compareValues interpreter (fun one two => two < one) (fun one two => JsNumber.less two one) left right
  | .greaterEqual =>
    compareValues interpreter (fun one two => two ≤ one) (fun one two => JsNumber.lessEqual two one)
      left right
  | .other text => Comp.throw (.unsupportedNode ("Binary operator " ++ text))

def visitBinaryExpression (operator : BinaryOperator) (left right : Expr ν) : Eval ν (Value ν) := do
  let leftValue ← evaluate left
  let rightValue ← evaluate right
  binaryOperation interpreter operator leftValue rightValue

def visitLogicalExpression (operator : LogicalOperator) (left right : Expr ν) : Eval ν (Value ν) := do
  let value ← evaluate left
  let decided := match operator with
    | .and => !value.truthy
    | .or => value.truthy
    | .nullish => !value.isNullish
  if decided then pure value else evaluate right

def visitConditionalExpression (test consequent alternate : Expr ν) : Eval ν (Value ν) := do
  let value ← evaluate test
  if value.truthy then evaluate consequent else evaluate alternate

def visitAssignmentExpression (operator : AssignmentOperator) (left right : Expr ν) : Eval ν (Value ν) :=
  match operator with
  | .other text => Comp.throw (.unsupportedNode
      ("Assignment operator '" ++ text ++ "' is not allowed. Only '=' is permitted."))
  | .assign =>
    match left with
    | .member object property computed => do
      validateMemberExpression property computed
      Comp.reject (isSuper object) (.unsupportedNode "super keyword is not supported in SDK code")
      let obj ← evaluate object
      Comp.reject obj.isNullish (.interpreterError ("Cannot assign property on " ++ nullishText obj))
      let name ← propertyName interpreter computed "Dynamic property assignment" property
      let value ← evaluate right
      setProperty interpreter.host obj name value
      pure value
    | _ => Comp.throw (.unsupportedNode ("Only property assignment (e.g., obj.prop = value) is " ++
        "allowed. Variable reassignment is not permitted."))

def evaluateNode (node : Expr ν) : Eval ν (Value ν) := do
  validateNodeType node.type
  match node with
  | .call callee args => visitCallExpression interpreter evaluate callee args
  | .member object property computed => visitMemberExpression interpreter evaluate object property computed
  | .object properties => visitObjectExpression interpreter evaluate properties
  | .array elements => visitArrayExpression interpreter evaluate elements
  | .identifier name => visitIdentifier interpreter name
  | .literal value => literalValue interpreter value
  | .template quasis expressions => visitTemplateLiteral interpreter evaluate quasis expressions
  | .spread argument => evaluate argument
  | .unary operator argument => visitUnaryExpression interpreter evaluate operator argument
  | .binary operator left right => visitBinaryExpression interpreter evaluate operator left right
  | .logical operator left right => visitLogicalExpression evaluate operator left right
  | .conditional test consequent alternate =>
    visitConditionalExpression evaluate test consequent alternate
  | .assignment operator left right => visitAssignmentExpression interpreter evaluate operator left right
  | .other type => Comp.throw (.unsupportedNode type)

end Visits

section Interpret

variable {ν : Type} [JsNumber ν] (interpreter : Interpreter ν)

def evaluate : (remaining : ℕ) → Expr ν → Eval ν (Value ν)
  | 0, _ => Comp.throw (.interpreterError "Expression nesting too deep (possible cycle in method chain)")
  | remaining + 1, node => evaluateNode interpreter (evaluate remaining) node

/-- `my`, the name with a capital letter and the first counter that gives a free name. -/
def generateSafeName (name : String) (taken : List String) : String :=
  let base := "my" ++ name.capitalize
  let candidates := base :: (List.range taken.length).map fun counter => base ++ toString (counter + 1)
  (candidates.find? (· ∉ taken)).getD base

def evaluateInit : Option (Expr ν) → Eval ν (Value ν)
  | none => pure .undefined
  | some init => evaluate interpreter MAX_EVAL_DEPTH init

def declare (name : String) (value : Value ν) : Eval ν Unit :=
  .update fun s => { s with declaredVariables := s.declaredVariables.set name value }

def visitDeclarator (declarator : VariableDeclarator ν) : Eval ν Unit :=
  match declarator.name with
  | none => Comp.throw (.unsupportedNode "Destructuring in variable declaration")
  | some name =>
    if isAllowedSDKFunction name then
      if isAutoRenameableSDKFunction name then do
        let safeName ← Comp.read fun s => generateSafeName name
          (s.declaredVariables.entries.map Prod.fst ++ interpreter.host.sdkFunctions.entries.map Prod.fst)
        let value ← evaluateInit interpreter declarator.init
        Comp.update fun s => { s with renamedVariables := s.renamedVariables.set name safeName }
        declare safeName value
      else Comp.throw (.security name (some ("'" ++ name ++ "' is a reserved SDK function name and " ++
        "cannot be used as a variable name. Use a different name like 'my" ++ name.capitalize ++ "'.")))
    else do
      let value ← evaluateInit interpreter declarator.init
      declare name value

def visitVariableDeclaration (kind : VariableKind) (declarations : List (VariableDeclarator ν)) :
    Eval ν Unit :=
  match kind with
  | .other text => Comp.throw (.security text
      (some ("'" ++ text ++ "' declarations are not allowed. Use 'const' only.")))
  | .const => do
    let _ ← Comp.mapList (visitDeclarator interpreter) declarations
    pure ()

def interpretFrom (result : Value ν) : Program ν → Eval ν (Value ν)
  | [] => pure result
  | statement :: rest => do
    validateNodeType statement.type
    match statement with
    | .variableDeclaration kind declarations =>
      visitVariableDeclaration interpreter kind declarations
      interpretFrom result rest
    | .expressionStatement expression =>
      let value ← evaluate interpreter MAX_EVAL_DEPTH expression
      interpretFrom value rest
    | .exportDefaultDeclaration declaration => evaluate interpreter MAX_EVAL_DEPTH declaration
    | .other type => Comp.throw (.unsupportedNode type)

def interpret (program : Program ν) : Eval ν (Value ν) := interpretFrom interpreter .undefined program

/-- A new interpreter, whose objects are told apart by `run`. -/
def startState (run : ℕ) (heap : Heap ν) : State ν :=
  ⟨{ heap with run, next := 0 }, .empty, .empty⟩

/-- `interpretSDKCode` behind the parser. -/
def interpretSDKCode (run : ℕ) (heap : Heap ν) (program : Program ν) :
    Outcome (State ν) (Event ν) (Thrown ν) (Value ν) :=
  interpret interpreter program (startState run heap)

end Interpret

end N8n.Sdk
