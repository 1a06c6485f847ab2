import Mathlib.Data.Finset.Sort
import N8n.FormatTemplate
import N8n.PythonSyntax

/-! The visitor that checks a Python task before it runs. Each of its methods ends by visiting the
children of the node. A node is identified by its path from the root. -/

namespace N8n.SecurityValidator
open FormatTemplate PythonSyntax

/-- What differs between versions of Python. -/
structure Library where
  isalnum : Char → Bool
  stdlibModuleNames : List String

structure SecurityConfig where
  stdlibAllow : Finset String
  externalAllow : Finset String

structure Validator where
  checkedModules : List String := []
  violations : List String := []
  callFuncAttrIds : List (List ℕ) := []

section Messages

def ERROR_RELATIVE_IMPORT : String := "Relative imports are disallowed."

def ERROR_STDLIB_DISALLOWED (module allowed : String) : String :=
  s!"Import of standard library module '{module}' is disallowed. Allowed stdlib modules: {allowed}"

def ERROR_EXTERNAL_DISALLOWED (module allowed : String) : String :=
  s!"Import of external package '{module}' is disallowed. Allowed external packages: {allowed}"

def ERROR_DANGEROUS_NAME (name : String) : String :=
  s!"Access to name '{name}' is disallowed, because it can be used to bypass security restrictions."

def ERROR_DANGEROUS_ATTRIBUTE (attr : String) : String :=
  s!"Access to attribute '{attr}' is disallowed, because it can be used to bypass security " ++ "restrictions."

def ERROR_DANGEROUS_STRING_PATTERN (attr : String) : String :=
  s!"String pattern accessing '{attr}' is disallowed, because it can be used to bypass security " ++ "restrictions."

def ERROR_NAME_MANGLED_ATTRIBUTE : String :=
  "Access to name-mangled attributes (pattern: _ClassName__attr) is disallowed for security " ++ "reasons."

def ERROR_DYNAMIC_IMPORT : String :=
  "Dynamic __import__() calls are not allowed for security reasons."

def ERROR_MATCH_PATTERN_ATTRIBUTE (attr : String) : String :=
  s!"Match pattern extracting attribute '{attr}' is disallowed, because it can be used to " ++
    "bypass security restrictions."

def ERROR_MATCH_POSITIONAL_PATTERN : String :=
  "Positional match patterns are disallowed for security reasons."

def ERROR_GLOBAL_BLOCKED_NAME (name : String) : String :=
  s!"Global declaration of '{name}' is disallowed, because it can be used to bypass security " ++ "restrictions."

def ERROR_FUNCDEF_BLOCKED_NAME (name : String) : String :=
  s!"Function named '{name}' is disallowed, because it can be used to bypass security restrictions."

def ERROR_CLASSDEF_BLOCKED_NAME (name : String) : String :=
  s!"Class named '{name}' is disallowed, because it can be used to bypass security restrictions."

def ERROR_PARAM_BLOCKED_NAME (name : String) : String :=
  s!"Parameter named '{name}' is disallowed, because it can be used to bypass security " ++ "restrictions."

def ERROR_BARE_FORMAT_ATTRIBUTE (attr : String) : String :=
  s!"Extracting '{attr}' as a bound method is disallowed; call it directly on its receiver instead."

end Messages

def FORMAT_METHOD_NAMES : List String := ["format", "format_map"]

section Imports

variable (library : Library) (config : SecurityConfig)

/-- `module_path.split(".")[0]` -/
def moduleName (modulePath : String) : String :=
  String.ofList (modulePath.toList.takeWhile (· ≠ '.'))

def allowedText (allow : Finset String) : String :=
  if allow.Nonempty then ", ".intercalate allow.sort else "none"

def validateModuleImport (modulePath : String) : Option String :=
  let moduleName := moduleName modulePath
  let isStdlib := library.stdlibModuleNames.contains moduleName
  if isStdlib ∧ ("*" ∈ config.stdlibAllow ∨ moduleName ∈ config.stdlibAllow) then none
  else if !isStdlib ∧ ("*" ∈ config.externalAllow ∨ moduleName ∈ config.externalAllow) then none
  else if isStdlib then
    some (ERROR_STDLIB_DISALLOWED modulePath (allowedText config.stdlibAllow))
  else some (ERROR_EXTERNAL_DISALLOWED modulePath (allowedText config.externalAllow))

end Imports

namespace Validator

variable (validator : Validator)

def addViolation (lineno : ℕ) (message : String) : Validator :=
  { validator with violations := validator.violations ++ [s!"Line {lineno}: {message}"] }

def reject (condition : Prop) [Decidable condition] (lineno : ℕ) (message : String) : Validator :=
  if condition then validator.addViolation lineno message else validator

end Validator

section Visit

variable (library : Library) (config : SecurityConfig) (node : Node) (validator : Validator)

def validateImport (lineno : ℕ) (validator : Validator) (modulePath : String) : Validator :=
  if modulePath.toList.head? = some '.' then validator.addViolation lineno ERROR_RELATIVE_IMPORT
  else
    let moduleName := moduleName modulePath
    if moduleName ∈ validator.checkedModules then validator
    else
      let validator := { validator with
        checkedModules := validator.checkedModules ++ [moduleName] }
      match validateModuleImport library config modulePath with
      | none => validator
      | some message => validator.addViolation lineno message

def isBlockedName (name : Option String) : Bool := name.any fun name => BLOCKED_NAMES.contains name

def visitImport : Validator :=
  node.aliases.foldl (fun validator (name, asname) =>
    (validateImport library config node.lineno validator name).reject (isBlockedName asname)
      node.lineno (ERROR_DANGEROUS_NAME (asname.getD ""))) validator

def visitImportFrom (module : Option String) (level : ℕ) : Validator :=
  let validator :=
    if 0 < level then validator.addViolation node.lineno ERROR_RELATIVE_IMPORT
    else
      match module with
      | some module =>
        if module = "" then validator
        else validateImport library config node.lineno validator module
      | none => validator
  node.aliases.foldl (fun validator (name, asname) =>
    if isBlockedName asname then
      validator.addViolation node.lineno (ERROR_DANGEROUS_NAME (asname.getD ""))
    else validator.reject (name ∈ BLOCKED_NAMES) node.lineno (ERROR_DANGEROUS_NAME name)) validator

def visitName (id : String) : Validator :=
  validator.reject (id ∈ BLOCKED_NAMES) node.lineno (ERROR_DANGEROUS_NAME id)

def beforeDunder : List Char → Option (List Char)
  | '_' :: '_' :: _ => some []
  | c :: text => (beforeDunder text).map (c :: ·)
  | [] => none

def isNameMangled (attr : String) : Bool :=
  attr.toList.head? == some '_' && (beforeDunder attr.toList).any fun front => front.head? == some '_'

def visitAttribute (path : List ℕ) (attr : String) : Validator :=
  ((validator.reject (attr ∈ BLOCKED_ATTRIBUTES) node.lineno (ERROR_DANGEROUS_ATTRIBUTE attr)).reject
    (attr ∈ FORMAT_METHOD_NAMES ∧ path ∉ validator.callFuncAttrIds) node.lineno
      (ERROR_BARE_FORMAT_ATTRIBUTE attr)).reject
    (isNameMangled attr) node.lineno ERROR_NAME_MANGLED_ATTRIBUTE

def func : Option Node := (node.get .func).head?

def isFormatAttribute (node : Node) : Bool :=
  match node.kind with
  | .attribute_ attr => FORMAT_METHOD_NAMES.contains attr
  | _ => false

def isNamed (names : List String) (node : Node) : Bool :=
  match node.kind with
  | .name id => names.contains id
  | _ => false

def isImportCall : Bool :=
  (func node).any fun func =>
    isNamed ["__import__"] func ||
      func.kind == .attribute_ "__import__" && (func.get .value).head?.any (isNamed ["builtins", "__builtins__"])

def text? (node : Node) : Option String :=
  match node.kind with
  | .constant (.str text) => some text
  | _ => none

def visitCall (path : List ℕ) : Validator :=
  let validator :=
    if (func node).any isFormatAttribute then
      { validator with
        callFuncAttrIds := validator.callFuncAttrIds ++ node.funcIndex.toList.map fun index => path ++ [index] }
    else validator
  if isImportCall node then
    match (node.get .args).head?.bind text? with
    | some moduleName => validateImport library config node.lineno validator moduleName
    | none => validator.addViolation node.lineno ERROR_DYNAMIC_IMPORT
  else validator

def isBuiltinsAccess : Bool :=
  (node.get .value).head?.any fun value =>
    isNamed ["__builtins__", "builtins"] value ||
      value.kind == .attribute_ "__builtins__" || value.kind == .attribute_ "builtins"

def visitSubscript : Validator :=
  if isBuiltinsAccess node then
    match (node.get .slice).head?.bind text? with
    | some key =>
      validator.reject (key ∈ BLOCKED_ATTRIBUTES) node.lineno (ERROR_DANGEROUS_ATTRIBUTE key)
    | none => validator
  else validator

def visitConstant (value : Constant) : Validator :=
  match value with
  | .str text =>
    (findBlockedFormatTokens library.isalnum text.toList).foldl (fun validator token =>
      validator.addViolation node.lineno (ERROR_DANGEROUS_STRING_PATTERN (String.ofList token)))
      validator
  | .other => validator

def visitGlobal (names : List String) : Validator :=
  names.foldl (fun validator name =>
    validator.reject (name ∈ BLOCKED_NAMES) node.lineno (ERROR_GLOBAL_BLOCKED_NAME name)) validator

def visitFunctionDef (name : String) : Validator :=
  validator.reject (name ∈ BLOCKED_NAMES) node.lineno (ERROR_FUNCDEF_BLOCKED_NAME name)

def visitClassDef (name : String) : Validator :=
  validator.reject (name ∈ BLOCKED_NAMES) node.lineno (ERROR_CLASSDEF_BLOCKED_NAME name)

def visitExceptHandler (name : Option String) : Validator :=
  validator.reject (isBlockedName name) node.lineno (ERROR_DANGEROUS_NAME (name.getD ""))

def visitArg (arg : String) : Validator :=
  validator.reject (arg ∈ BLOCKED_NAMES) node.lineno (ERROR_PARAM_BLOCKED_NAME arg)

def visitMatchClass (kwdAttrs : List String) : Validator :=
  kwdAttrs.foldl (fun validator attr =>
    validator.reject (attr ∈ BLOCKED_ATTRIBUTES) node.lineno (ERROR_MATCH_PATTERN_ATTRIBUTE attr))
    (validator.reject (node.get .patterns ≠ []) node.lineno ERROR_MATCH_POSITIONAL_PATTERN)

def visitNode (path : List ℕ) : Validator :=
  match node.kind with
  | .import_ => visitImport library config node validator
  | .importFrom module level => visitImportFrom library config node validator module level
  | .name id => visitName node validator id
  | .attribute_ attr => visitAttribute node validator path attr
  | .call => visitCall library config node validator path
  | .subscript => visitSubscript node validator
  | .constant value => visitConstant library node validator value
  | .global names => visitGlobal node validator names
  | .functionDef name => visitFunctionDef node validator name
  | .asyncFunctionDef name => visitFunctionDef node validator name
  | .classDef name => visitClassDef node validator name
  | .exceptHandler name => visitExceptHandler node validator name
  | .arg arg => visitArg node validator arg
  | .matchClass kwdAttrs => visitMatchClass node validator kwdAttrs
  | _ => validator

mutual

def visit (path : List ℕ) : Node → Validator → Validator
  | .node kind lineno children, validator =>
    genericVisit path 0 children (visitNode library config (.node kind lineno children) validator path)

def genericVisit (path : List ℕ) (index : ℕ) : List (Field × Node) → Validator → Validator
  | [], validator => validator
  | (_, child) :: children, validator =>
    genericVisit path (index + 1) children (visit (path ++ [index]) child validator)

end

/-- The violations that `TaskAnalyzer.validate` raises an error for. -/
def violations (tree : Node) : List String := (visit library config [] tree {}).violations

end Visit

end N8n.SecurityValidator
