import N8n.SdkMachine
import N8n.SdkSyntax

/-! The lists of names by which the interpreter decides what SDK code may do. -/

namespace N8n.Sdk

open Traced

def ALLOWED_SDK_FUNCTIONS : List String :=
  ["workflow", "node", "trigger", "sticky", "placeholder", "newCredential", "ifElse", "switchCase",
    "merge", "splitInBatches", "nextBatch", "languageModel", "memory", "tool", "outputParser",
    "embedding", "embeddings", "vectorStore", "retriever", "documentLoader", "textSplitter", "reranker",
    "fromAi", "nodeJson"]

def AUTO_RENAMEABLE_SDK_FUNCTIONS : List String :=
  ["languageModel", "memory", "tool", "outputParser", "embedding", "embeddings", "vectorStore",
    "retriever", "documentLoader", "textSplitter", "reranker"]

/-- The names with whether they are public. -/
def SDK_METHODS : List (String × Bool) :=
  [("add", true), ("to", true), ("input", true), ("output", true), ("onError", true), ("onTrue", true),
    ("onFalse", true), ("onCase", true), ("onEachBatch", true), ("onDone", true), ("connect", true),
    ("toJSON", false), ("validate", false)]

def DANGEROUS_GLOBALS : List String :=
  ["eval", "Function", "require", "import", "process", "global", "globalThis", "window", "document",
    "setTimeout", "setInterval", "setImmediate", "clearTimeout", "clearInterval", "clearImmediate",
    "__dirname", "__filename", "module", "exports", "Buffer", "Reflect", "Proxy", "Object", "Array",
    "String", "Number", "Boolean", "Symbol", "BigInt", "JSON", "Math", "Date", "RegExp", "Promise",
    "WeakRef", "WeakMap", "WeakSet", "Map", "Set", "ArrayBuffer", "SharedArrayBuffer", "DataView",
    "Atomics", "WebAssembly", "fetch", "XMLHttpRequest", "queueMicrotask", "structuredClone", "Error",
    "TypeError", "RangeError", "console"]

def ALLOWED_NODE_TYPES : List String :=
  ["Program", "VariableDeclaration", "VariableDeclarator", "ExpressionStatement",
    "ExportDefaultDeclaration", "CallExpression", "MemberExpression", "ObjectExpression",
    "ArrayExpression", "Identifier", "Literal", "TemplateLiteral", "TemplateElement", "SpreadElement",
    "Property", "AssignmentExpression", "UnaryExpression", "BinaryExpression", "LogicalExpression",
    "ConditionalExpression"]

def FORBIDDEN_NODE_TYPES : List (String × String) :=
  [("ArrowFunctionExpression", "Arrow functions are not allowed. Use fromAi() directly instead of ($) => $.fromAi()"),
    ("FunctionExpression", "Function expressions are not allowed in SDK code"),
    ("FunctionDeclaration", "Function declarations are not allowed in SDK code"),
    ("ClassDeclaration", "Class declarations are not allowed in SDK code"),
    ("ClassExpression", "Class expressions are not allowed in SDK code"),
    ("ForStatement", "For loops are not allowed in SDK code"),
    ("ForInStatement", "For-in loops are not allowed in SDK code"),
    ("ForOfStatement", "For-of loops are not allowed in SDK code"),
    ("WhileStatement", "While loops are not allowed in SDK code"),
    ("DoWhileStatement", "Do-while loops are not allowed in SDK code"),
    ("TryStatement", "Try-catch is not allowed in SDK code"),
    ("ThrowStatement", "Throw statements are not allowed in SDK code"),
    ("WithStatement", "With statements are not allowed in SDK code"),
    ("UpdateExpression", "Update expressions (++, --) are not allowed in SDK code"),
    ("NewExpression", "new expressions are not allowed. Use SDK factory functions instead."),
    ("ImportDeclaration", "Import declarations are not allowed in SDK code"),
    ("ImportExpression", "Dynamic imports are not allowed in SDK code"),
    ("ExportNamedDeclaration", "Named exports are not allowed. Use export default only."),
    ("ExportAllDeclaration", "Re-exports are not allowed in SDK code"),
    ("AwaitExpression", "Await expressions are not allowed in SDK code"),
    ("YieldExpression", "Yield expressions are not allowed in SDK code")]

def isAllowedSDKFunction (name : String) : Bool := name ∈ ALLOWED_SDK_FUNCTIONS

def isAutoRenameableSDKFunction (name : String) : Bool := name ∈ AUTO_RENAMEABLE_SDK_FUNCTIONS

def isAllowedMethod (name : String) : Bool := name ∈ SDK_METHODS.map Prod.fst

def allowedMethodNames : List String := (SDK_METHODS.filter Prod.snd).map Prod.fst

variable {ν : Type}

def validateNodeType (type : String) : Eval ν Unit :=
  match FORBIDDEN_NODE_TYPES.lookup type with
  | some reason => Comp.throw (.unsupportedNode (type ++ ": " ++ reason))
  | none => if type ∈ ALLOWED_NODE_TYPES then pure () else Comp.throw (.unsupportedNode type)

def validateIdentifier (name : String) : Eval ν Unit :=
  Comp.reject (name ∈ DANGEROUS_GLOBALS) (.security name none)

def validateCallExpression : Expr ν → Eval ν Unit
  | .identifier name =>
    if name = "eval" then Comp.throw (.security "eval()" none)
    else if name = "Function" then Comp.throw (.security "Function()" none)
    else if name = "require" then Comp.throw (.security "require()" none)
    else pure ()
  | .member _ (.identifier name) _ =>
    Comp.reject (name = "constructor") (.security "constructor access" none)
  | _ => pure ()

def dangerousProperty (name : String) : Bool :=
  name = "__proto__" ∨ name = "prototype" ∨ name = "constructor"

def validateMemberExpression (property : Expr ν) (computed : Bool) : Eval ν Unit := do
  Comp.reject (computed ∧ property.type ≠ "Literal") (.security "computed-member-access"
    (some "Dynamic property access is not allowed. Use static property names."))
  match property with
  | .identifier name => Comp.reject (dangerousProperty name) (.security name none)
  | .literal (.string name) => Comp.reject (dangerousProperty name) (.security name none)
  | _ => pure ()

end N8n.Sdk
