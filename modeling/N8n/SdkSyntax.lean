import Mathlib.Data.List.Basic

/-! The syntax trees that SDK code is parsed to. Node types that the interpreter has no
case for are kept by name. Locations are left out: they only place errors. -/

namespace N8n.Sdk

/-- A number literal carries its value, a number or a big integer. -/
inductive Literal (ν : Type) where
  | string (value : String)
  | number (value : ν)
  | boolean (value : Bool)
  | null
  | regularExpression (pattern flags : String)
  deriving DecidableEq

inductive UnaryOperator where
  | minus | plus | not | typeof | void
  | other (text : String)
  deriving DecidableEq

inductive BinaryOperator where
  | add | subtract | multiply | divide | remainder | power
  | looseEqual | looseNotEqual | strictEqual | strictNotEqual
  | less | lessEqual | greater | greaterEqual
  | other (text : String)
  deriving DecidableEq

inductive LogicalOperator where
  | and | or | nullish
  deriving DecidableEq

inductive AssignmentOperator where
  | assign
  | other (text : String)
  deriving DecidableEq

/-- The text between two expressions of a template; there is no cooked text for an escape
that is not valid. -/
structure TemplateElement where
  cooked : Option String
  raw : String
  deriving DecidableEq

inductive Expr (ν : Type) where
  | call (callee : Expr ν) (arguments : List (Expr ν))
  | member (object property : Expr ν) (computed : Bool)
  | object (properties : List (Option (Expr ν) × Expr ν))
  | array (elements : List (Option (Expr ν)))
  | identifier (name : String)
  | literal (value : Literal ν)
  | template (quasis : List TemplateElement) (expressions : List (Expr ν))
  | spread (argument : Expr ν)
  | unary (operator : UnaryOperator) (argument : Expr ν)
  | binary (operator : BinaryOperator) (left right : Expr ν)
  | logical (operator : LogicalOperator) (left right : Expr ν)
  | conditional (test consequent alternate : Expr ν)
  | assignment (operator : AssignmentOperator) (left right : Expr ν)
  | other (type : String)

inductive VariableKind where
  | const
  | other (text : String)
  deriving DecidableEq

structure VariableDeclarator (ν : Type) where
  name : Option String
  init : Option (Expr ν)

inductive Statement (ν : Type) where
  | variableDeclaration (kind : VariableKind) (declarations : List (VariableDeclarator ν))
  | expressionStatement (expression : Expr ν)
  | exportDefaultDeclaration (declaration : Expr ν)
  | other (type : String)

abbrev Program (ν : Type) := List (Statement ν)

variable {ν : Type}

def Expr.type : Expr ν → String
  | .call _ _ => "CallExpression"
  | .member _ _ _ => "MemberExpression"
  | .object _ => "ObjectExpression"
  | .array _ => "ArrayExpression"
  | .identifier _ => "Identifier"
  | .literal _ => "Literal"
  | .template _ _ => "TemplateLiteral"
  | .spread _ => "SpreadElement"
  | .unary _ _ => "UnaryExpression"
  | .binary _ _ _ => "BinaryExpression"
  | .logical _ _ _ => "LogicalExpression"
  | .conditional _ _ _ => "ConditionalExpression"
  | .assignment _ _ _ => "AssignmentExpression"
  | .other type => type

def Statement.type : Statement ν → String
  | .variableDeclaration _ _ => "VariableDeclaration"
  | .expressionStatement _ => "ExpressionStatement"
  | .exportDefaultDeclaration _ => "ExportDefaultDeclaration"
  | .other type => type

def UnaryOperator.text : UnaryOperator → String
  | .minus => "-"
  | .plus => "+"
  | .not => "!"
  | .typeof => "typeof"
  | .void => "void"
  | .other text => text

def BinaryOperator.text : BinaryOperator → String
  | .add => "+"
  | .subtract => "-"
  | .multiply => "*"
  | .divide => "/"
  | .remainder => "%"
  | .power => "**"
  | .looseEqual => "=="
  | .looseNotEqual => "!="
  | .strictEqual => "==="
  | .strictNotEqual => "!=="
  | .less => "<"
  | .lessEqual => "<="
  | .greater => ">"
  | .greaterEqual => ">="
  | .other text => text

def LogicalOperator.text : LogicalOperator → String
  | .and => "&&"
  | .or => "||"
  | .nullish => "??"

end N8n.Sdk
