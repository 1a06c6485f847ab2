import Mathlib.Data.List.Basic
import Mathlib.Data.String.Basic

/-! Syntax trees of Python as a visitor of nodes meets them. A node has a class, with what it holds
besides other nodes, and child nodes, each in one of its fields and in the order of the fields. -/

namespace N8n.PythonSyntax

inductive Constant where
  | str (text : String)
  | other
  deriving DecidableEq

inductive Kind where
  | module | interactive | expression | functionType
  -- statements
  | functionDef (name : String) | asyncFunctionDef (name : String) | classDef (name : String)
  | return_ | delete | assign | typeAlias | augAssign | annAssign
  | for_ | asyncFor | while_ | if_ | with_ | asyncWith | match_ | raise | try_ | tryStar | assert_
  | import_ | importFrom (module : Option String) (level : ℕ)
  | global (names : List String) | nonlocal (names : List String)
  | expr | pass | break_ | continue_
  -- expressions
  | boolOp | namedExpr | binOp | unaryOp | lambda | ifExp | dict | set
  | listComp | setComp | dictComp | generatorExp | await | yield | yieldFrom
  | compare | call | formattedValue | joinedStr | constant (value : Constant)
  | attribute_ (attr : String) | subscript | starred | name (id : String) | list | tuple | slice
  | exprContext | operator
  -- parts of statements and expressions
  | comprehension | exceptHandler (name : Option String) | arguments | arg (arg : String)
  | keyword (arg : Option String) | alias_ (name : String) (asname : Option String) | withitem
  -- patterns
  | matchCase | matchValue | matchSingleton | matchSequence | matchMapping (rest : Option String)
  | matchClass (kwdAttrs : List String) | matchStar (name : Option String)
  | matchAs (name : Option String) | matchOr
  | typeIgnore
  -- type parameters
  | typeVar (name : String) | paramSpec (name : String) | typeVarTuple (name : String)
  deriving DecidableEq

inductive Field where
  | body | typeIgnores | argtypes | returns | args | decoratorList | typeParams | bases | keywords
  | value | targets | name | target | op | annotation | iter | orelse | test | items | subject
  | cases | exc | cause | handlers | finalbody | msg | names | values | left | right | operand
  | keys | elts | elt | key | generators | ops | comparators | func | formatSpec | slice | ctx
  | lower | upper | step | ifs | type | posonlyargs | vararg | kwonlyargs | kwDefaults | kwarg
  | defaults | contextExpr | optionalVars | pattern | guard | patterns | cls | kwdPatterns
  | bound | defaultValue
  deriving DecidableEq

inductive Node where
  | node (kind : Kind) (lineno : ℕ) (children : List (Field × Node))

namespace Node

def kind : Node → Kind
  | node kind _ _ => kind

def lineno : Node → ℕ
  | node _ lineno _ => lineno

def children : Node → List (Field × Node)
  | node _ _ children => children

variable (tree : Node)

def get (field : Field) : List Node :=
  tree.children.filterMap fun (place, child) => if place = field then some child else none

def aliases : List (String × Option String) :=
  (tree.get .names).filterMap fun child =>
    match child.kind with
    | .alias_ name asname => some (name, asname)
    | _ => none

/-- Where the node that a call calls stands among its children. -/
def funcIndex : Option ℕ :=
  if tree.kind = .call then tree.children.findIdx? fun (place, _) => place = .func else none

end Node

mutual

/-- The nodes of a tree, each with whether it is what its parent calls. -/
def Node.parts (called : Bool) : Node → List (Bool × Node)
  | .node kind lineno children =>
    (called, .node kind lineno children) :: partsOfChildren (Node.node kind lineno children).funcIndex 0 children

def partsOfChildren (funcIndex : Option ℕ) (index : ℕ) : List (Field × Node) → List (Bool × Node)
  | [] => []
  | (_, child) :: children =>
    child.parts (funcIndex == some index) ++ partsOfChildren funcIndex (index + 1) children

end

end N8n.PythonSyntax
