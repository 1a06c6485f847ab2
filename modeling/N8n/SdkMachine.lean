import Mathlib.Logic.Function.Basic
import N8n.OrderedMap
import N8n.Traced

/-! Values and objects as the SDK interpreter handles them. The functions of the host,
built-in and SDK functions alike, are a parameter: SDK code cannot define any. An address
names the interpretation that created the object and whether the object is a function,
which no object becomes or ceases to be. The prototypes of an object are listed from the
nearest on. -/

namespace N8n.Sdk

structure Addr where
  run : ℕ
  index : ℕ
  callable : Bool
  deriving DecidableEq

inductive Value (ν : Type) where
  | undefined
  | null
  | boolean (value : Bool)
  | number (value : ν)
  | string (value : String)
  | object (addr : Addr)
  deriving DecidableEq

inductive Content (ν : Type) where
  | data (value : Value ν) (writable : Bool)
  | accessor (getter setter : Option Addr)
  deriving DecidableEq

structure Slot (ν : Type) where
  content : Content ν
  enumerable : Bool
  deriving DecidableEq

structure Obj (ν : Type) where
  prototypes : List Addr
  isArray : Bool
  properties : OrderedMap String (Slot ν)
  deriving DecidableEq

structure Heap (ν : Type) where
  objects : Addr → Option (Obj ν)
  run : ℕ
  next : ℕ

/-- How an operation came to call a function of the host. -/
inductive CallKind where
  | identifier (name : String)
  | method (name : String)
  | safeTable (name : String)
  | accessor
  | conversion
  | override
  deriving DecidableEq

inductive Event (ν : Type) where
  | found (holder : Addr) (name : String)
  | read (value : Value ν)
  | call (function : Addr) (kind : CallKind)
  | safeMethod (name : String)
  | write (target : Addr)
  deriving DecidableEq

inductive Thrown (ν : Type) where
  | interpreterError (message : String)
  | unsupportedNode (nodeType : String)
  | security (pattern : String) (detail : Option String)
  | unknownIdentifier (identifier : String)
  | typeError (message : String)
  | rangeError (message : String)
  | host (value : Value ν)
  deriving DecidableEq

def Thrown.message {ν : Type} : Thrown ν → Option String
  | .interpreterError message => some message
  | .unsupportedNode nodeType =>
    some ("Unsupported syntax: '" ++ nodeType ++ "' is not allowed in SDK code")
  | .security pattern detail =>
    some (detail.getD ("Security violation: '" ++ pattern ++ "' is not allowed"))
  | .unknownIdentifier identifier => some ("Unknown identifier: '" ++ identifier ++ "' is not defined")
  | .typeError message => some message
  | .rangeError message => some message
  | .host _ => none

/-- Numbers and big integers. An operation that mixes them has no result. -/
class JsNumber (ν : Type) where
  ofNat : ℕ → ν
  toNat : ν → Option ℕ
  /-- The count that a string is repeated by; a negative or infinite number is none. -/
  toCount : ν → Option ℕ
  nan : ν
  infinity : ν
  ofText : String → ν
  toText : ν → String
  typeOf : ν → String
  truthy : ν → Bool
  plus : ν → Option ν
  minus : ν → Option ν
  add : ν → ν → Option ν
  subtract : ν → ν → Option ν
  multiply : ν → ν → Option ν
  divide : ν → ν → Option ν
  remainder : ν → ν → Option ν
  power : ν → ν → Option ν
  less : ν → ν → Bool
  lessEqual : ν → ν → Bool
  equal : ν → ν → Bool

/-- What a call of a host function does: its result or what it throws, the heap behind it
and the objects it has written to. -/
structure HostOutcome (ν : Type) where
  result : Except (Value ν) (Value ν)
  heap : Heap ν
  writes : List Addr

structure Host (ν : Type) where
  objectPrototype : Addr
  functionPrototype : Addr
  arrayPrototype : Addr
  stringPrototype : Addr
  numberPrototype : Addr
  booleanPrototype : Addr
  regExpPrototype : Addr
  functionApply : Addr
  prototypeSetter : Addr
  call : Addr → Value ν → List (Value ν) → Heap ν → HostOutcome ν
  stringify : List (Value ν) → Heap ν → HostOutcome ν
  sdkFunctions : OrderedMap String Addr

structure State (ν : Type) where
  heap : Heap ν
  declaredVariables : OrderedMap String (Value ν)
  renamedVariables : OrderedMap String String

abbrev Eval (ν : Type) := Traced.Comp (State ν) (Event ν) (Thrown ν)

open Traced

variable {ν : Type} (host : Host ν)

section Heap

def Heap.store (heap : Heap ν) (addr : Addr) (object : Obj ν) : Heap ν :=
  { heap with objects := Function.update heap.objects addr (some object) }

def Heap.freshAddr (heap : Heap ν) : Addr := ⟨heap.run, heap.next, false⟩

def Heap.allocate (heap : Heap ν) (object : Obj ν) : Heap ν :=
  { heap.store heap.freshAddr object with next := heap.next + 1 }

def objectAt (addr : Addr) : Eval ν (Option (Obj ν)) := .read fun s => s.heap.objects addr

def allocate (object : Obj ν) : Eval ν Addr := do
  let addr ← Comp.read fun s => s.heap.freshAddr
  Comp.update fun s => { s with heap := s.heap.allocate object }
  pure addr

def store (addr : Addr) (object : Obj ν) : Eval ν Unit := do
  Comp.emit (.write addr)
  Comp.update fun s => { s with heap := s.heap.store addr object }

def runHost (function : Heap ν → HostOutcome ν) : Eval ν (Value ν) := fun s =>
  let outcome := function s.heap
  ⟨outcome.result.mapError .host, { s with heap := outcome.heap }, outcome.writes.map .write⟩

def callHost (kind : CallKind) (function : Addr) (thisArg : Value ν) (args : List (Value ν)) : Eval ν (Value ν) := do
  Comp.emit (.call function kind)
  runHost (host.call function thisArg args)

end Heap

section Primitives

def Value.isObject : Value ν → Bool
  | .object _ => true
  | _ => false

variable [JsNumber ν]

def Value.truthy : Value ν → Bool
  | .undefined => false
  | .null => false
  | .boolean value => value
  | .number value => JsNumber.truthy value
  | .string value => value ≠ ""
  | .object _ => true

/-- `String(value)` of a primitive value. -/
def Value.primitiveText : Value ν → String
  | .undefined => "undefined"
  | .null => "null"
  | .boolean value => if value then "true" else "false"
  | .number value => JsNumber.toText value
  | .string value => value
  | .object _ => ""

def Value.primitiveNumber : Value ν → ν
  | .undefined => JsNumber.nan
  | .null => JsNumber.ofNat 0
  | .boolean value => JsNumber.ofNat (if value then 1 else 0)
  | .number value => value
  | .string value => JsNumber.ofText value
  | .object _ => JsNumber.nan

def typeOf : Value ν → String
  | .undefined => "undefined"
  | .null => "object"
  | .boolean _ => "boolean"
  | .number number => JsNumber.typeOf number
  | .string _ => "string"
  | .object addr => if addr.callable then "function" else "object"

end Primitives

section Properties

/-- The code units of a string; half of a surrogate pair is shown as the replacement
character. -/
def codeUnits (text : String) : List Char :=
  text.toList.flatMap fun char => if char.toNat < 0x10000 then [char] else ['\ufffd', '\ufffd']

def arrayIndex (name : String) : Option ℕ :=
  match name.toNat? with
  | some index => if toString index = name ∧ index < 2 ^ 32 - 1 then some index else none
  | none => none

def stringProperty [JsNumber ν] (text name : String) : Option (Value ν) :=
  if name = "length" then some (.number (JsNumber.ofNat (codeUnits text).length))
  else (arrayIndex name).bind fun index =>
    (codeUnits text)[index]?.map fun char => .string (String.ofList [char])

def chainOf : Value ν → Eval ν (List Addr)
  | .undefined => pure []
  | .null => pure []
  | .boolean _ => pure [host.booleanPrototype, host.objectPrototype]
  | .number _ => pure [host.numberPrototype, host.objectPrototype]
  | .string _ => pure [host.stringPrototype, host.objectPrototype]
  | .object addr => do
    let object ← objectAt addr
    pure (addr :: (object.map (·.prototypes)).getD [])

def lookup (name : String) : List Addr → Eval ν (Option (Addr × Slot ν))
  | [] => pure none
  | addr :: rest => do
    let object ← objectAt addr
    match object.bind (·.properties.get name) with
    | some slot => pure (some (addr, slot))
    | none => lookup name rest

/-- The value of a slot that was found on the way from `receiver`. -/
def slotValue (receiver : Value ν) : Content ν → Eval ν (Value ν)
  | .data value _ => pure value
  | .accessor none _ => pure .undefined
  | .accessor (some getter) _ => callHost host .accessor getter receiver []

def inheritedProperty (receiver : Value ν) (chain : List Addr) (name : String) : Eval ν (Value ν) := do
  match ← lookup name chain with
  | none => pure .undefined
  | some (holder, slot) =>
    Comp.emit (.found holder name)
    slotValue host receiver slot.content

/-- `value[name]` for a value that is neither undefined nor null. -/
def getProperty [JsNumber ν] (value : Value ν) (name : String) : Eval ν (Value ν) :=
  match (match value with | .string text => stringProperty text name | _ => none) with
  | some own => pure own
  | none => do
    let chain ← chainOf host value
    inheritedProperty host value chain name

/-- The object with a property put in its own slots; an array grows with its indices. -/
def Obj.put [JsNumber ν] (object : Obj ν) (name : String) (slot : Slot ν) : Obj ν :=
  let properties := object.properties.set name slot
  match (if object.isArray then arrayIndex name else none) with
  | none => { object with properties }
  | some index =>
    let length := match object.properties.get "length" with
      | some ⟨.data (.number number) _, _⟩ => (JsNumber.toNat number).getD 0
      | _ => 0
    if index < length then { object with properties }
    else { object with
      properties := properties.set "length" ⟨.data (.number (JsNumber.ofNat (index + 1))) true, false⟩ }

def Obj.truncate [JsNumber ν] (object : Obj ν) (length : ℕ) : Obj ν :=
  let dropped := (object.properties.entries.map Prod.fst).filter fun name =>
    (arrayIndex name).any (length ≤ ·)
  { object with
    properties := (object.properties.deleteMany dropped).set "length"
      ⟨.data (.number (JsNumber.ofNat length)) true, false⟩ }

def putOwn [JsNumber ν] (addr : Addr) (name : String) (slot : Slot ν) : Eval ν Unit := do
  match ← objectAt addr with
  | none => pure ()
  | some object =>
    if object.isArray ∧ name = "length" then
      match slot.content with
      | .data value _ =>
        match JsNumber.toNat value.primitiveNumber with
        | some length => store addr (object.truncate length)
        | none => Comp.throw (.rangeError "Invalid array length")
      | .accessor _ _ => pure ()
    else store addr (object.put name slot)

/-- `value[name] = newValue` in strict mode. -/
def setProperty [JsNumber ν] (value : Value ν) (name : String) (newValue : Value ν) : Eval ν Unit :=
  match value with
  | .object addr => do
    let chain ← chainOf host value
    match ← lookup name chain with
    | none => putOwn addr name ⟨.data newValue true, true⟩
    | some (holder, slot) =>
      match slot.content with
      | .data _ true =>
        putOwn addr name ⟨.data newValue true, if holder = addr then slot.enumerable else true⟩
      | .data _ false => Comp.throw (.typeError "Cannot assign to read only property")
      | .accessor _ none =>
        Comp.throw (.typeError "Cannot set property which has only a getter")
      | .accessor _ (some setter) => do
        Comp.emit (.found holder name)
        let _ ← callHost host .accessor setter value [newValue]
        pure ()
  | _ => Comp.throw (.typeError "Cannot create property on a primitive value")

/-- `result[key] = value` for an object that the interpreter builds. The accessor of
`Object.prototype` behind the key `__proto__` replaces the prototypes. -/
def putProperty [JsNumber ν] (addr : Addr) (key : String) (value : Value ν) : Eval ν Unit := do
  match ← objectAt addr with
  | none => pure ()
  | some object =>
    if key = "__proto__" ∧ host.objectPrototype ∈ object.prototypes then
      Comp.emit (.found host.objectPrototype key)
      Comp.emit (.call host.prototypeSetter .accessor)
      match value with
      | .object _ =>
        let chain ← chainOf host value
        store addr { object with prototypes := chain }
      | .null => store addr { object with prototypes := [] }
      | _ => pure ()
    else setProperty host (.object addr) key value

def newObject : Eval ν Addr :=
  allocate ⟨[host.objectPrototype], false, .empty⟩

def newArray [JsNumber ν] (items : List (Value ν)) : Eval ν Addr :=
  allocate ((items.zipIdx).foldl (fun object item => object.put (toString item.2) ⟨.data item.1 true, true⟩)
    ⟨[host.arrayPrototype, host.objectPrototype], true,
      .set .empty "length" ⟨.data (.number (JsNumber.ofNat 0)) true, false⟩⟩)

def newRegExp [JsNumber ν] : Eval ν Addr :=
  allocate ⟨[host.regExpPrototype, host.objectPrototype], false,
    .set .empty "lastIndex" ⟨.data (.number (JsNumber.ofNat 0)) true, false⟩⟩

/-- `Object.assign(result, source)`. -/
def assign [JsNumber ν] (result source : Addr) : Eval ν Unit := do
  let object ← objectAt source
  let keys := (object.map fun object =>
    (object.properties.entries.filter (·.2.enumerable)).map Prod.fst).getD []
  let _ ← Comp.mapList (fun key => do
    let value ← getProperty host (.object source) key
    putProperty host result key value) keys
  pure ()

def arrayItems [JsNumber ν] (value : Value ν) : Eval ν (Option (List (Value ν))) :=
  match value with
  | .object addr => do
    match ← objectAt addr with
    | some object =>
      if object.isArray then
        let length := match object.properties.get "length" with
          | some ⟨.data (.number number) _, _⟩ => (JsNumber.toNat number).getD 0
          | _ => 0
        let items ← Comp.mapList (fun index => getProperty host value (toString index)) (List.range length)
        pure (some items)
      else pure none
    | none => pure none
  | _ => pure none

end Properties

section Calls

variable [JsNumber ν]

/-- `func.apply(thisArg, args)`, where the property `apply` may have been replaced. -/
def applyFunction (kind : CallKind) (function : Addr) (thisArg : Value ν) (args : List (Value ν)) :
    Eval ν (Value ν) := do
  let chain ← chainOf host (.object function)
  match ← lookup "apply" chain with
  | some (_, ⟨.data (.object apply) _, _⟩) =>
    if apply = host.functionApply then callHost host kind function thisArg args
    else if apply.callable then
      let list ← newArray host args
      callHost host .override apply (.object function) [thisArg, .object list]
    else Comp.throw (.typeError "func.apply is not a function")
  | _ => Comp.throw (.typeError "func.apply is not a function")

def convertWith (value : Value ν) : List String → Eval ν (Value ν)
  | [] => Comp.throw (.typeError "Cannot convert object to primitive value")
  | name :: rest => do
    let method ← getProperty host value name
    match method with
    | .object function =>
      if function.callable then
        let result ← callHost host .conversion function value []
        if result.isObject then convertWith value rest else pure result
      else convertWith value rest
    | _ => convertWith value rest

def toPrimitive (preferString : Bool) (value : Value ν) : Eval ν (Value ν) :=
  if value.isObject then
    convertWith host value (if preferString then ["toString", "valueOf"] else ["valueOf", "toString"])
  else pure value

/-- `String(value)`. -/
def toText (value : Value ν) : Eval ν String := do
  let primitive ← toPrimitive host true value
  pure primitive.primitiveText

end Calls

end N8n.Sdk
