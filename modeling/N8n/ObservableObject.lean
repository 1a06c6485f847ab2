import N8n.PlainData

/-! Observable objects. `create` wraps an object and what is inside in proxies whose
`set` and `deleteProperty` traps mark the root through its property `__dataChanged`;
objects that have such a property already are passed by. A reference to an object is the
proxy where `create` has made one, and else the object itself. How a value converts to
the length of an array is a parameter, as is the depth of the stack. -/

namespace N8n.ObservableObject

open PlainData

def dataChangedKey : Key := .name "__dataChanged"

def protoKey : Key := .name "__proto__"

/-- `builtin` is `Array.prototype` or `Object.prototype`. -/
inductive Prototype where
  | builtin (ofArray : Bool)
  | null
  | object (a : Addr)
  deriving DecidableEq

/-- An object behind its proxy, if it has one. `dataChanged` is the property that
`defineProperty` adds, which is not enumerable and cannot be deleted. -/
structure Target where
  cell : Cell
  dataChanged : Option Value
  prototype : Prototype

namespace Target

def plain (cell : Cell) : Target := ⟨cell, none, .builtin cell.isArray⟩

def isHidden (t : Target) (key : Key) : Bool := t.dataChanged.isSome && key = dataChangedKey

def getOwn (t : Target) (key : Key) : Option Value :=
  if t.isHidden key then t.dataChanged else t.cell.getOwn key

/-- `length` is what the value is as a length; the write throws if it has to be one and is not. -/
def put (t : Target) (key : Key) (v : Value) (length : Option ℕ) : Option Target :=
  if t.isHidden key then some { t with dataChanged := some v }
  else (t.cell.set key v length).map fun cell => { t with cell }

def delete (t : Target) (key : Key) : Option Target :=
  if t.isHidden key then none else (t.cell.delete key).map fun cell => { t with cell }

/-- `Object.defineProperty(target, '__dataChanged', ...)`: a property that exists keeps
its other attributes. -/
def defineDataChanged (t : Target) : Target :=
  match t.cell.own.get dataChangedKey with
  | some _ =>
    { t with cell := { t.cell with own := t.cell.own.set dataChangedKey (.prim (.boolean false)) } }
  | none => { t with dataChanged := some (.prim (.boolean false)) }

end Target

inductive Written where
  | undefined
  | json (value : Json)
  | held (handle : ℕ)

inductive Action where
  | get (key : Key)
  | set (key : Key) (written : Written)
  | delete (key : Key)

/-- `handles` are the values that have been read, the root first. -/
structure Observed where
  targets : Addr → Option Target
  roots : ℕ
  wrapped : Addr → Bool
  ignoreEmptyOnFirstChild : Bool
  handles : List Value

def root : Addr := ⟨0, []⟩

/-! ## Creation -/

/-- The loop over the keys and the recursion of `create`, along a path of the value. -/
def wrappedAt (json : Json) : List Key → Bool
  | [] => true
  | key :: path =>
    wrappedAt json path && (json.valueAt (key :: path)).any fun inner =>
        inner.isCompound && (inner.entries.get dataChangedKey).isNone

def createdTarget (json : Json) (a : Addr) : Option Target :=
  if a.root = 0 then
    (json.cellAt a).map fun cell =>
      if wrappedAt json a.path then (Target.plain cell).defineDataChanged else Target.plain cell
  else none

def create (target : List (Key × Json)) (ignoreEmptyOnFirstChild : Bool) : Observed where
  targets := createdTarget (.object target)
  roots := 1
  wrapped a := decide (a.root = 0) && wrappedAt (.object target) a.path
  ignoreEmptyOnFirstChild := ignoreEmptyOnFirstChild
  handles := [.plain root]

/-! ## Properties of objects -/

namespace Observed

def update (a : Addr) (t : Target) (s : Observed) : Observed :=
  { s with targets := Function.update s.targets a (some t) }

@[simp] theorem update_targets_self (s : Observed) (a : Addr) (t : Target) : (s.update a t).targets a = some t := by
  simp [update]

theorem update_targets_ne (s : Observed) {a b : Addr} (t : Target) (different : b ≠ a) :
    (s.update a t).targets b = s.targets b := by
  simp [update, different]

def prototypeOf (s : Observed) (a : Addr) : Option Prototype := (s.targets a).map Target.prototype

/-- `Reflect.get`, which follows the prototypes; `none` where the stack overflows. -/
def lookup (s : Observed) (receiver : Addr) : ℕ → Addr → Key → Option Value
  | 0, _, _ => none
  | stack + 1, a, key => do
    let t ← s.targets a
    match t.getOwn key with
    | some v => some v
    | none =>
      match t.prototype with
      | .null => some .undefined
      | .object b => lookup s receiver stack b key
      | .builtin ofArray =>
        if key = protoKey then
          match s.prototypeOf receiver with
          | some (.object b) => some (.plain b)
          | some (.builtin ofArray) => some (.builtin ofArray "__proto__")
          | _ => some (.prim .null)
        else some ((inherited ofArray key).getD .undefined)

/-- The chain of prototypes from `b` leads to `a`; a proxy on it hides the rest. -/
def leadsTo (s : Observed) (a : Addr) : ℕ → Addr → Bool
  | 0, _ => false
  | stack + 1, b =>
    !s.wrapped b && (b = a ||
        match s.prototypeOf b with
        | some (.object c) => leadsTo s a stack c
        | _ => false)

section Writing

variable (toLength : Value → Option ℕ)

def modify (a : Addr) (change : Target → Option Target) (s : Observed) : Observed × Bool :=
  match (s.targets a).bind change with
  | some t => (s.update a t, true)
  | none => (s, false)

def put (a : Addr) (key : Key) (v : Value) (s : Observed) : Observed × Bool :=
  s.modify a fun t => t.put key v (toLength v)

/-- The setter of `__proto__`. -/
def setPrototype (stack : ℕ) (a : Addr) (v : Value) (s : Observed) : Observed × Bool :=
  match v with
  | .plain b =>
    if s.leadsTo a stack b then (s, false)
    else s.modify a fun t => some { t with prototype := .object b }
  | .prim .null => s.modify a fun t => some { t with prototype := .null }
  | .builtin ofArray "__proto__" =>
    s.modify a fun t => some { t with prototype := .builtin ofArray }
  | _ => (s, true)

/-- Whether the set trap marks the root; `none` where `Object.keys(null)` throws. -/
def marks (stack : ℕ) (a : Addr) (key : Key) (v : Value) (s : Observed) : Option Bool :=
  if a = root ∧ s.ignoreEmptyOnFirstChild = true ∧ s.lookup a stack a key = some .undefined then
    match v with
    | .prim .null => none
    | .plain b => some ((s.targets b).any fun t => !t.cell.own.entries.isEmpty)
    | .builtin _ name => some (name != "__proto__")
    | _ => some true
  else some true

/-- `Reflect.set` on the object at `a` for `receiver`. A proxy among the prototypes runs
its own set trap, whose `Reflect.set` has its target as the receiver. -/
def assign : ℕ → Addr → Addr → Key → Value → Observed → Observed × Bool
  | 0, _, _, _, _, s => (s, false)
  | stack + 1, a, receiver, key, v, s =>
    match s.targets a with
    | none => (s, false)
    | some t =>
      if (t.getOwn key).isSome then s.put toLength receiver key v
      else
        match t.prototype with
        | .null => s.put toLength receiver key v
        | .builtin _ =>
          if key = protoKey then s.setPrototype stack receiver v
          else s.put toLength receiver key v
        | .object b =>
          if s.wrapped b then
            match s.marks stack b key v with
            | none => (s, false)
            | some false => assign stack b b key v s
            | some true =>
              let (s, marked) := assign stack root root dataChangedKey (.prim (.boolean true)) s
              if marked then assign stack b b key v s else (s, false)
          else assign stack b receiver key v s

/-- `target.__dataChanged = true` at the root, and `parent.__dataChanged = true` below it. -/
def mark (stack : ℕ) (s : Observed) : Observed × Bool :=
  s.assign toLength (stack + 1) root root dataChangedKey (.prim (.boolean true))

def setTrap (stack : ℕ) (a : Addr) (key : Key) (v : Value) (s : Observed) : Observed :=
  match s.marks (stack + 1) a key v with
  | none => s
  | some false => (s.assign toLength (stack + 1) a a key v).1
  | some true =>
    let (s, marked) := s.mark toLength stack
    if marked then (s.assign toLength (stack + 1) a a key v).1 else s

def deletePropertyTrap (stack : ℕ) (a : Addr) (key : Key) (s : Observed) : Observed :=
  let (s, marked) := s.mark toLength stack
  if marked then (s.modify a fun t => t.delete key).1 else s

def write : Written → Observed → Value × Observed
  | .undefined, s => (.undefined, s)
  | .held i, s => ((s.handles[i]?).getD .undefined, s)
  | .json json, s =>
    (json.value ⟨s.roots, []⟩, { s with
        targets := fun a =>
          if a.root = s.roots then (json.cellAt a).map Target.plain else s.targets a
        roots := s.roots + 1 })

def act (stack : ℕ) (a : Addr) (s : Observed) : Action → Observed
  | .get key =>
    match s.lookup a (stack + 1) a key with
    | some v => { s with handles := s.handles ++ [v] }
    | none => s
  | .set key written =>
    let (v, s) := s.write written
    if s.wrapped a then s.setTrap toLength stack a key v
    else (s.assign toLength (stack + 1) a a key v).1
  | .delete key =>
    if s.wrapped a then s.deletePropertyTrap toLength stack a key
    else (s.modify a fun t => t.delete key).1

end Writing

end Observed

/-! ## Programs -/

structure Op where
  handle : ℕ
  action : Action

section Programs

variable (toLength : Value → Option ℕ) (stack : ℕ)

/-- An action on a value that is not an object changes no object. -/
def Observed.step (s : Observed) (op : Op) : Observed :=
  match s.handles[op.handle]? with
  | some (.plain a) => s.act toLength stack a op.action
  | _ => s

def Observed.run (s : Observed) (ops : List Op) : Observed := ops.foldl (Observed.step toLength stack) s

end Programs

/-! ## What is observed of the root -/

/-- What stands at a place of the content: objects with their enumerable keys. -/
inductive Node where
  | undefined
  | prim (value : Prim)
  | builtin (ofArray : Bool) (name : String)
  | object (isArray : Bool) (keys : List Key) (length : ℕ)
  deriving DecidableEq

namespace Observed

variable (s : Observed)

def node : Value → Option Node
  | .undefined => some .undefined
  | .prim p => some (.prim p)
  | .builtin ofArray name => some (.builtin ofArray name)
  | .plain a => (s.targets a).map fun t =>
      .object t.cell.isArray (t.cell.own.entries.map Prod.fst) t.cell.length
  | .proxy _ => none

/-- What stands at a path, read from the front. -/
def nodeAt : Value → List Key → Option Node
  | v, [] => s.node v
  | .plain a, key :: path => do
    let t ← s.targets a
    let v ← t.cell.own.get key
    nodeAt v path
  | _, _ :: _ => none

def content : List Key → Option Node := s.nodeAt (.plain root)

/-- The root's own property `__dataChanged`. -/
def dataChanged : Option Value := (s.targets root).bind fun t => t.getOwn dataChangedKey

end Observed

end N8n.ObservableObject
