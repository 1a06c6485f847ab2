import Mathlib.Data.Finset.Insert
import N8n.PlainData

/-! Augmented objects, as programs see them, and the copy they stand for. A program holds
handles on the objects it has read, and gets, sets, deletes and asks for properties through
them. Nothing is done under the key `__proto__`, which would change prototypes. How a
value converts to the length of an array is a parameter. -/

namespace N8n.AugmentObject

open PlainData

/-! ## Plain values -/

structure Store where
  plain : Addr → Option Cell
  roots : ℕ

namespace Store

def update (a : Addr) (c : Cell) (s : Store) : Store :=
  { s with plain := Function.update s.plain a (some c) }

def write : Option Json → Store → Value × Store
  | none, s => (.undefined, s)
  | some json, s =>
    (json.value ⟨s.roots, []⟩,
      { plain := fun a => if a.root = s.roots then json.cellAt a else s.plain a, roots := s.roots + 1 })

end Store

inductive Action where
  | get (key : Key)
  | set (key : Key) (written : Option Json)
  | delete (key : Key)
  | has (key : Key)
  | ownKeys

def Action.key? : Action → Option Key
  | .get key => some key
  | .set key _ => some key
  | .delete key => some key
  | .has key => some key
  | .ownKeys => none

inductive Result where
  | value (v : Value)
  | done
  | refused
  | threw
  | present (answer : Bool)
  | keys (found : Finset Key)

section Actions

variable (toLength : Option Json → Option ℕ)

/-- An action on a plain object or array at `a`. -/
def Store.act (a : Addr) (c : Cell) (s : Store) : Action → Store × Result
  | .get key => (s, .value (c.get key))
  | .set key written =>
    let (v, s) := s.write written
    match c.set key v (toLength written) with
    | some c => (s.update a c, .done)
    | none => (s, .threw)
  | .delete key =>
    match c.delete key with
    | some c => (s.update a c, .done)
    | none => (s, .refused)
  | .has key => (s, .present (c.has key))
  | .ownKeys => (s, .keys c.ownKeys)

/-! ## Augmented objects and arrays -/

inductive Overlay where
  | object (newData : OrderedMap Key Value) (deletedProperties : Finset Key)
  | array (newData : Option Cell)

structure Proxy where
  target : Addr
  overlay : Overlay

/-- `handles` are the references that the program has read. -/
structure Augmented where
  store : Store
  proxies : List Proxy
  handles : List Value

namespace Augmented

def setOverlay (i : ℕ) (overlay : Overlay) (s : Augmented) : Augmented :=
  { s with proxies := s.proxies.modify i fun p => { p with overlay } }

def augment (v : Value) (s : Augmented) : Value × Augmented :=
  match v with
  | .plain a =>
    match s.store.plain a with
    | some c =>
      let overlay := if c.isArray then .array none else .object .empty ∅
      (.proxy s.proxies.length, { s with proxies := s.proxies ++ [⟨a, overlay⟩] })
    | none => (v, s)
  | _ => (v, s)

/-- The traps of `augmentObject`; `data` is the cell of the target. -/
def actObject (i : ℕ) (data : Cell) (newData : OrderedMap Key Value)
    (deletedProperties : Finset Key) (s : Augmented) : Action → Augmented × Result
  | .get key =>
    if key = .name "constructor" then (s, .value (.builtin false "constructor"))
    else if key ∈ deletedProperties then (s, .value .undefined)
    else match newData.get key with
    | some v => (s, .value v)
    | none =>
      let value := data.get key
      let (newValue, s) := s.augment value
      if newValue ≠ value then
        (s.setOverlay i (.object (newData.set key newValue) deletedProperties), .value newValue)
      else (s, .value value)
  | .delete key =>
    let deletedProperties := if (data.getOwn key).isSome then insert key deletedProperties else deletedProperties
    (s.setOverlay i (.object (newData.delete key) deletedProperties), .done)
  | .set key none =>
    let deletedProperties := if data.has key then insert key deletedProperties else deletedProperties
    (s.setOverlay i (.object (newData.delete key) deletedProperties), .done)
  | .set key (some json) =>
    let (v, store) := s.store.write (some json)
    ({ s with store }.setOverlay i (.object (newData.set key v) (deletedProperties.erase key)), .done)
  | .has key =>
    if key ∈ deletedProperties then (s, .present false)
    else (s, .present (newData.has key || data.has key))
  | .ownKeys =>
    let keys := data.ownKeys ∪ (newData.entries.map Prod.fst).toFinset
    (s, .keys (keys.filter fun key => key ∉ deletedProperties))

/-- The traps of `augmentArray`. -/
def actArray (i : ℕ) (data : Cell) (newData : Option Cell) (s : Augmented) : Action → Augmented × Result
  | .get key =>
    if key = .name "constructor" then (s, .value (.builtin true "constructor"))
    else
      let value := (newData.getD data).get key
      let (newValue, s) := s.augment value
      if newValue ≠ value then
        (s.setOverlay i (.array (some ((newData.getD data.spread).put key newValue))), .value newValue)
      else (s, .value value)
  | .delete key =>
    let newData := newData.getD data.spread
    match newData.delete key with
    | some newData => (s.setOverlay i (.array (some newData)), .done)
    | none => (s.setOverlay i (.array (some newData)), .refused)
  | .set key written =>
    let newData := newData.getD data.spread
    let (v, store) := s.store.write written
    let (v, s) := { s with store }.augment v
    match newData.set key v (toLength written) with
    | some newData => (s.setOverlay i (.array (some newData)), .done)
    | none => (s.setOverlay i (.array (some newData)), .threw)
  | .has key => (s, .present ((newData.getD data).has key))
  | .ownKeys => (s, .keys (newData.getD data).ownKeys)

def act (v : Value) (action : Action) (s : Augmented) : Option (Augmented × Result) :=
  match v with
  | .plain a => do
    let c ← s.store.plain a
    let (store, result) := s.store.act toLength a c action
    return ({ s with store }, result)
  | .proxy i => do
    let p ← s.proxies[i]?
    let data ← s.store.plain p.target
    return match p.overlay with
      | .object newData deletedProperties => s.actObject i data newData deletedProperties action
      | .array newData => s.actArray toLength i data newData action
  | _ => none

end Augmented

/-! ## The copy -/

/-- A deep copy has cells of its own, here under the same names. -/
structure Copied where
  store : Store
  handles : List Value

/-- Setting a key of an object to undefined deletes it. -/
def Copied.act (v : Value) (action : Action) (t : Copied) : Option (Copied × Result) :=
  match v with
  | .plain a => do
    let c ← t.store.plain a
    match c.isArray, action with
    | false, .set key none =>
      return ({ t with store := t.store.update a { c with own := c.own.delete key } }, .done)
    | _, _ =>
      let (store, result) := t.store.act toLength a c action
      return ({ t with store }, result)
  | _ => none

/-! ## Programs -/

end Actions

/-- A reference is observed through its kind; later actions on it tell more. -/
inductive Seen where
  | undefined
  | prim (value : Prim)
  | builtin (ofArray : Bool) (name : String)
  | reference (isArray : Bool)
  deriving DecidableEq

inductive Observation where
  | value (seen : Seen)
  | done
  | refused
  | threw
  | present (answer : Bool)
  | keys (found : Finset Key)
  deriving DecidableEq

/-- `isArray` tells the kind of a reference. -/
def Result.observe (isArray : Value → Bool) : Result → Observation
  | .value .undefined => .value .undefined
  | .value (.prim p) => .value (.prim p)
  | .value (.builtin ofArray name) => .value (.builtin ofArray name)
  | .value v => .value (.reference (isArray v))
  | .done => .done
  | .refused => .refused
  | .threw => .threw
  | .present answer => .present answer
  | .keys found => .keys found

def Result.handle : Result → List Value
  | .value (.plain a) => [.plain a]
  | .value (.proxy i) => [.proxy i]
  | _ => []

def Overlay.isArray : Overlay → Bool
  | .object _ _ => false
  | .array _ => true

def Store.isArray (s : Store) : Value → Bool
  | .plain a => (s.plain a).any Cell.isArray
  | _ => false

def Augmented.isArray (s : Augmented) : Value → Bool
  | .proxy i => (s.proxies[i]?).any fun p => p.overlay.isArray
  | v => s.store.isArray v

structure Op where
  handle : ℕ
  action : Action

section Programs

variable (toLength : Option Json → Option ℕ)

def Augmented.step (s : Augmented) (op : Op) : Option (Augmented × Observation) :=
  if op.action.key? = some (.name "__proto__") then none
  else do
    let v ← s.handles[op.handle]?
    let (s, result) ← s.act toLength v op.action
    return ({ s with handles := s.handles ++ result.handle }, result.observe s.isArray)

def Copied.step (t : Copied) (op : Op) : Option (Copied × Observation) :=
  if op.action.key? = some (.name "__proto__") then none
  else do
    let v ← t.handles[op.handle]?
    let (t, result) ← t.act toLength v op.action
    return ({ t with handles := t.handles ++ result.handle }, result.observe t.store.isArray)

/-- The observations of a program, up to the first action that is not possible. -/
def Augmented.observations : Augmented → List Op → List Observation
  | _, [] => []
  | s, op :: ops => match s.step toLength op with
    | none => []
    | some (s, seen) => seen :: observations s ops

def Copied.observations : Copied → List Op → List Observation
  | _, [] => []
  | t, op :: ops => match t.step toLength op with
    | none => []
    | some (t, seen) => seen :: observations t ops

def Augmented.run : Augmented → List Op → Augmented
  | s, [] => s
  | s, op :: ops => match s.step toLength op with
    | none => s
    | some (s, _) => run s ops

end Programs

def Store.holding (data : Json) : Store :=
  ⟨fun a => if a.root = 0 then data.cellAt a else none, 1⟩

def augmentObject (entries : List (Key × Json)) : Augmented :=
  ⟨.holding (.object entries), [⟨⟨0, []⟩, .object .empty ∅⟩], [.proxy 0]⟩

def deepCopy (entries : List (Key × Json)) : Copied := ⟨.holding (.object entries), [.plain ⟨0, []⟩]⟩

end N8n.AugmentObject
