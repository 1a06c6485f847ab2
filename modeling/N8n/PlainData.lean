import Mathlib.Data.Finset.Basic
import Mathlib.Data.Rat.Defs
import N8n.OrderedMap

/-! Plain JavaScript objects and arrays. A JSON value that enters the store brings a cell
for each object and array in it, named by the number of the value and the path that leads
there. Keys that are array indices are told apart from other names. -/

namespace N8n.PlainData

inductive Key where
  | index (n : ℕ)
  | name (text : String)
  deriving DecidableEq

inductive Prim where
  | null
  | boolean (value : Bool)
  | number (value : ℚ)
  | string (value : String)
  deriving DecidableEq

inductive Json where
  | prim (value : Prim)
  | array (items : List Json)
  | object (entries : List (Key × Json))

structure Addr where
  root : ℕ
  path : List Key
  deriving DecidableEq

def Addr.child (a : Addr) (key : Key) : Addr := ⟨a.root, key :: a.path⟩

/-- `builtin` is a member of `Array.prototype` or `Object.prototype`, `proxy` an augmented
object or array. -/
inductive Value where
  | undefined
  | prim (value : Prim)
  | builtin (ofArray : Bool) (name : String)
  | plain (a : Addr)
  | proxy (index : ℕ)
  deriving DecidableEq

/-- An object or array with its own properties; `length` only counts for arrays, where it
is not among them. -/
structure Cell where
  isArray : Bool
  own : OrderedMap Key Value
  length : ℕ
  deriving DecidableEq

/-! ## JSON values in the store -/

section Indexed

variable {ν : Type*}

def indexed (items : List ν) : OrderedMap Key ν :=
  ⟨items.zipIdx.map fun item => (.index item.2, item.1), by
    have keys : (items.zipIdx.map fun item => (Key.index item.2, item.1)).map Prod.fst =
        (items.zipIdx.map Prod.snd).map Key.index := by
      rw [List.map_map, List.map_map]
      rfl
    rw [keys, List.zipIdx_map_snd]
    exact List.Nodup.map (fun _ _ same => Key.index.inj same) (List.nodup_range' 1)⟩

theorem get_indexed (items : List ν) (n : ℕ) : (indexed items).get (.index n) = items[n]? := by
  apply Option.ext
  intro item
  rw [← Option.mem_def, Option.mem_def, ← OrderedMap.mem_entries_iff]
  simp [indexed, List.mem_zipIdx_iff_getElem?]

theorem get_indexed_name (items : List ν) (text : String) : (indexed items).get (.name text) = none := by
  rw [OrderedMap.get_eq_none_iff]
  simp [indexed]

end Indexed

namespace Json

def isCompound : Json → Bool
  | .prim _ => false
  | _ => true

def isArray : Json → Bool
  | .array _ => true
  | _ => false

/-- What is directly inside; the last entry of a key counts. -/
def entries : Json → OrderedMap Key Json
  | .prim _ => .empty
  | .array items => indexed items
  | .object entries => entries.foldl (fun own entry => own.set entry.1 entry.2) .empty

def length : Json → ℕ
  | .array items => items.length
  | _ => 0

def valueAt (json : Json) : List Key → Option Json
  | [] => some json
  | key :: path => (json.valueAt path).bind fun inner => inner.entries.get key

/-- The value as it stands in a property, its own cell being at `a`. -/
def value (a : Addr) : Json → Value
  | .prim p => .prim p
  | _ => .plain a

def cell (a : Addr) (json : Json) : Cell :=
  ⟨json.isArray, json.entries.mapKeyed fun key inner => inner.value (a.child key), json.length⟩

def cellAt (json : Json) (a : Addr) : Option Cell :=
  ((json.valueAt a.path).filter isCompound).map (cell a)

end Json

/-! ## The operations of plain objects and arrays -/

def objectPrototype : List String :=
  ["constructor", "__defineGetter__", "__defineSetter__", "hasOwnProperty", "__lookupGetter__",
    "__lookupSetter__", "isPrototypeOf", "propertyIsEnumerable", "toString", "valueOf", "__proto__",
    "toLocaleString"]

def arrayPrototype : List String :=
  ["length", "constructor", "at", "concat", "copyWithin", "fill", "find", "findIndex", "findLast",
    "findLastIndex", "lastIndexOf", "pop", "push", "reverse", "shift", "unshift", "slice", "sort",
    "splice", "includes", "indexOf", "join", "keys", "entries", "values", "forEach", "filter", "flat",
    "flatMap", "map", "every", "some", "reduce", "reduceRight", "toLocaleString", "toString",
    "toReversed", "toSorted", "toSpliced", "with"]

def inherited (isArray : Bool) : Key → Option Value
  | .index _ => none
  | .name text =>
    if isArray = true ∧ text ∈ arrayPrototype then some (.builtin true text)
    else if text ∈ objectPrototype then some (.builtin false text)
    else none

namespace Cell

def isLength (c : Cell) (key : Key) : Bool := c.isArray && key = .name "length"

def getOwn (c : Cell) (key : Key) : Option Value :=
  if c.isLength key then some (.prim (.number c.length)) else c.own.get key

def get (c : Cell) (key : Key) : Value :=
  ((c.getOwn key).or (inherited c.isArray key)).getD .undefined

def has (c : Cell) (key : Key) : Bool := (c.getOwn key).isSome || (inherited c.isArray key).isSome

def ownKeys (c : Cell) : Finset Key :=
  (c.own.entries.map Prod.fst).toFinset ∪ if c.isArray then {.name "length"} else ∅

/-- Whether the property can be deleted, and what is left. -/
def delete (c : Cell) (key : Key) : Option Cell :=
  if c.isLength key then none else some { c with own := c.own.delete key }

def put (c : Cell) (key : Key) (v : Value) : Cell :=
  match c.isArray, key with
  | true, .index n => { c with own := c.own.set key v, length := max c.length (n + 1) }
  | _, _ => { c with own := c.own.set key v }

def setLength (c : Cell) (length : ℕ) : Cell :=
  { c with
    own := c.own.deleteMany ((c.own.entries.map Prod.fst).filter fun key =>
      match key with
      | .index n => length ≤ n
      | .name _ => false)
    length }

/-- `length` is what the written value is as a length, if it is one. -/
def set (c : Cell) (key : Key) (v : Value) (length : Option ℕ) : Option Cell :=
  if c.isLength key then length.map c.setLength else some (c.put key v)

/-- `[...data]`: holes become undefined, and other properties are left out. -/
def spread (c : Cell) : Cell :=
  ⟨true, indexed ((List.range c.length).map fun n => (c.own.get (.index n)).getD .undefined), c.length⟩

end Cell

end N8n.PlainData
