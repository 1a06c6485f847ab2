import N8n.JsonText
import N8n.OrderedMap
import Mathlib.Data.List.Lex
import Mathlib.Data.List.Dedup
import Mathlib.Data.Nat.Digits.Defs

/-! The text that is hashed for the checksum of a workflow: the checked fields that are
present, with the keys of all objects sorted, as `JSON.stringify` writes them. -/

namespace N8n.WorkflowChecksum

open JsonText

/-! ## Values of the program -/

/-- A JSON value as the program holds it: members may be undefined, and of several members
with one key the first counts. -/
inductive Value
  | undefined
  | null
  | boolean (value : Bool)
  | number (value : NumberText)
  | string (value : JsString)
  | array (items : List Value)
  | object (members : List (JsString × Value))

@[induction_eliminator]
theorem Value.induct {motive : Value → Prop} (undefined : motive .undefined) (null : motive .null)
    (boolean : ∀ value, motive (.boolean value)) (number : ∀ value, motive (.number value))
    (string : ∀ value, motive (.string value)) (array : ∀ items, (∀ item ∈ items, motive item) → motive (.array items))
    (object : ∀ members, (∀ entry ∈ members, motive entry.2) → motive (.object members)) (value : Value) :
    motive value :=
  @Value.rec motive (fun items => ∀ item ∈ items, motive item)
    (fun members => ∀ entry ∈ members, motive entry.2) (fun entry => motive entry.2)
    undefined null boolean number string array object (by simp)
    (fun _ _ first rest => List.forall_mem_cons.mpr ⟨first, rest⟩) (by simp)
    (fun _ _ first rest => List.forall_mem_cons.mpr ⟨first, rest⟩) (fun _ _ value => value) value

def protoKey : JsString := [95, 95, 112, 114, 111, 116, 111, 95, 95]

def decimal (n : ℕ) : JsString :=
  if n = 0 then [48] else (Nat.digits 10 n).reverse.map fun digit => Fin.ofNat 65536 (48 + digit)

/-- The number that a string of digits stands for. -/
def ofDecimal (key : JsString) : ℕ := key.foldl (fun n u => n * 10 + (u.val - 48)) 0

/-- An array index is a key that is the decimal text of a number below 2³² - 1. -/
def arrayIndex (key : JsString) : Option ℕ :=
  if ofDecimal key < 2 ^ 32 - 1 ∧ decimal (ofDecimal key) = key then some (ofDecimal key) else none

section Members

variable {α : Type}

def memberKeys (members : List (JsString × α)) : List JsString := (members.map Prod.fst).dedup

def isIndex (key : JsString) : Bool := (arrayIndex key).isSome

/-- The order of own properties: array indices in ascending order, then the other keys as
they were added. -/
def ownKeyOrder (keys : List JsString) : List JsString :=
  (keys.filter isIndex).mergeSort (fun k l => (arrayIndex k).getD 0 ≤ (arrayIndex l).getD 0) ++
    keys.filter fun key => !isIndex key

/-- `Object.keys`. -/
def objectKeys (members : List (JsString × α)) : List JsString := ownKeyOrder (memberKeys members)

/-- `Array.prototype.sort` without a comparison: by UTF-16 code units. -/
def sortKeys (keys : List JsString) : List JsString := keys.mergeSort fun k l => k ≤ l

/-- The members that the object has after `object[key] = value` for each of the keys. Under
`__proto__` the assignment sets the prototype or does nothing. -/
def assignMembers (keys : List JsString) (members : List (JsString × α)) : List (JsString × α) :=
  (keys.filter fun key => key ≠ protoKey).filterMap fun key =>
    (OrderedMap.getEntry key members).map fun value => (key, value)

end Members

mutual

def sortObjectKeys : Value → Value
  | .array items => .array (sortItems items)
  | .object members =>
    let sorted := sortMembers members
    .object (assignMembers (sortKeys (objectKeys sorted)) sorted)
  | value => value

def sortItems : List Value → List Value
  | [] => []
  | item :: items => sortObjectKeys item :: sortItems items

def sortMembers : List (JsString × Value) → List (JsString × Value)
  | [] => []
  | (key, value) :: members => (key, sortObjectKeys value) :: sortMembers members

end

/-! ## `JSON.stringify` -/

def writtenMembers (members : List (JsString × Option Json)) : List (JsString × Json) :=
  (objectKeys members).filterMap fun key =>
    (OrderedMap.getEntry key members).join.map fun value => (key, value)

mutual

def written : Value → Option Json
  | .undefined => none
  | .null => some .null
  | .boolean value => some (.boolean value)
  | .number value => some (.number value)
  | .string value => some (.string value)
  | .array items => some (.array (writtenItems items))
  | .object members => some (.object (writtenMembers (writtenValues members)))

def writtenItems : List Value → List Json
  | [] => []
  | item :: items => (written item).getD .null :: writtenItems items

def writtenValues : List (JsString × Value) → List (JsString × Option Json)
  | [] => []
  | (key, value) :: members => (key, written value) :: writtenValues members

end

def stringify (value : Value) : Option JsString := (written value).map Json.text

/-! ## The payload -/

inductive ChecksumField
  | name
  | description
  | nodes
  | connections
  | settings
  | «meta»
  | pinData
  | isArchived
  | activeVersionId
  | nodeGroups
  deriving DecidableEq

def WORKFLOW_CHECKSUM_FIELDS : List ChecksumField :=
  [.name, .description, .nodes, .connections, .settings, .«meta», .pinData, .isArchived, .activeVersionId, .nodeGroups]

def asciiUnits (text : String) : JsString := text.toList.map fun c => Fin.ofNat 65536 c.toNat

def ChecksumField.key : ChecksumField → JsString
  | .name => asciiUnits "name"
  | .description => asciiUnits "description"
  | .nodes => asciiUnits "nodes"
  | .connections => asciiUnits "connections"
  | .settings => asciiUnits "settings"
  | .«meta» => asciiUnits "meta"
  | .pinData => asciiUnits "pinData"
  | .isArchived => asciiUnits "isArchived"
  | .activeVersionId => asciiUnits "activeVersionId"
  | .nodeGroups => asciiUnits "nodeGroups"

abbrev WorkflowSnapshot := ChecksumField → Value

def Value.isUndefined : Value → Bool
  | .undefined => true
  | _ => false

def checksumPayload (workflow : WorkflowSnapshot) : Value :=
  .object (WORKFLOW_CHECKSUM_FIELDS.filterMap fun field =>
    if (workflow field).isUndefined then none else some (field.key, workflow field))

/-- The text that `calculateWorkflowChecksum` hashes. -/
def serializedPayload (workflow : WorkflowSnapshot) : Option JsString :=
  stringify (sortObjectKeys (checksumPayload workflow))

end N8n.WorkflowChecksum
