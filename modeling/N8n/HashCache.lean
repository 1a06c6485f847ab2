import Mathlib.Logic.Function.Basic
import Mathlib.Tactic.Common
import N8n.TransitionSystem

/-! The hashes of `CacheService` with the memory backend: calls on one key that interleave at their
awaits. -/

namespace N8n.HashCache

/-- A hash as a JavaScript object. -/
abbrev Fields (Value : Type) := String → Option Value

section Calls

variable {Value : Type}

inductive Call (Value : Type) where
  /-- A value may be missing: `null` or `undefined`. -/
  | setHash (hash : List (String × Option Value))
  | deleteFromHash (hashKey : String)
  | getHashValue (hashKey : String)

/-- `Object.assign`, of the fields in their order. -/
def assign (hash : List (String × Option Value)) (fields : Fields Value) : Fields Value :=
  hash.foldl (fun fields entry => Function.update fields entry.1 entry.2) fields

namespace Call

/-- The call goes on to the store: its arguments are not refused. -/
def isUpdate : Call Value → Bool
  | setHash hash => hash.all fun entry => entry.2.isSome
  | deleteFromHash hashKey => hashKey ≠ ""
  | getHashValue _ => false

def apply : Call Value → Fields Value → Fields Value
  | setHash hash, fields => assign hash fields
  | deleteFromHash hashKey, fields => Function.update fields hashKey none
  | getHashValue _, fields => fields

end Call

end Calls

section Memory

variable {Value : Type}

structure HashObject (Value : Type) where
  fields : Fields Value
  updates : List (ℕ × Call Value) := []

def HashObject.change (object : HashObject Value) (id : ℕ) (call : Call Value) : HashObject Value where
  fields := call.apply object.fields
  updates := object.updates ++ [(id, call)]

/-- Where a call is: the object that it found is known at once, but goes through awaits. -/
inductive Stage (Value : Type) where
  | reading (found : Option ℕ)
  | returning (value : Option Value)
  | done (value : Option Value)

structure Progress (Value : Type) where
  call : Call Value
  stage : Stage Value

def Stage.isDone : Stage Value → Bool
  | .done _ => true
  | _ => false

/-- The updates made, in their order, and the deletions that found no hash, are kept for the
statements only. -/
structure State (Value : Type) where
  objects : ℕ → HashObject Value
  size : ℕ
  stored : Option ℕ
  calls : ℕ → Option (Progress Value) := fun _ => none
  log : List (ℕ × Call Value) := []
  missed : List (ℕ × Call Value) := []

namespace State

variable (state : State Value)

/-- The hash under the key; a missing key is an empty hash. -/
def hash : Fields Value :=
  state.stored.elim (fun _ => none) fun reference => (state.objects reference).fields

def updates : List (ℕ × Call Value) :=
  state.stored.elim [] fun reference => (state.objects reference).updates

def setStage (id : ℕ) (call : Call Value) (stage : Stage Value) : State Value :=
  { state with calls := Function.update state.calls id (some { call, stage }) }

def set (cloneBeforeSet : Bool) (reference : ℕ) : State Value :=
  if cloneBeforeSet then { state with
    objects := Function.update state.objects state.size (state.objects reference)
    size := state.size + 1
    stored := some state.size }
  else { state with stored := some reference }

def write (cloneBeforeSet : Bool) (id : ℕ) (call : Call Value) (reference : ℕ) : State Value :=
  { state with
    objects := Function.update state.objects reference ((state.objects reference).change id call)
    log := state.log ++ [(id, call)] }.set cloneBeforeSet reference

/-- `{}`. -/
def allocate : State Value :=
  { state with
    objects := Function.update state.objects state.size { fields := fun _ => none }
    size := state.size + 1 }

end State

inductive Event (Value : Type) where
  | start (id : ℕ) (call : Call Value)
  | resume (id : ℕ)
  | finish (id : ℕ)

variable (cloneBeforeSet : Bool) (state : State Value)

def start (id : ℕ) (call : Call Value) : State Value :=
  match call with
  | .setHash _ =>
    if call.isUpdate then state.setStage id call (.reading state.stored)
    else state.setStage id call (.returning none)
  | .deleteFromHash _ =>
    if call.isUpdate then { state with
      missed := if state.stored.isNone then state.missed ++ [(id, call)] else state.missed }.setStage
        id call (.reading state.stored)
    else state.setStage id call (.returning none)
  | .getHashValue _ => state.setStage id call (.reading state.stored)

/-- The code after the store has answered, up to the await of its `set`. -/
def resume (id : ℕ) (call : Call Value) (found : Option ℕ) : State Value :=
  match call, found with
  | .setHash _, some reference =>
    (state.write cloneBeforeSet id call reference).setStage id call (.returning none)
  | .setHash _, none =>
    (state.allocate.write cloneBeforeSet id call state.size).setStage id call (.returning none)
  | .deleteFromHash _, some reference =>
    (state.write cloneBeforeSet id call reference).setStage id call (.returning none)
  | .deleteFromHash _, none => state.setStage id call (.returning none)
  | .getHashValue hashKey, found =>
    let value := found.bind fun reference => (state.objects reference).fields hashKey
    state.setStage id call (.returning value)

def step : Event Value → Option (State Value)
  | .start id call =>
    if (state.calls id).isSome then none else some (start state id call)
  | .resume id =>
    match state.calls id with
    | some { call, stage := .reading found } => some (resume cloneBeforeSet state id call found)
    | _ => none
  | .finish id =>
    match state.calls id with
    | some { call, stage := .returning value } => some (state.setStage id call (.done value))
    | _ => none

/-- The key holds a hash, or is missing. -/
def initial (fields : Option (Fields Value)) : State Value where
  objects _ := { fields := fields.getD fun _ => none }
  size := 1
  stored := fields.map fun _ => 0

def system (fields : Option (Fields Value)) : TransitionSystem (State Value) (Event Value) where
  init := initial fields
  step := step cloneBeforeSet

end Memory

end N8n.HashCache
