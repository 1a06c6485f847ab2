import Mathlib.Data.List.Sort
import N8n.DirectedGraph

/-! The groups of the connections into a start node: one connection for each input, in ascending order
of the inputs, and one with data before one without. -/

namespace N8n.WorkflowExecute

structure SourceConnectionGroup where
  complete : Bool
  connections : List GraphConnection
  deriving DecidableEq

def newGroup : SourceConnectionGroup := ⟨true, []⟩

/-- By input index and then by name; `localeLE` is the order of `localeCompare`. -/
def sortByInputIndexThenByName (localeLE : String → String → Bool) (a b : GraphConnection) : Bool :=
  a.inputIndex < b.inputIndex || (a.inputIndex = b.inputIndex && localeLE a.fromNode b.fromNode)

def minInputIndex (connections : List GraphConnection) : ℕ :=
  (connections.map (·.inputIndex)).foldl min ((connections.map (·.inputIndex)).headD 0)

/-- Every round takes a connection or closes a group, after which the next round takes
one, so `fuel` never runs out when it exceeds twice their number. `inputIndex` is the
index that the round looks for. -/
def groupConnections : (fuel : ℕ) → (withData withoutData : List GraphConnection) →
    (current : SourceConnectionGroup) → (inputIndex : ℕ) → List SourceConnectionGroup
  | 0, _, _, current, _ => [current]
  | fuel + 1, withData, withoutData, current, inputIndex =>
    if withData.isEmpty ∧ withoutData.isEmpty then [current]
    else
      match withData.find? (·.inputIndex = inputIndex) with
      | some connection =>
        groupConnections fuel (withData.eraseP (·.inputIndex = inputIndex)) withoutData
          { current with connections := current.connections ++ [connection] } (inputIndex + 1)
      | none =>
        match withoutData.find? (·.inputIndex = inputIndex) with
        | some connection =>
          groupConnections fuel withData (withoutData.eraseP (·.inputIndex = inputIndex))
            ⟨false, current.connections ++ [connection]⟩ (inputIndex + 1)
        | none =>
          current :: groupConnections fuel withData withoutData newGroup (minInputIndex (withData ++ withoutData))

end N8n.WorkflowExecute
