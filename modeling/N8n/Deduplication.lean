import N8n.TypeValidation

/-! `DeduplicationHelper`, for the data of one scope of a workflow. -/

namespace N8n.Deduplication

open Js

/-- `DeduplicationItemTypes`; a number is one that the stored JSON can hold. -/
inductive Item where
  | string (text : String)
  | number (value : ℚ)
  deriving DecidableEq

inductive Mode where
  | entries
  | latestIncrementalKey
  | latestDate
  deriving DecidableEq

def Mode.isLatest : Mode → Bool
  | entries => false
  | latestIncrementalKey | latestDate => true

inductive Failure where
  | invalidNumber
  | invalidDate
  | invalidMode
  | incompatibleMode
  | notRemovable
  deriving DecidableEq

/-- The message of the `DeduplicationError`. -/
def Failure.message : Failure → String
  | invalidNumber => "Invalid value. Only numbers are supported in mode \"latestIncrementalKey\""
  | invalidDate => "Invalid value. Only valid dates are supported in mode \"latestDate\""
  | invalidMode => "Invalid mode. Only 'latestIncrementalKey' and 'latestDate' are supported."
  | incompatibleMode => "Deduplication data was originally saved with an incompatible setting of " ++
      "the ‘Keep Items Where’ parameter. Try ’Clean Database’ operation to reset."
  | notRemovable => "Removing processed data is not possible in mode \"latest\""

inductive Data (Digest : Type) where
  | latest (value : Option Item)
  | entries (hashes : List Digest)

structure ProcessedData (Digest : Type) where
  mode : Mode
  data : Data Digest

structure Output where
  new : List Item := []
  processed : List Item := []

variable {Host Digest : Type} (rt : Runtime Host)

def valueOf : Option Item → Value Host
  | none => .undefined
  | some (.string text) => .string text
  | some (.number value) => .number (.finite value)

section Comparing

/-- `Number(value)`, for an item. -/
def numberOf (item : Option Item) : JsNumber :=
  match (valueOf item).toNumber rt with
  | .ok number => number
  | .error _ => .nan

/-- The time that `tryToParseDateTime` finds. -/
def timeOf (item : Option Item) : Option ℤ :=
  match TypeValidation.tryToParseDateTime rt (valueOf item) with
  | .ok (.dateTime time) => time
  | _ => none

/-- Two dates are different objects even when they are the same time. -/
def compareValues (mode : Mode) (value1 value2 : Option Item) : Except Failure Ordering :=
  match mode with
  | .latestIncrementalKey =>
    let num1 := numberOf rt value1
    let num2 := numberOf rt value2
    if num1.isNaN || num2.isNaN then .error .invalidNumber
    else .ok (if num1.same num2 then .eq else if num2.less num1 then .gt else .lt)
  | .latestDate =>
    match timeOf rt value1, timeOf rt value2 with
    | some date1, some date2 => .ok (if date2 < date1 then .gt else .lt)
    | _, _ => .error .invalidDate
  | .entries => .error .invalidMode

def sortEntries (items : List Item) (mode : Mode) : Except Failure (List Item) :=
  if items.length ≤ 1 then .ok items
  else do
    items.forM fun item => (compareValues rt mode (some item) (some item)).map fun _ => ()
    return items.mergeSort fun a b => compareValues rt mode (some a) (some b) ≠ .ok .gt

end Comparing

section Recording

/-- One round over the sorted items. -/
def checkItem (mode : Mode) (stored : Option Item) (state : Output × Option Item) (item : Item) :
    Except Failure (Output × Option Item) := do
  let (returnData, largestValue) := state
  if (← compareValues rt mode (some item) stored) = .gt then
    let returnData := { returnData with new := returnData.new ++ [item] }
    if (← compareValues rt mode (some item) largestValue) = .gt then
      return (returnData, some item)
    else return (returnData, largestValue)
  else return ({ returnData with processed := returnData.processed ++ [item] }, largestValue)

def handleLatestModes (items : List Item) (mode : Mode) (processedData : Option (ProcessedData Digest)) :
    Except Failure (Output × ProcessedData Digest) := do
  let incomingItems ← sortEntries rt items mode
  match processedData with
  | none => return ({ new := items }, { mode, data := .latest incomingItems.getLast? })
  | some processedData =>
    match processedData.data with
    | .entries _ => return ({}, processedData)
    | .latest stored =>
      let (returnData, largestValue) ← incomingItems.foldlM (checkItem rt mode stored) ({}, stored)
      return (returnData, { processedData with data := .latest largestValue })

variable [DecidableEq Digest] (hash : String → Digest)

def textOf : Item → String
  | .string text => text
  | .number value => rt.numberToString (.finite value)

def createValueHash (item : Item) : Digest := hash (textOf rt item)

/-- The last entries, as many as are kept; 0 stands for no bound. -/
def keepLast {α : Type} (maxEntries : Option ℕ) (entries : List α) : List α :=
  match maxEntries with
  | none | some 0 => entries
  | some count => entries.drop (entries.length - count)

def handleHashedItems (items : List Item) (mode : Mode) (maxEntries : Option ℕ)
    (processedData : Option (ProcessedData Digest)) : Output × ProcessedData Digest :=
  match processedData with
  | none =>
    ({ new := items }, { mode, data := .entries (keepLast maxEntries (items.map (createValueHash rt hash))) })
  | some processedData =>
    match processedData.data with
    | .latest _ => ({}, processedData)
    | .entries data =>
      let known item := createValueHash rt hash item ∈ data
      let new := items.filter fun item => !known item
      ({ new, processed := items.filter fun item => known item }, { processedData with
          data := .entries (keepLast maxEntries (data ++ new.map (createValueHash rt hash))) })

def checkProcessedAndRecord (items : List Item) (mode : Mode) (maxEntries : Option ℕ)
    (processedData : Option (ProcessedData Digest)) :
    Except Failure (Output × ProcessedData Digest) :=
  if processedData.any fun data => data.mode ≠ mode then .error .incompatibleMode
  else if mode.isLatest then handleLatestModes rt items mode processedData
  else .ok (handleHashedItems rt hash items mode maxEntries processedData)

def removeProcessed (items : List Item) (mode : Mode) (processedData : Option (ProcessedData Digest)) :
    Except Failure (Option (ProcessedData Digest)) :=
  if mode.isLatest then .error .notRemovable
  else .ok (processedData.map fun processedData =>
    match processedData.data with
    | .latest _ => processedData
    | .entries data => { processedData with
        data := .entries ((items.map (createValueHash rt hash)).foldl List.erase data) })

/-- `clearAllProcessedItems` deletes what is stored. -/
def clearAllProcessedItems (_ : Option (ProcessedData Digest)) : Option (ProcessedData Digest) :=
  none

end Recording

end N8n.Deduplication
