import Mathlib.Data.List.Count
import Mathlib.Data.List.Perm.Basic
import Mathlib.Data.Set.Function
import N8n.Deduplication
import N8n.FilterParameter

/-! The entries mode as a set: what a history of calls in one scope knows, from an empty store. -/

namespace N8n.Deduplication

open Js List

inductive Call where
  | check (items : List Item)
  | remove (items : List Item)
  | clear

def Call.items : Call → List Item
  | check items | remove items => items
  | clear => []

section Knowing

/-- The call takes the value out of the set. -/
def Call.Drops (item : Item) : Call → Prop
  | check _ => False
  | remove items => item ∈ items
  | clear => True

def Known (calls : List Call) (item : Item) : Prop :=
  ∃ before items after, calls = before ++ .check items :: after ∧ item ∈ items ∧ ∀ call ∈ after, ¬ call.Drops item

@[simp] theorem not_known_nil (item : Item) : ¬ Known [] item := by
  rintro ⟨before, items, after, split, -⟩
  simp at split

theorem known_append {calls : List Call} {call : Call} {item : Item} : Known (calls ++ [call]) item ↔
      (∃ items, call = .check items ∧ item ∈ items) ∨ (Known calls item ∧ ¬ call.Drops item) := by
  constructor
  · rintro ⟨before, items, after, split, passed, kept⟩
    rcases eq_nil_or_concat after with rfl | ⟨after, last, rfl⟩
    · obtain ⟨-, same⟩ := append_inj' split rfl
      exact .inl ⟨items, (cons.inj same).1, passed⟩
    · have split' : calls ++ [call] = (before ++ .check items :: after) ++ [last] := by
        simpa using split
      obtain ⟨front, same⟩ := append_inj' split' rfl
      obtain ⟨rfl, -⟩ := cons.inj same
      exact .inr ⟨⟨before, items, after, front, passed, fun other listed =>
        kept other (by simp [listed])⟩, kept call (by simp)⟩
  · rintro (⟨items, rfl, passed⟩ | ⟨⟨before, items, after, rfl, passed, kept⟩, stays⟩)
    · exact ⟨calls, items, [], rfl, passed, by simp⟩
    · refine ⟨before, items, after ++ [call], by simp, passed, fun other listed => ?_⟩
      rcases mem_append.mp listed with old | new
      · exact kept other old
      · exact mem_singleton.mp new ▸ stays

def intact (calls : List Call) : Bool :=
  calls.foldl (fun whole call => match call with
    | .check _ => whole
    | .remove _ => false
    | .clear => true) true

end Knowing

section Running

variable {Host Digest : Type} (rt : Runtime Host) [DecidableEq Digest] (hash : String → Digest)

/-- What is stored, and beside it what was recorded and neither removed nor cleared since. -/
structure State (Digest : Type) where
  processedData : Option (ProcessedData Digest) := none
  recorded : List Digest := []

def entriesOf : Option (ProcessedData Digest) → List Digest
  | some { data := .entries hashes, .. } => hashes
  | _ => []

def State.entries (state : State Digest) : List Digest := entriesOf state.processedData

def step (maxEntries : Option ℕ) (state : State Digest) : Call → Except Failure (State Digest)
  | .check items => do
    let (output, processedData) ← checkProcessedAndRecord rt hash items .entries maxEntries state.processedData
    return {
      processedData := some processedData
      recorded := state.recorded ++ output.new.map (createValueHash rt hash) }
  | .remove items => do
    let processedData ← removeProcessed rt hash items .entries state.processedData
    return {
      processedData
      recorded := state.recorded.filter (· ∉ items.map (createValueHash rt hash)) }
  | .clear => return { processedData := clearAllProcessedItems state.processedData }

def run (maxEntries : Option ℕ) (calls : List Call) : Except Failure (State Digest) :=
  calls.foldlM (step rt hash maxEntries) {}

def Knows (state : State Digest) (calls : List Call) (used : Set Item) : Prop :=
  ∀ items : List Item, (∀ item ∈ items, item ∈ used) → ∃ output processedData,
      checkProcessedAndRecord rt hash items .entries none state.processedData = .ok (output, processedData) ∧
      (∀ item ∈ items, item ∈ output.processed ↔ Known calls item) ∧
      ∀ item ∈ items, item ∈ output.new ↔ ¬ Known calls item

def IsSet (used : Set Item) (calls : List Call) : Prop :=
  ∀ before, before <+: calls → ∃ state, run rt hash none before = .ok state ∧ Knows rt hash state before used

/-- The store never holds more entries than it is to keep. -/
def IsBounded (count : ℕ) (calls : List Call) : Prop :=
  ∀ before, before <+: calls → ∃ state, run rt hash (some count) before = .ok state ∧ state.entries.length ≤ count

/-- The entries are the latest recorded ones, and as many as are to be kept while none is
removed. -/
def KeepsLatest (count : ℕ) (calls : List Call) : Prop :=
  ∀ before, before <+: calls → ∃ state, run rt hash (some count) before = .ok state ∧ state.entries <:+ state.recorded ∧
    (intact before = true → state.entries = keepLast (some count) state.recorded)

def Names (entries : List Digest) (items : List Item) : Prop :=
  ∀ item ∈ items, entries.count (createValueHash rt hash item) ≤
    (items.map (createValueHash rt hash)).count (createValueHash rt hash item)

def NamesAll (maxEntries : Option ℕ) (calls : List Call) : Prop :=
  ∀ before items, before ++ [.remove items] <+: calls →
    ∀ state, run rt hash maxEntries before = .ok state → Names rt hash state.entries items

end Running

section Stores

variable {Host Digest : Type} {rt : Runtime Host} [DecidableEq Digest] {hash : String → Digest}
variable {maxEntries : Option ℕ}

def Stores (processedData : Option (ProcessedData Digest)) (entries : List Digest) : Prop :=
  (processedData = none ∧ entries = []) ∨ processedData = some { mode := .entries, data := .entries entries }

variable {processedData : Option (ProcessedData Digest)} {entries : List Digest}

omit [DecidableEq Digest] in
theorem Stores.entriesOf_eq (stores : Stores processedData entries) : entriesOf processedData = entries := by
  rcases stores with ⟨rfl, rfl⟩ | rfl <;> rfl

theorem check_stores (stores : Stores processedData entries) (items : List Item) :
    checkProcessedAndRecord rt hash items .entries maxEntries processedData = .ok ({
        new := items.filter fun item => createValueHash rt hash item ∉ entries
        processed := items.filter fun item => createValueHash rt hash item ∈ entries },
        { mode := .entries
          data := .entries (keepLast maxEntries (entries ++
            (items.filter fun item => createValueHash rt hash item ∉ entries).map (createValueHash rt hash))) }) := by
  rcases stores with ⟨rfl, rfl⟩ | rfl
  · simp [checkProcessedAndRecord, Mode.isLatest, handleHashedItems]
  · simp [checkProcessedAndRecord, Mode.isLatest, handleHashedItems]

variable (rt hash) in
theorem remove_stores (stores : Stores processedData entries) (items : List Item) :
    ∃ processedData', removeProcessed rt hash items .entries processedData = .ok processedData' ∧
      Stores processedData' (entries.diff (items.map (createValueHash rt hash))) := by
  rw [diff_eq_foldl]
  rcases stores with ⟨rfl, rfl⟩ | rfl
  · refine ⟨none, rfl, .inl ⟨rfl, ?_⟩⟩
    rw [← diff_eq_foldl, nil_diff]
  · exact ⟨_, rfl, .inr rfl⟩

end Stores

section Keeping

variable {α : Type} {count : ℕ}

theorem keepLast_suffix (maxEntries : Option ℕ) (entries : List α) : keepLast maxEntries entries <:+ entries := by
  unfold keepLast
  split
  · exact suffix_rfl
  · exact suffix_rfl
  · exact drop_suffix ..

theorem keepLast_length (pos : 0 < count) (entries : List α) :
    (keepLast (some count) entries).length = min entries.length count := by
  match count with
  | 0 => omega
  | count + 1 =>
    simp only [keepLast, length_drop]
    omega

theorem suffix_append {entries recorded : List α} (suffix : entries <:+ recorded)
    (new : List α) : entries ++ new <:+ recorded ++ new := by
  obtain ⟨front, rfl⟩ := suffix
  exact ⟨front, by simp⟩

/-- Entries that were cut off earlier are not among the last ones. -/
theorem keepLast_append (pos : 0 < count) (recorded new : List α) :
    keepLast (some count) (keepLast (some count) recorded ++ new) = keepLast (some count) (recorded ++ new) := by
  have inner := (keepLast_suffix (some count) (keepLast (some count) recorded ++ new)).trans
    (suffix_append (keepLast_suffix (some count) recorded) new)
  have outer := keepLast_suffix (some count) (recorded ++ new)
  have length : (keepLast (some count) (keepLast (some count) recorded ++ new)).length =
      (keepLast (some count) (recorded ++ new)).length := by
    simp only [keepLast_length pos, length_append]
    omega
  exact (suffix_of_suffix_length_le inner outer length.le).eq_of_length length

variable [DecidableEq α]

theorem diff_eq_filter {entries names : List α} (all : ∀ name ∈ names, entries.count name ≤ names.count name) :
    entries.diff names = entries.filter (· ∉ names) := by
  have gone : ∀ entry ∈ entries.diff names, entry ∉ names := by
    intro entry stays named
    have left := count_pos_iff.mpr stays
    rw [count_diff] at left
    have few := all entry named
    omega
  have sub : (entries.diff names).Sublist (entries.filter (· ∉ names)) := by
    have filtered := (diff_sublist entries names).filter (· ∉ names)
    rwa [filter_eq_self.mpr fun entry stays => decide_eq_true (gone entry stays)] at filtered
  refine sub.eq_of_length (Perm.length_eq ?_)
  rw [perm_iff_count]
  intro entry
  by_cases named : entry ∈ names
  · rw [count_eq_zero.mpr fun stays => gone entry stays named,
      count_eq_zero.mpr fun stays => by simp [named] at stays]
  · rw [count_diff, count_eq_zero.mpr named, count_filter (by simpa using named)]
    omega

end Keeping

section Contents

variable {Host Digest : Type} (rt : Runtime Host) [DecidableEq Digest] (hash : String → Digest)
variable (maxEntries : Option ℕ)

def next (contents : List Digest × List Digest) : Call → List Digest × List Digest
  | .check items =>
    let new := (items.map (createValueHash rt hash)).filter (· ∉ contents.1)
    (keepLast maxEntries (contents.1 ++ new), contents.2 ++ new)
  | .remove items =>
    let names := items.map (createValueHash rt hash)
    (contents.1.diff names, contents.2.filter (· ∉ names))
  | .clear => ([], [])

def contents (calls : List Call) : List Digest × List Digest :=
  calls.foldl (next rt hash maxEntries) ([], [])

variable {rt hash maxEntries}

theorem contents_append (calls : List Call) (call : Call) : contents rt hash maxEntries (calls ++ [call]) =
      next rt hash maxEntries (contents rt hash maxEntries calls) call := by
  simp [contents]

variable (rt hash maxEntries) in
theorem step_next {state : State Digest} (stores : Stores state.processedData state.entries) (call : Call) :
    ∃ state', step rt hash maxEntries state call = .ok state' ∧ Stores state'.processedData state'.entries ∧
      (state'.entries, state'.recorded) =
        next rt hash maxEntries (state.entries, state.recorded) call := by
  cases call with
  | check items =>
    have mapped : (items.map (createValueHash rt hash)).filter (· ∉ state.entries) =
        (items.filter fun item => createValueHash rt hash item ∉ state.entries).map (createValueHash rt hash) := by
      rw [filter_map]
      rfl
    rw [step, check_stores stores, next, mapped]
    exact ⟨_, rfl, .inr rfl, rfl⟩
  | remove items =>
    obtain ⟨processedData, removed, stores'⟩ :=
      remove_stores rt hash stores items
    rw [step, removed]
    refine ⟨_, rfl, ?_, ?_⟩
    · rwa [State.entries, stores'.entriesOf_eq]
    · rw [State.entries, stores'.entriesOf_eq, next]
  | clear => exact ⟨_, rfl, .inl ⟨rfl, rfl⟩, rfl⟩

variable (rt hash maxEntries) in
theorem run_contents (calls : List Call) : ∃ state, run rt hash maxEntries calls = .ok state ∧
      Stores state.processedData state.entries ∧
      state.entries = (contents rt hash maxEntries calls).1 ∧
      state.recorded = (contents rt hash maxEntries calls).2 := by
  induction calls using List.reverseRecOn with
  | nil => exact ⟨{}, rfl, .inl ⟨rfl, rfl⟩, rfl, rfl⟩
  | append_singleton calls call ih =>
    obtain ⟨state, ran, stores, entries, recorded⟩ := ih
    obtain ⟨state', stepped, stores', same'⟩ := step_next rt hash maxEntries stores call
    have after : contents rt hash maxEntries (calls ++ [call]) = (state'.entries, state'.recorded) := by
      rw [contents_append, same', entries, recorded]
    refine ⟨state', ?_, stores', by rw [after], by rw [after]⟩
    rw [run, foldlM_append, ← run, ran]
    simp [bind, Except.bind, stepped, pure, Except.pure]

variable {calls : List Call} {items : List Item} {count : ℕ}

theorem namesAll_iff : NamesAll rt hash maxEntries calls ↔ ∀ before items, before ++ [.remove items] <+: calls →
      Names rt hash (contents rt hash maxEntries before).1 items := by
  refine forall_congr' fun before => forall_congr' fun items => imp_congr_right fun _ => ?_
  obtain ⟨state, ran, -, same, -⟩ := run_contents rt hash _ before
  rw [← same]
  constructor
  · intro each
    exact each state ran
  · intro named other ran'
    rw [ran] at ran'
    cases ran'
    exact named

theorem NamesAll.before {before : List Call} (all : NamesAll rt hash maxEntries calls)
    (earlier : before <+: calls) : NamesAll rt hash maxEntries before :=
  fun front items part => all front items (part.trans earlier)

theorem NamesAll.last (all : NamesAll rt hash maxEntries (calls ++ [.remove items])) :
    Names rt hash (contents rt hash maxEntries calls).1 items :=
  namesAll_iff.mp all calls items prefix_rfl

theorem diff_names {entries : List Digest} (names : Names rt hash entries items) :
    entries.diff (items.map (createValueHash rt hash)) = entries.filter (· ∉ items.map (createValueHash rt hash)) := by
  refine diff_eq_filter fun name named => ?_
  obtain ⟨item, listed, rfl⟩ := List.mem_map.mp named
  exact names item listed

theorem contents_suffix (all : NamesAll rt hash maxEntries calls) :
    (contents rt hash maxEntries calls).1 <:+ (contents rt hash maxEntries calls).2 := by
  induction calls using List.reverseRecOn with
  | nil => exact suffix_rfl
  | append_singleton calls call ih =>
    have earlier := ih (all.before (prefix_append calls [call]))
    rw [contents_append]
    cases call with
    | check items => exact (keepLast_suffix _ _).trans (suffix_append earlier _)
    | remove items =>
      rw [next, diff_names all.last]
      exact earlier.filter _
    | clear => exact suffix_rfl

theorem contents_unbounded (all : NamesAll rt hash none calls) :
    (contents rt hash none calls).1 = (contents rt hash none calls).2 := by
  induction calls using List.reverseRecOn with
  | nil => rfl
  | append_singleton calls call ih =>
    have earlier := ih (all.before (prefix_append calls [call]))
    rw [contents_append]
    cases call with
    | check items => simp only [next, keepLast, earlier]
    | remove items =>
      rw [next, diff_names all.last, earlier]
    | clear => rfl

theorem contents_length (pos : 0 < count) (calls : List Call) :
    (contents rt hash (some count) calls).1.length ≤ count := by
  induction calls using List.reverseRecOn with
  | nil => simp [contents]
  | append_singleton calls call ih =>
    rw [contents_append]
    cases call with
    | check items =>
      rw [next, keepLast_length pos]
      omega
    | remove items => exact (diff_sublist _ _).length_le.trans ih
    | clear => simp [next]

theorem contents_intact (pos : 0 < count) (whole : intact calls = true) :
    (contents rt hash (some count) calls).1 = keepLast (some count) (contents rt hash (some count) calls).2 := by
  induction calls using List.reverseRecOn with
  | nil =>
    match count with
    | _ + 1 => simp [contents, keepLast]
  | append_singleton calls call ih =>
    rw [intact, foldl_append, ← intact] at whole
    rw [contents_append]
    cases call with
    | check items =>
      have earlier := ih whole
      simp only [next]
      rw [earlier, keepLast_append pos, ← earlier]
    | remove items => cases whole
    | clear =>
      match count with
      | _ + 1 => simp [next, keepLast]

theorem mem_recorded_iff {used : Set Item} (inj : used.InjOn (createValueHash rt hash))
    (within : ∀ call ∈ calls, ∀ item ∈ call.items, item ∈ used)
    (all : NamesAll rt hash none calls) {item : Item} (isUsed : item ∈ used) :
    createValueHash rt hash item ∈ (contents rt hash none calls).2 ↔ Known calls item := by
  induction calls using List.reverseRecOn with
  | nil => simp [contents]
  | append_singleton calls call ih =>
    have earlier := all.before (prefix_append calls [call])
    have known := ih (fun other listed => within other (by simp [listed])) earlier
    have hashed : createValueHash rt hash item ∈ call.items.map (createValueHash rt hash) ↔ item ∈ call.items := by
      constructor
      · intro listed
        obtain ⟨other, member, same⟩ := List.mem_map.mp listed
        rwa [← inj (within call (by simp) other member) isUsed same]
      · exact mem_map_of_mem
    rw [contents_append, known_append, ← known]
    cases call with
    | check items =>
      rw [next, contents_unbounded earlier]
      simp only [mem_append, mem_filter, decide_eq_true_eq]
      rw [show items.map _ = (Call.check items).items.map _ from rfl, hashed]
      simp [Call.Drops, Call.items]
      tauto
    | remove items =>
      rw [next, mem_filter, decide_eq_true_eq]
      rw [show items.map _ = (Call.remove items).items.map _ from rfl, hashed]
      simp [Call.Drops, Call.items]
    | clear => simp [next, Call.Drops]

end Contents

section Set

variable {Host Digest : Type} {rt : Runtime Host} [DecidableEq Digest] {hash : String → Digest} {calls : List Call}
  {state : State Digest} {used : Set Item}

theorem names_of_gone {entries : List Digest} {items : List Item} (gone : ∀ item ∈ items, createValueHash rt hash item ∉
      entries.diff (items.map (createValueHash rt hash))) : Names rt hash entries items := by
  intro item listed
  have absent := count_eq_zero.mpr (gone item listed)
  rw [count_diff] at absent
  omega

theorem knows_of_contents (stores : Stores state.processedData state.entries)
    (known : ∀ item ∈ used, createValueHash rt hash item ∈ state.entries ↔ Known calls item) :
    Knows rt hash state calls used := by
  intro items within
  refine ⟨_, _, check_stores stores items, fun item listed => ?_, fun item listed => ?_⟩
  · rw [← known item (within item listed)]
    simp [listed]
  · rw [← known item (within item listed)]
    simp [listed]

theorem contents_of_knows (stores : Stores state.processedData state.entries) (knows : Knows rt hash state calls used)
    {item : Item} (isUsed : item ∈ used) : createValueHash rt hash item ∈ state.entries ↔ Known calls item := by
  obtain ⟨output, processedData, checked, processed, -⟩ := knows [item] (by simpa using isUsed)
  rw [check_stores stores] at checked
  cases checked
  rw [← processed item (by simp)]
  simp

/-- The entries mode is a set in the histories whose removals name each value as often as the store
holds it, and only in these. With a bound the store is in any case not larger than it. -/
theorem isSet_iff {used : Set Item} (inj : used.InjOn (createValueHash rt hash))
    {calls : List Call} (within : ∀ call ∈ calls, ∀ item ∈ call.items, item ∈ used) :
    (IsSet rt hash used calls ↔ NamesAll rt hash none calls) ∧
    ∀ count, 0 < count → IsBounded rt hash count calls ∧
      (KeepsLatest rt hash count calls ↔ NamesAll rt hash (some count) calls) := by
  refine ⟨⟨fun isSet => ?_, fun all before earlier => ?_⟩, fun count pos => ⟨?_, ?_, ?_⟩⟩
  · refine namesAll_iff.mpr fun before items earlier => names_of_gone fun item listed stays => ?_
    obtain ⟨state, ran, knows⟩ := isSet _ earlier
    obtain ⟨state', ran', stores, entries, -⟩ :=
      run_contents rt hash _ (before ++ [.remove items])
    rw [ran] at ran'
    cases ran'
    have isUsed : item ∈ used :=
      within (.remove items) (earlier.subset (by simp)) item listed
    have known := (contents_of_knows stores knows isUsed).mp (by
      rw [entries, contents_append]
      exact stays)
    rw [known_append] at known
    simp [Call.Drops, listed] at known
  · obtain ⟨state, ran, stores, entries, -⟩ := run_contents rt hash _ before
    have counted := all.before earlier
    refine ⟨state, ran, knows_of_contents stores fun item isUsed => ?_⟩
    rw [entries, contents_unbounded counted]
    exact mem_recorded_iff inj (fun call listed => within call (earlier.subset listed)) counted isUsed
  · intro before _
    obtain ⟨state, ran, -, entries, recorded⟩ := run_contents rt hash _ before
    refine ⟨state, ran, ?_⟩
    rw [entries]
    exact contents_length pos before
  · intro keeps
    refine namesAll_iff.mpr fun before items earlier => names_of_gone fun item listed stays => ?_
    obtain ⟨state, ran, suffix, -⟩ := keeps _ earlier
    obtain ⟨state', ran', -, entries, recorded⟩ :=
      run_contents rt hash _ (before ++ [.remove items])
    rw [ran] at ran'
    cases ran'
    rw [entries, recorded, contents_append] at suffix
    have left := suffix.subset stays
    rw [next, mem_filter, decide_eq_true_eq] at left
    exact left.2 (mem_map_of_mem listed)
  · intro all before earlier
    obtain ⟨state, ran, -, entries, recorded⟩ := run_contents rt hash _ before
    refine ⟨state, ran, ?_, fun whole => ?_⟩
    · rw [entries, recorded]
      exact contents_suffix (all.before earlier)
    · rw [entries, recorded]
      exact contents_intact pos whole

open FilterParameter in
theorem injOn_strings : {item | ∃ text, item = .string text}.InjOn (createValueHash plainRuntime id) := by
  rintro _ ⟨text, rfl⟩ _ ⟨text', rfl⟩ same
  exact congrArg Item.string same

/-- A value removed by its name, and checked once more beside a new one. -/
theorem isSet_texts : (IsSet FilterParameter.plainRuntime id {item | ∃ text, item = .string text}
      [.check [.string "a"], .remove [.string "a"], .check [.string "b", .string "a"]] ↔
        NamesAll FilterParameter.plainRuntime id none
          [.check [.string "a"], .remove [.string "a"], .check [.string "b", .string "a"]]) ∧
    ∀ count, 0 < count → IsBounded FilterParameter.plainRuntime id count
        [.check [.string "a"], .remove [.string "a"], .check [.string "b", .string "a"]] ∧
      (KeepsLatest FilterParameter.plainRuntime id count
        [.check [.string "a"], .remove [.string "a"], .check [.string "b", .string "a"]] ↔
        NamesAll FilterParameter.plainRuntime id (some count)
          [.check [.string "a"], .remove [.string "a"], .check [.string "b", .string "a"]]) :=
  isSet_iff injOn_strings (by simp [Call.items])

/-- A value that a batch repeats is stored twice, and its removal takes out one of the two. -/
theorem not_isSet_repeated : {item | ∃ text, item = Item.string text}.InjOn
      (createValueHash FilterParameter.plainRuntime id) ∧
    ¬ IsSet FilterParameter.plainRuntime id {item | ∃ text, item = .string text}
      [.check [.string "a", .string "a"], .remove [.string "a"]] := by
  refine ⟨injOn_strings, fun isSet => ?_⟩
  obtain ⟨state, ran, knows⟩ := isSet _ prefix_rfl
  have stored : run FilterParameter.plainRuntime id none [.check [.string "a", .string "a"], .remove [.string "a"]] =
        .ok { processedData := some { mode := .entries, data := .entries ["a"] } } := rfl
  rw [stored] at ran
  cases ran
  have known := (contents_of_knows (.inr rfl) knows (show .string "a" ∈ _ from ⟨_, rfl⟩)).mp (by
    simp [State.entries, entriesOf, createValueHash, textOf])
  rw [← singleton_append, known_append] at known
  simp [Call.Drops] at known

end Set

end N8n.Deduplication
