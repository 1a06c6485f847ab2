import Mathlib.Data.Prod.Lex
import Mathlib.Logic.Relation
import N8n.PlainData

/-! The order in which the parameters of a node are resolved. A property whose dependencies are not
all resolved is put back on the queue, once for each of them, and all the same it is taken into the
order at once. The loop ends, since by the first round every name counts as resolved. -/

namespace N8n.NodeHelpers

open List Nat
open Option hiding or_assoc

structure INodeProperties where
  name : String
  displayOptions : Option (List (List String))
  deriving DecidableEq

abbrev IParameterDependencies := OrderedMap String (List String)

def isSpecial (parameterName : String) : Bool := parameterName.toList.head? = some '@'

def isRootLevel (dependency : String) : Bool := dependency.toList.head? = some '/'

/-! ## The dependencies -/

/-- `none` where the list is missing: a member of `Object.prototype` has no `includes`. -/
def addDependency (name : String) (dependencies : IParameterDependencies) (parameterName : String) :
    Option IParameterDependencies :=
  (dependencies.get name).map fun names =>
    if parameterName ∈ names then dependencies
    else if isSpecial parameterName then dependencies
    else dependencies.set name (names ++ [parameterName])

/-- An inherited member passes for the list, so none is made. -/
def ownList (dependencies : IParameterDependencies) (name : String) : IParameterDependencies :=
  if dependencies.has name ∨ name ∈ PlainData.objectPrototype then dependencies else dependencies.set name []

def addProperty (dependencies : IParameterDependencies) (nodeProperties : INodeProperties) :
    Option IParameterDependencies :=
  match nodeProperties.displayOptions with
  | none => some (ownList dependencies nodeProperties.name)
  | some displayOptions =>
    displayOptions.flatten.foldlM (addDependency nodeProperties.name) (ownList dependencies nodeProperties.name)

def getParameterDependencies (nodePropertiesArray : List INodeProperties) : Option IParameterDependencies :=
  nodePropertiesArray.foldlM addProperty .empty

/-- The members of `Object.prototype` whose `length` is zero: they pass for an empty list. -/
def parameterless : List String := ["toLocaleString", "toString", "valueOf"]

/-- `none` for what the loop cannot go through. -/
def dependenciesOf (dependencies : IParameterDependencies) (name : String) : Option (List String) :=
  match dependencies.get name with
  | some names => some names
  | none => if name ∈ parameterless then some [] else none

/-! ## The loop -/

inductive Failure where
  | userError
  | typeError
  deriving DecidableEq

structure ResolveState where
  indexToResolve : List ℕ
  executionOrder : List ℕ
  resolvedParameters : List String
  lastIndexLength : ℕ
  lastIndexReduction : ℤ
  iterations : ℕ

/-- The index goes back on the queue for every missing dependency. -/
def requeue (resolvedParameters : List String) (index : ℕ) (names : List String) (indexToResolve : List ℕ) :
    List ℕ :=
  names.foldl (fun indexToResolve dependency =>
    if dependency ∈ resolvedParameters then indexToResolve
    else if isRootLevel dependency then indexToResolve
    else indexToResolve ++ [index]) indexToResolve

def visit (nodePropertiesArray : List INodeProperties) (parameterDependencies : IParameterDependencies)
    (s : ResolveState) (index : ℕ) (rest : List ℕ) : Except Failure ResolveState :=
  match nodePropertiesArray[index]? with
  | none => .error .typeError
  | some property =>
    match dependenciesOf parameterDependencies property.name with
    | none => .error .typeError
    | some names =>
      let iterations := s.iterations + 1
      let executionOrder := s.executionOrder ++ [index]
      let resolvedParameters := s.resolvedParameters ++ [property.name]
      if names = [] then
        .ok { s with indexToResolve := rest, executionOrder, resolvedParameters, iterations }
      else
        let indexToResolve := requeue s.resolvedParameters index names rest
        let lastIndexReduction :=
          if indexToResolve.length < s.lastIndexLength then (iterations : ℤ) else s.lastIndexReduction
        if lastIndexReduction + nodePropertiesArray.length < iterations then .error .userError
        else .ok ⟨indexToResolve, executionOrder, resolvedParameters, indexToResolve.length,
          lastIndexReduction, iterations⟩

/-- `none` where the loop is still going after `fuel` iterations. -/
def resolve (nodePropertiesArray : List INodeProperties) (parameterDependencies : IParameterDependencies) :
    ℕ → ResolveState → Option (Except Failure (List ℕ))
  | 0, _ => none
  | fuel + 1, s =>
    match s.indexToResolve with
    | [] => some (.ok s.executionOrder)
    | index :: rest =>
      match visit nodePropertiesArray parameterDependencies s index rest with
      | .error failure => some (.error failure)
      | .ok next => resolve nodePropertiesArray parameterDependencies fuel next

def start (length : ℕ) : ResolveState := ⟨List.range length, [], [], length, -1, 0⟩

def getParameterResolveOrder (nodePropertiesArray : List INodeProperties) (fuel : ℕ) :
    Option (Except Failure (List ℕ)) :=
  match getParameterDependencies nodePropertiesArray with
  | none => some (.error .typeError)
  | some parameterDependencies =>
    resolve nodePropertiesArray parameterDependencies fuel (start nodePropertiesArray.length)

/-! ## What the dependencies of a name are -/

namespace INodeProperties

def parameterNames (p : INodeProperties) : List String := (p.displayOptions.getD []).flatten

def dependencies (p : INodeProperties) : List String := p.parameterNames.filter fun name => !isSpecial name

def sameLevel (p : INodeProperties) : List String := p.dependencies.filter fun name => !isRootLevel name

/-- Neither the name nor the rules meet a member of `Object.prototype` that is in the way. -/
def Readable (p : INodeProperties) : Prop :=
  p.name ∈ PlainData.objectPrototype → p.name ∈ parameterless ∧ p.parameterNames = []

instance (p : INodeProperties) : Decidable p.Readable := inferInstanceAs (Decidable (_ → _))

end INodeProperties

variable {nodePropertiesArray : List INodeProperties} {dependencies : IParameterDependencies} {name : String}
  {p : INodeProperties} {fuel : ℕ}

theorem addProperty_eq (dependencies : IParameterDependencies) (p : INodeProperties) :
    addProperty dependencies p = p.parameterNames.foldlM (addDependency p.name) (ownList dependencies p.name) := by
  rw [addProperty, INodeProperties.parameterNames]
  cases p.displayOptions <;> rfl

theorem get_addDependencies (parameterNames names : List String) (own : dependencies.get name = some names) :
    ∃ next all, parameterNames.foldlM (addDependency name) dependencies = some next ∧ next.get name = some all ∧
      (∀ dependency, dependency ∈ all ↔
        dependency ∈ names ∨ dependency ∈ parameterNames.filter fun name => !isSpecial name) ∧
      ∀ other, other ≠ name → next.get other = dependencies.get other := by
  induction parameterNames generalizing dependencies names with
  | nil => exact ⟨dependencies, names, rfl, own, by simp, fun _ _ => rfl⟩
  | cons parameterName rest ih =>
    by_cases skipped : parameterName ∈ names ∨ isSpecial parameterName = true
    · have stays : addDependency name dependencies parameterName = some dependencies := by
        rw [addDependency, own, map_some]
        split_ifs <;> simp_all
      obtain ⟨next, all, done, found, members, others⟩ := ih names own
      refine ⟨next, all, foldlM_cons_eq_some.mpr ⟨_, stays, done⟩, found, fun dependency => ?_, others⟩
      rw [members, filter_cons]
      rcases skipped with known | special
      · by_cases same : dependency = parameterName
        · simp [same, known]
        · split_ifs <;> simp [same]
      · rw [if_neg (by simp [special])]
    · obtain ⟨new, plain⟩ := not_or.mp skipped
      have added : addDependency name dependencies parameterName =
          some (dependencies.set name (names ++ [parameterName])) := by
        rw [addDependency, own, map_some, if_neg new, if_neg plain]
      obtain ⟨next, all, done, found, members, others⟩ := ih (names ++ [parameterName]) (dependencies.get_set_self _ _)
      refine ⟨next, all, foldlM_cons_eq_some.mpr ⟨_, added, done⟩, found, fun dependency => ?_,
        fun other different => (others other different).trans (dependencies.get_set_ne _ different)⟩
      rw [members, filter_cons, if_pos (by simpa using plain)]
      simp [or_assoc]

structure Shows (nodePropertiesArray : List INodeProperties) (dependencies : IParameterDependencies) : Prop where
  own : ∀ p ∈ nodePropertiesArray, p.name ∉ PlainData.objectPrototype → ∃ names, dependencies.get p.name = some names ∧
      ∀ dependency, dependency ∈ names ↔ ∃ q ∈ nodePropertiesArray, q.name = p.name ∧ dependency ∈ q.dependencies
  absent : ∀ name, name ∉ nodePropertiesArray.map INodeProperties.name ∨ name ∈ PlainData.objectPrototype →
    dependencies.get name = none

theorem Shows.append {next : IParameterDependencies} (shows_ : Shows nodePropertiesArray dependencies)
    (others : ∀ name, name ≠ p.name → next.get name = dependencies.get name)
    (own : p.name ∉ PlainData.objectPrototype → ∃ names, next.get p.name = some names ∧
      ∀ dependency, dependency ∈ names ↔
        ∃ q ∈ nodePropertiesArray ++ [p], q.name = p.name ∧ dependency ∈ q.dependencies)
    (absent : p.name ∈ PlainData.objectPrototype → next.get p.name = none) :
    Shows (nodePropertiesArray ++ [p]) next := by
  refine ⟨fun q member ordinary => ?_, fun name outside => ?_⟩
  · by_cases same : q.name = p.name
    · rw [same] at ordinary ⊢
      exact own ordinary
    · have earlier : q ∈ nodePropertiesArray := by
        refine (mem_append.mp member).elim id fun last => ?_
        exact (same (by rw [mem_singleton.mp last])).elim
      obtain ⟨names, found, collected⟩ := shows_.own q earlier ordinary
      refine ⟨names, (others _ same).trans found, fun dependency => ?_⟩
      rw [collected]
      simp [or_and_right, exists_or, Ne.symm same]
  · by_cases same : name = p.name
    · rw [same] at outside ⊢
      exact absent (outside.resolve_left fun outside => by simp at outside)
    · rw [others _ same]
      refine shows_.absent name (outside.imp_left fun outside => ?_)
      simp only [map_append, mem_append, not_or] at outside
      exact outside.1

theorem addProperty_inherited (inherited : p.name ∈ PlainData.objectPrototype)
    (absent : dependencies.get p.name = none) :
    addProperty dependencies p = if p.parameterNames = [] then some dependencies else none := by
  have same : ownList dependencies p.name = dependencies := by rw [ownList, if_pos (.inr inherited)]
  rw [addProperty_eq, same]
  cases p.parameterNames with
  | nil => rfl
  | cons parameterName rest =>
    rw [foldlM_cons, addDependency, absent]
    rfl

theorem addProperty_shows (shows_ : Shows nodePropertiesArray dependencies)
    (plain : p.name ∉ PlainData.objectPrototype) :
    ∃ next, addProperty dependencies p = some next ∧ Shows (nodePropertiesArray ++ [p]) next := by
  obtain ⟨names, own, collected⟩ : ∃ names, (ownList dependencies p.name).get p.name = some names ∧
      ∀ dependency, dependency ∈ names ↔ ∃ q ∈ nodePropertiesArray, q.name = p.name ∧ dependency ∈ q.dependencies := by
    by_cases known : ∃ q ∈ nodePropertiesArray, q.name = p.name
    · obtain ⟨q, member, same⟩ := known
      obtain ⟨names, found, collected⟩ := shows_.own q member (same ▸ plain)
      rw [same] at found collected
      exact ⟨names, by rw [ownList, if_pos (.inl (by simp [OrderedMap.has, found])), found], collected⟩
    · have absent := shows_.absent p.name (.inl (by simpa using known))
      refine ⟨[], by simp [ownList, OrderedMap.has, absent, plain], fun dependency => ?_⟩
      refine ⟨fun none => (not_mem_nil none).elim, ?_⟩
      rintro ⟨q, member, same, _⟩
      exact (known ⟨q, member, same⟩).elim
  have others : ∀ other, other ≠ p.name → (ownList dependencies p.name).get other = dependencies.get other := by
    intro other different
    rw [ownList]
    split_ifs
    · rfl
    · exact dependencies.get_set_ne _ different
  obtain ⟨next, all, done, found, members, rest⟩ := get_addDependencies p.parameterNames names own
  have combined : ∀ dependency, dependency ∈ all ↔
      ∃ q ∈ nodePropertiesArray ++ [p], q.name = p.name ∧ dependency ∈ q.dependencies := by
    intro dependency
    rw [members, collected, ← INodeProperties.dependencies]
    simp [or_and_right, exists_or]
  exact ⟨next, (addProperty_eq dependencies p).trans done, shows_.append
    (fun other different => (rest other different).trans (others other different))
    (fun _ => ⟨all, found, combined⟩) fun inherited => (plain inherited).elim⟩

/-- The dependencies are read when no rule is on a property with the name of an inherited member. -/
theorem getParameterDependencies_shows (nodePropertiesArray : List INodeProperties) :
    if ∀ p ∈ nodePropertiesArray, p.name ∈ PlainData.objectPrototype → p.parameterNames = [] then
      ∃ dependencies, getParameterDependencies nodePropertiesArray = some dependencies ∧
        Shows nodePropertiesArray dependencies
    else getParameterDependencies nodePropertiesArray = none := by
  induction nodePropertiesArray using List.reverseRecOn with
  | nil => exact ⟨.empty, rfl, by simp, fun name _ => rfl⟩
  | append_singleton earlier p ih =>
    have unfolded : getParameterDependencies (earlier ++ [p]) =
        (getParameterDependencies earlier).bind fun dependencies => addProperty dependencies p := by
      rw [getParameterDependencies, foldlM_append, ← getParameterDependencies]
      cases getParameterDependencies earlier with
      | none => rfl
      | some dependencies => simp
    by_cases clash : ∀ q ∈ earlier, q.name ∈ PlainData.objectPrototype → q.parameterNames = []
    · rw [if_pos clash] at ih
      obtain ⟨dependencies, done, shows_⟩ := ih
      rw [unfolded, done, bind_some]
      by_cases inherited : p.name ∈ PlainData.objectPrototype
      · rw [addProperty_inherited inherited (shows_.absent _ (.inr inherited))]
        by_cases bare : p.parameterNames = []
        · rw [if_pos (fun q member => (mem_append.mp member).elim (clash q)
            fun last _ => mem_singleton.mp last ▸ bare), if_pos bare]
          exact ⟨dependencies, rfl, shows_.append (fun _ _ => rfl) (fun plain => (plain inherited).elim)
            fun inherited => shows_.absent _ (.inr inherited)⟩
        · rw [if_neg (fun all => bare (all p (by simp) inherited)), if_neg bare]
      · obtain ⟨next, added, extended⟩ := addProperty_shows shows_ inherited
        rw [if_pos (fun q member => (mem_append.mp member).elim (clash q)
          fun last => mem_singleton.mp last ▸ fun there => (inherited there).elim)]
        exact ⟨next, added, extended⟩
    · rw [if_neg clash] at ih
      rw [if_neg (fun all => clash fun q member => all q (mem_append_left _ member)), unfolded, ih]
      rfl

/-! ## One iteration -/

def missing (resolvedParameters names : List String) : List String :=
  names.filter fun dependency => dependency ∉ resolvedParameters ∧ ¬isRootLevel dependency

theorem requeue_eq (resolvedParameters : List String) (index : ℕ) (names : List String) (indexToResolve : List ℕ) :
    requeue resolvedParameters index names indexToResolve =
      indexToResolve ++ List.replicate (missing resolvedParameters names).length index := by
  rw [requeue, missing]
  induction names generalizing indexToResolve with
  | nil => simp
  | cons dependency rest ih =>
    rw [foldl_cons, ih, filter_cons]
    by_cases resolved : dependency ∈ resolvedParameters
    · simp [resolved]
    · cases root : isRootLevel dependency <;> simp [resolved, replicate_succ]

variable {s next : ResolveState} {index k : ℕ} {rest : List ℕ} {property : INodeProperties} {names : List String}

theorem visit_unreadable (here : nodePropertiesArray[index]? = some property)
    (unreadable : dependenciesOf dependencies property.name = none) :
    visit nodePropertiesArray dependencies s index rest = .error .typeError := by
  simp only [visit, here, unreadable]

theorem visit_independent (here : nodePropertiesArray[index]? = some property)
    (none : dependenciesOf dependencies property.name = some []) :
    visit nodePropertiesArray dependencies s index rest = .ok { s with
        indexToResolve := rest
        executionOrder := s.executionOrder ++ [index]
        resolvedParameters := s.resolvedParameters ++ [property.name]
        iterations := s.iterations + 1 } := by
  simp only [visit, here, none, if_true]

/-- The queue and the last reduction after a property with dependencies. -/
def requeued (s : ResolveState) (index : ℕ) (names : List String) (rest : List ℕ) : List ℕ :=
  rest ++ List.replicate (missing s.resolvedParameters names).length index

def reductionAt (s : ResolveState) (length : ℕ) : ℤ :=
  if length < s.lastIndexLength then (s.iterations + 1 : ℕ) else s.lastIndexReduction

theorem visit_dependent (here : nodePropertiesArray[index]? = some property)
    (found : dependenciesOf dependencies property.name = some names) (some_ : names ≠ []) :
    visit nodePropertiesArray dependencies s index rest =
      let queue := requeued s index names rest
      if reductionAt s queue.length + nodePropertiesArray.length < (s.iterations + 1 : ℕ) then .error .userError
      else .ok ⟨queue, s.executionOrder ++ [index], s.resolvedParameters ++ [property.name], queue.length,
        reductionAt s queue.length, s.iterations + 1⟩ := by
  simp only [visit, here, found, if_neg some_, requeue_eq]
  rfl

/-! ## The first round takes the indexes as they come -/

/-- The first `k` properties have been visited; until all are, nothing is visited twice. -/
structure Visited (nodePropertiesArray : List INodeProperties) (dependencies : IParameterDependencies) (k : ℕ)
    (s : ResolveState) : Prop where
  count : k ≤ nodePropertiesArray.length
  queue : ∃ again, s.indexToResolve = List.range' k (nodePropertiesArray.length - k) ++ again ∧ ∀ i ∈ again, i < k
  order : ∃ again, s.executionOrder = List.range k ++ again ∧ (k < nodePropertiesArray.length → again = [])
  resolved : ∀ name, name ∈ s.resolvedParameters ↔ ∃ p ∈ nodePropertiesArray.take k, p.name = name
  readable : ∀ p ∈ nodePropertiesArray.take k, dependenciesOf dependencies p.name ≠ none
  iterations : k < nodePropertiesArray.length → s.iterations = k
  reduction : -1 ≤ s.lastIndexReduction
  length : s.indexToResolve.length ≤ s.lastIndexLength

theorem visited_start : Visited nodePropertiesArray dependencies 0 (start nodePropertiesArray.length) where
  count := zero_le _
  queue := ⟨[], by simp [start, range_eq_range'], by simp⟩
  order := ⟨[], rfl, fun _ => rfl⟩
  resolved := by simp [start]
  readable := by simp
  iterations _ := rfl
  reduction := by simp [start]
  length := by simp [start]

namespace Visited

section

variable (visited : Visited nodePropertiesArray dependencies k s) (queue : s.indexToResolve = index :: rest)
include visited queue

theorem head : index < nodePropertiesArray.length ∧
      if k < nodePropertiesArray.length then
        index = k ∧ ∃ again, rest = List.range' (k + 1) (nodePropertiesArray.length - (k + 1)) ++ again ∧ ∀ i ∈ again, i < k
      else ∀ i ∈ rest, i < k := by
  obtain ⟨again, split, before⟩ := visited.queue
  have count := visited.count
  rw [queue] at split
  by_cases first : k < nodePropertiesArray.length
  · have remaining : nodePropertiesArray.length - k = nodePropertiesArray.length - (k + 1) + 1 := by omega
    rw [remaining, range'_succ, cons_append] at split
    obtain ⟨rfl, rfl⟩ := List.cons.inj split
    rw [if_pos first]
    exact ⟨first, rfl, again, rfl, before⟩
  · have none : nodePropertiesArray.length - k = 0 := by omega
    rw [none, range'_zero, nil_append] at split
    subst split
    rw [if_neg first]
    exact ⟨(before index (by simp)).trans_le count, fun i member => before i (by simp [member])⟩

/-- The first `k + 1` of the properties, when one more has been visited. -/
theorem mem_take_succ (here : nodePropertiesArray[index]? = some property) (p : INodeProperties) :
    p ∈ nodePropertiesArray.take (min (k + 1) nodePropertiesArray.length) ↔
      p ∈ nodePropertiesArray.take k ∨ p = property := by
  obtain ⟨inside, position⟩ := visited.head queue
  split_ifs at position with first
  · obtain ⟨rfl, -⟩ := position
    rw [min_eq_left first, take_add_one, here]
    simp
  · have all : k = nodePropertiesArray.length := by have := visited.count; omega
    have known : property ∈ nodePropertiesArray := mem_of_getElem? here
    rw [Nat.min_eq_right (by omega), all, take_length]
    exact ⟨.inl, fun either => either.elim id fun same => same ▸ known⟩

theorem advance (here : nodePropertiesArray[index]? = some property)
    (readable : dependenciesOf dependencies property.name ≠ none) (again : ℕ)
    (requeued : next.indexToResolve = rest ++ List.replicate again index)
    (order : next.executionOrder = s.executionOrder ++ [index])
    (resolved : next.resolvedParameters = s.resolvedParameters ++ [property.name])
    (iterations : next.iterations = s.iterations + 1) (reduction : -1 ≤ next.lastIndexReduction)
    (length : next.indexToResolve.length ≤ next.lastIndexLength) :
    Visited nodePropertiesArray dependencies (min (k + 1) nodePropertiesArray.length) next where
  count := min_le_right _ _
  queue := by
    obtain ⟨inside, position⟩ := visited.head queue
    split_ifs at position with first
    · obtain ⟨rfl, before, split, earlier⟩ := position
      refine ⟨before ++ List.replicate again index, ?_, fun i member => ?_⟩
      · rw [requeued, split, min_eq_left first, append_assoc]
      · rw [min_eq_left first]
        rcases mem_append.mp member with old | new
        · exact lt_succ_of_lt (earlier i old)
        · exact (mem_replicate.mp new).2 ▸ lt_succ_self index
    · have all : k = nodePropertiesArray.length := by have := visited.count; omega
      refine ⟨rest ++ List.replicate again index, ?_, fun i member => ?_⟩
      · rw [requeued, Nat.min_eq_right (by omega), Nat.sub_self, range'_zero, nil_append]
      · rw [min_eq_right (by omega)]
        rcases mem_append.mp member with old | new
        · exact all ▸ position i old
        · exact (mem_replicate.mp new).2 ▸ inside
  order := by
    obtain ⟨again, split, none⟩ := visited.order
    obtain ⟨inside, position⟩ := visited.head queue
    rw [order, split]
    split_ifs at position with first
    · obtain ⟨rfl, -⟩ := position
      refine ⟨[], ?_, fun _ => rfl⟩
      rw [none first, min_eq_left first, append_nil, append_nil, range_succ]
    · have all : k = nodePropertiesArray.length := by have := visited.count; omega
      refine ⟨again ++ [index], ?_, fun more => ?_⟩
      · rw [min_eq_right (by omega), all, append_assoc]
      · omega
  resolved := by
    intro name
    rw [resolved, mem_append, visited.resolved, mem_singleton]
    simp only [visited.mem_take_succ queue here, or_and_right, exists_or, exists_eq_left]
    rw [eq_comm]
  readable := by
    intro p member
    rcases (visited.mem_take_succ queue here p).mp member with earlier | rfl
    · exact visited.readable p earlier
    · exact readable
  iterations := by
    intro more
    rw [iterations, visited.iterations (by omega)]
    omega
  reduction := reduction
  length := length

end

theorem missing_eq (visited : Visited nodePropertiesArray dependencies k s) (all : k = nodePropertiesArray.length)
    (names : List String) :
    missing s.resolvedParameters names = missing (nodePropertiesArray.map INodeProperties.name) names := by
  have known : ∀ name, name ∈ s.resolvedParameters ↔ name ∈ nodePropertiesArray.map INodeProperties.name := by
    intro name
    rw [visited.resolved, all, take_length, List.mem_map]
  simp only [missing, known]

end Visited

/-! ## The loop ends -/

def settled (nodePropertiesArray : List INodeProperties) (dependencies : IParameterDependencies) (index : ℕ) : Bool :=
  ((nodePropertiesArray[index]?).bind fun p => dependenciesOf dependencies p.name).elim true fun names =>
    missing (nodePropertiesArray.map INodeProperties.name) names = []

def budget (nodePropertiesArray : List INodeProperties) (dependencies : IParameterDependencies) (s : ResolveState) :
    ℕ ×ₗ ℕ ×ₗ ℕ :=
  toLex (s.indexToResolve.countP (settled nodePropertiesArray dependencies),
    toLex (s.lastIndexLength - s.indexToResolve.length,
      (s.lastIndexReduction + nodePropertiesArray.length - s.iterations).toNat))

inductive Visiting (nodePropertiesArray : List INodeProperties) (dependencies : IParameterDependencies) (k : ℕ)
    (s : ResolveState) : Except Failure ResolveState → Prop where
  | unreadable (p : INodeProperties) (member : p ∈ nodePropertiesArray)
      (unreadable : dependenciesOf dependencies p.name = none) :
    Visiting nodePropertiesArray dependencies k s (.error .typeError)
  | exhausted (readable : ∀ p ∈ nodePropertiesArray, dependenciesOf dependencies p.name ≠ none) :
    Visiting nodePropertiesArray dependencies k s (.error .userError)
  | visited (next : ResolveState)
      (visited : Visited nodePropertiesArray dependencies (min (k + 1) nodePropertiesArray.length) next)
    (less : k = nodePropertiesArray.length →
      budget nodePropertiesArray dependencies next < budget nodePropertiesArray dependencies s) :
    Visiting nodePropertiesArray dependencies k s (.ok next)

theorem Visited.visiting (visited : Visited nodePropertiesArray dependencies k s)
    (queue : s.indexToResolve = index :: rest) :
    Visiting nodePropertiesArray dependencies k s (visit nodePropertiesArray dependencies s index rest) := by
  obtain ⟨inside, -⟩ := visited.head queue
  obtain ⟨property, here⟩ : ∃ property, nodePropertiesArray[index]? = some property :=
    ⟨_, getElem?_eq_getElem inside⟩
  have known : property ∈ nodePropertiesArray := mem_of_getElem? here
  have reduced := visited.reduction
  have length := visited.length
  rw [queue, length_cons] at length
  cases found : dependenciesOf dependencies property.name with
  | none =>
    rw [visit_unreadable here found]
    exact .unreadable property known found
  | some names =>
    have readable : dependenciesOf dependencies property.name ≠ none := by simp [found]
    have isSettled : settled nodePropertiesArray dependencies index =
        decide (missing (nodePropertiesArray.map INodeProperties.name) names = []) := by
      simp [settled, here, found]
    by_cases empty : names = []
    · subst empty
      rw [visit_independent here found]
      refine .visited _ (visited.advance queue here readable 0 (by simp) rfl rfl rfl reduced (by dsimp only; omega))
        fun all => ?_
      refine Prod.Lex.lt_iff.mpr (.inl ?_)
      simp [budget, queue, isSettled, missing]
    · rw [visit_dependent here found empty]
      have longer : (requeued s index names rest).length =
          rest.length + (missing s.resolvedParameters names).length := by
        rw [requeued, length_append, length_replicate]
      have later : -1 ≤ reductionAt s (requeued s index names rest).length := by
        rw [reductionAt]
        split_ifs <;> omega
      dsimp only
      split_ifs with exhausted
      · refine .exhausted fun p member => ?_
        have round : min (k + 1) nodePropertiesArray.length = nodePropertiesArray.length := by
          have := visited.iterations
          omega
        have either := visited.mem_take_succ queue here p
        rw [round, take_length] at either
        rcases either.mp member with earlier | rfl
        · exact visited.readable p earlier
        · exact readable
      · refine .visited _ (visited.advance queue here readable _ rfl rfl rfl rfl later (le_refl _)) fun all => ?_
        by_cases none : missing s.resolvedParameters names = []
        · refine Prod.Lex.lt_iff.mpr (.inl ?_)
          rw [visited.missing_eq all] at none
          simp [budget, queue, requeued, isSettled, none, visited.missing_eq all]
        · have same : (requeued s index names rest).countP (settled nodePropertiesArray dependencies) =
              (index :: rest).countP (settled nodePropertiesArray dependencies) := by
            rw [visited.missing_eq all] at none
            simp [requeued, isSettled, none]
          have some_ : 0 < (missing s.resolvedParameters names).length := length_pos_iff.mpr none
          refine Prod.Lex.lt_iff.mpr (.inr ⟨by simpa [budget, queue] using same, ?_⟩)
          by_cases shorter : rest.length + 1 < s.lastIndexLength
          · refine Prod.Lex.lt_iff.mpr (.inl ?_)
            simp only [budget, ofLex_toLex, queue, length_cons]
            omega
          · refine Prod.Lex.lt_iff.mpr (.inr ?_)
            rw [reductionAt, if_neg (by omega)] at exhausted
            simp only [budget, ofLex_toLex, queue, length_cons, reductionAt]
            rw [if_neg (by omega)]
            omega

theorem resolve_visited (queue : s.indexToResolve = index :: rest)
    (done : visit nodePropertiesArray dependencies s index rest = .ok next) :
    resolve nodePropertiesArray dependencies (fuel + 1) s = resolve nodePropertiesArray dependencies fuel next := by
  simp only [resolve, queue, done]

theorem resolve_failed {failure : Failure} (queue : s.indexToResolve = index :: rest)
    (failed : visit nodePropertiesArray dependencies s index rest = .error failure) :
    resolve nodePropertiesArray dependencies (fuel + 1) s = some (.error failure) := by
  simp only [resolve, queue, failed]

theorem Visited.ends (readable : ∀ p ∈ nodePropertiesArray, dependenciesOf dependencies p.name ≠ none)
    {k : ℕ} {s : ResolveState} (visited : Visited nodePropertiesArray dependencies k s) :
    ∃ fuel outcome, resolve nodePropertiesArray dependencies fuel s = some outcome ∧ outcome ≠ .error .typeError := by
  cases queue : s.indexToResolve with
  | nil => exact ⟨1, _, by rw [resolve, queue], by simp⟩
  | cons index rest =>
    have visiting := visited.visiting queue
    cases done : visit nodePropertiesArray dependencies s index rest with
    | error failure =>
      rw [done] at visiting
      refine ⟨1, _, resolve_failed queue done, ?_⟩
      cases visiting with
      | unreadable p member unreadable => exact (readable p member unreadable).elim
      | exhausted => simp
    | ok next =>
      rw [done] at visiting
      cases visiting with
      | visited _ further less =>
        obtain ⟨fuel, outcome, ends, proper⟩ := further.ends readable
        exact ⟨fuel + 1, outcome, by rw [resolve_visited queue done, ends], proper⟩
termination_by (nodePropertiesArray.length - k, budget nodePropertiesArray dependencies s)
decreasing_by
  by_cases all : k = nodePropertiesArray.length
  · rw [Nat.min_eq_right (by omega), ← all]
    exact Prod.Lex.right _ (less all)
  · have := visited.count
    exact Prod.Lex.left _ _ (by omega)

theorem Visited.order_prefix (visited : Visited nodePropertiesArray dependencies k s)
    {outcome : Except Failure (List ℕ)} (ends : resolve nodePropertiesArray dependencies fuel s = some outcome)
    (proper : outcome ≠ .error .typeError) :
    (∀ p ∈ nodePropertiesArray, dependenciesOf dependencies p.name ≠ none) ∧
      ∀ order, outcome = .ok order → List.range nodePropertiesArray.length <+: order := by
  induction fuel generalizing k s with
  | zero => simp [resolve] at ends
  | succ fuel ih =>
    cases queue : s.indexToResolve with
    | nil =>
      simp only [resolve, queue, some.injEq] at ends
      have all : k = nodePropertiesArray.length := by
        obtain ⟨again, split, -⟩ := visited.queue
        have empty := congrArg List.length (queue.symm.trans split)
        rw [length_append, length_range'] at empty
        have := visited.count
        simp only [length_nil] at empty
        omega
      refine ⟨fun p member => visited.readable p (by rwa [all, take_length]), fun order same => ?_⟩
      obtain ⟨again, split, -⟩ := visited.order
      obtain rfl : s.executionOrder = order := Except.ok.inj (ends.trans same)
      exact ⟨again, by rw [split, all]⟩
    | cons index rest =>
      have visiting := visited.visiting queue
      cases done : visit nodePropertiesArray dependencies s index rest with
      | error failure =>
        rw [resolve_failed queue done, some.injEq] at ends
        rw [done] at visiting
        subst ends
        cases visiting with
        | unreadable => exact (proper rfl).elim
        | exhausted readable => exact ⟨readable, by simp⟩
      | ok next =>
        rw [done] at visiting
        cases visiting with
        | visited _ further => exact ih further (by rw [← resolve_visited queue done, ends])

/-! ## Properties that stand in the order of their dependencies -/

def DependsOn (nodePropertiesArray : List INodeProperties) (i j : ℕ) : Prop :=
  ∃ p q, nodePropertiesArray[i]? = some p ∧ nodePropertiesArray[j]? = some q ∧ q.name ∈ p.sameLevel

structure Sortable (nodePropertiesArray : List INodeProperties) : Prop where
  distinct : (nodePropertiesArray.map INodeProperties.name).Nodup
  known : ∀ p ∈ nodePropertiesArray, ∀ name ∈ p.sameLevel, name ∈ nodePropertiesArray.map INodeProperties.name
  acyclic : ∀ i, ¬Relation.TransGen (DependsOn nodePropertiesArray) i i

structure SortedBy (nodePropertiesArray : List INodeProperties) (order : List ℕ) : Prop where
  perm : order.Perm (List.range nodePropertiesArray.length)
  sorted : ∀ i j, DependsOn nodePropertiesArray i j → order.idxOf j < order.idxOf i

def Ends (nodePropertiesArray : List INodeProperties) (outcome : Except Failure (List ℕ)) : Prop :=
  ∃ fuel, getParameterResolveOrder nodePropertiesArray fuel = some outcome

/-- Where the dependencies can be followed the order follows them, and the loop ends in any case. -/
structure Resolves (nodePropertiesArray : List INodeProperties) : Prop where
  sorts : Sortable nodePropertiesArray → ∃ order, Ends nodePropertiesArray (.ok order) ∧
    SortedBy nodePropertiesArray order
  ends : ∃ outcome, Ends nodePropertiesArray outcome ∧ outcome ≠ .error .typeError

structure InOrder (nodePropertiesArray : List INodeProperties) (k : ℕ) (s : ResolveState) : Prop where
  queue : s.indexToResolve = List.range' k (nodePropertiesArray.length - k)
  order : s.executionOrder = List.range k
  resolved : s.resolvedParameters = (nodePropertiesArray.take k).map INodeProperties.name
  iterations : s.iterations = k
  reduction : -1 ≤ s.lastIndexReduction
  length : nodePropertiesArray.length - k ≤ s.lastIndexLength

theorem InOrder.ends (count : k ≤ nodePropertiesArray.length) (earlier : ∀ i (inside : i < nodePropertiesArray.length),
      ∃ names, dependenciesOf dependencies nodePropertiesArray[i].name = some names ∧
        missing ((nodePropertiesArray.take i).map INodeProperties.name) names = [])
    (inOrder : InOrder nodePropertiesArray k s) :
    ∃ fuel, resolve nodePropertiesArray dependencies fuel s = some (.ok (List.range nodePropertiesArray.length)) := by
  induction remaining : nodePropertiesArray.length - k generalizing k s with
  | zero =>
    have queue := inOrder.queue
    rw [remaining, range'_zero] at queue
    refine ⟨1, ?_⟩
    simp only [resolve, queue, inOrder.order]
    rw [show k = nodePropertiesArray.length by omega]
  | succ more ih =>
    have inside : k < nodePropertiesArray.length := by omega
    have queue := inOrder.queue
    rw [remaining, range'_succ] at queue
    have here := getElem?_eq_getElem inside
    have order : s.executionOrder ++ [k] = List.range (k + 1) := by rw [inOrder.order, range_succ]
    have resolved : s.resolvedParameters ++ [nodePropertiesArray[k].name] =
        (nodePropertiesArray.take (k + 1)).map INodeProperties.name := by
      rw [inOrder.resolved, take_add_one, here, map_append]
      rfl
    have rest : List.range' (k + 1) more = List.range' (k + 1) (nodePropertiesArray.length - (k + 1)) := by
      rw [show nodePropertiesArray.length - (k + 1) = more by omega]
    have iterations := inOrder.iterations
    have length := inOrder.length
    have reduction := inOrder.reduction
    obtain ⟨names, found, complete⟩ := earlier k inside
    by_cases empty : names = []
    · subst empty
      obtain ⟨fuel, done⟩ := ih (s := { s with
          indexToResolve := List.range' (k + 1) more, executionOrder := s.executionOrder ++ [k],
          resolvedParameters := s.resolvedParameters ++ [nodePropertiesArray[k].name],
          iterations := s.iterations + 1 }) inside
        ⟨rest, order, resolved, congrArg (· + 1) iterations, reduction, by dsimp only; omega⟩ (by omega)
      exact ⟨fuel + 1, (resolve_visited queue (visit_independent here found)).trans done⟩
    · have queued : requeued s k names (List.range' (k + 1) more) = List.range' (k + 1) more := by
        rw [requeued, inOrder.resolved, complete]
        simp
      have reduced : reductionAt s more = (s.iterations + 1 : ℕ) := by rw [reductionAt, if_pos (by omega)]
      have visited : visit nodePropertiesArray dependencies s k (List.range' (k + 1) more) = _ :=
        visit_dependent here found empty
      simp only [queued, length_range', reduced] at visited
      rw [if_neg (by omega)] at visited
      have further : InOrder nodePropertiesArray (k + 1) ⟨List.range' (k + 1) more, s.executionOrder ++ [k],
          s.resolvedParameters ++ [nodePropertiesArray[k].name], more, (s.iterations + 1 : ℕ), s.iterations + 1⟩ :=
        ⟨rest, order, resolved, congrArg (· + 1) iterations, by dsimp only; omega, by dsimp only; omega⟩
      obtain ⟨fuel, done⟩ := ih inside further (by omega)
      exact ⟨fuel + 1, (resolve_visited queue visited).trans done⟩

/-! ## When the order is right -/

theorem dependenciesOf_inherited (shows_ : Shows nodePropertiesArray dependencies)
    (inherited : name ∈ PlainData.objectPrototype) :
    dependenciesOf dependencies name = if name ∈ parameterless then some [] else none := by
  rw [dependenciesOf, shows_.absent name (.inr inherited)]

/-- The loop can be gone through to its end exactly when all properties are readable. -/
theorem ends_proper_iff : (∃ outcome, Ends nodePropertiesArray outcome ∧ outcome ≠ .error .typeError) ↔
    ∀ p ∈ nodePropertiesArray, p.Readable := by
  have clash := getParameterDependencies_shows nodePropertiesArray
  split_ifs at clash with bare
  · obtain ⟨dependencies, done, shows_⟩ := clash
    have readable_iff : ∀ p ∈ nodePropertiesArray, dependenciesOf dependencies p.name ≠ none ↔ p.Readable := by
      intro p member
      by_cases inherited : p.name ∈ PlainData.objectPrototype
      · rw [dependenciesOf_inherited shows_ inherited, INodeProperties.Readable]
        simp [inherited, bare p member inherited]
      · obtain ⟨names, found, -⟩ := shows_.own p member inherited
        simp [dependenciesOf, found, INodeProperties.Readable, inherited]
    have unfolded : ∀ fuel, getParameterResolveOrder nodePropertiesArray fuel =
        resolve nodePropertiesArray dependencies fuel (start nodePropertiesArray.length) := by
      intro fuel
      rw [getParameterResolveOrder, done]
    constructor
    · rintro ⟨outcome, ⟨fuel, ends⟩, proper⟩ p member
      rw [unfolded] at ends
      exact (readable_iff p member).mp ((visited_start.order_prefix ends proper).1 p member)
    · intro readable
      obtain ⟨fuel, outcome, ends, proper⟩ :=
        visited_start.ends fun p member => (readable_iff p member).mpr (readable p member)
      exact ⟨outcome, ⟨fuel, by rw [unfolded, ends]⟩, proper⟩
  · constructor
    · rintro ⟨outcome, ⟨fuel, ends⟩, proper⟩
      rw [getParameterResolveOrder, clash] at ends
      exact (proper (some.inj ends).symm).elim
    · intro readable
      exact (bare fun p member inherited => (readable p member inherited).2).elim

theorem Ends.range_prefix {order : List ℕ} (ends : Ends nodePropertiesArray (.ok order)) :
    List.range nodePropertiesArray.length <+: order := by
  obtain ⟨fuel, ends⟩ := ends
  rw [getParameterResolveOrder] at ends
  cases done : getParameterDependencies nodePropertiesArray with
  | none =>
    rw [done] at ends
    cases ends
  | some dependencies =>
    rw [done] at ends
    exact (visited_start.order_prefix ends (by simp)).2 order rfl

theorem sortedBy_range : SortedBy nodePropertiesArray (List.range nodePropertiesArray.length) ↔
    ∀ i j, DependsOn nodePropertiesArray i j → j < i := by
  have place : ∀ i p, nodePropertiesArray[i]? = some p → (List.range nodePropertiesArray.length).idxOf i = i := by
    intro i p here
    have inside : i < (List.range nodePropertiesArray.length).length := by
      rw [length_range]
      exact (List.getElem?_eq_some_iff.mp here).1
    have self := nodup_range.idxOf_getElem i inside
    rwa [getElem_range] at self
  constructor
  · intro sorted i j depends
    have before := sorted.sorted i j depends
    obtain ⟨p, q, here, there, -⟩ := depends
    rwa [place i p here, place j q there] at before
  · intro earlier
    refine ⟨Perm.refl _, fun i j depends => ?_⟩
    have before := earlier i j depends
    obtain ⟨p, q, here, there, -⟩ := depends
    rwa [place i p here, place j q there]

theorem ends_range (readable : ∀ p ∈ nodePropertiesArray, p.Readable) (sortable : Sortable nodePropertiesArray)
    (earlier : ∀ i j, DependsOn nodePropertiesArray i j → j < i) :
    Ends nodePropertiesArray (.ok (List.range nodePropertiesArray.length)) := by
  have clash := getParameterDependencies_shows nodePropertiesArray
  rw [if_pos fun p member inherited => (readable p member inherited).2] at clash
  obtain ⟨dependencies, done, shows_⟩ := clash
  have complete : ∀ i (inside : i < nodePropertiesArray.length),
      ∃ names, dependenciesOf dependencies nodePropertiesArray[i].name = some names ∧
        missing ((nodePropertiesArray.take i).map INodeProperties.name) names = [] := by
    intro i inside
    have member : nodePropertiesArray[i] ∈ nodePropertiesArray := getElem_mem inside
    by_cases inherited : nodePropertiesArray[i].name ∈ PlainData.objectPrototype
    · refine ⟨[], ?_, rfl⟩
      rw [dependenciesOf_inherited shows_ inherited, if_pos (readable _ member inherited).1]
    · obtain ⟨names, found, collected⟩ := shows_.own _ member inherited
      refine ⟨names, by rw [dependenciesOf, found], filter_eq_nil_iff.mpr fun name listed absent => ?_⟩
      obtain ⟨q, there, same, depended⟩ := (collected name).mp listed
      obtain rfl : q = nodePropertiesArray[i] := inj_on_of_nodup_map sortable.distinct there member same
      simp only [decide_eq_true_eq, Bool.not_eq_true] at absent
      have sameLevel : name ∈ nodePropertiesArray[i].sameLevel :=
        mem_filter.mpr ⟨depended, by simp [absent.2]⟩
      obtain ⟨r, known, named⟩ := List.mem_map.mp (sortable.known _ member name sameLevel)
      obtain ⟨j, inside_j, rfl⟩ := getElem_of_mem known
      have before := earlier i j ⟨_, _, getElem?_eq_getElem inside, getElem?_eq_getElem inside_j,
        named.symm ▸ sameLevel⟩
      refine absent.1 (List.mem_map.mpr ⟨nodePropertiesArray[j], ?_, named⟩)
      exact mem_take_iff_getElem.mpr ⟨j, by omega, rfl⟩
  obtain ⟨fuel, ends⟩ := InOrder.ends (zero_le _) complete
    (s := start nodePropertiesArray.length) ⟨by simp [start, range_eq_range'], rfl, rfl, rfl, by simp [start],
      by simp [start]⟩
  exact ⟨fuel, by rw [getParameterResolveOrder, done]; exact ends⟩

/-- The order is right, and the loop ends, exactly when no name is that of an inherited member in the way and a
list that can be sorted stands in the order of its dependencies already. -/
theorem resolves_iff (nodePropertiesArray : List INodeProperties) : Resolves nodePropertiesArray ↔
    (∀ p ∈ nodePropertiesArray, p.Readable) ∧
      (Sortable nodePropertiesArray → ∀ i j, DependsOn nodePropertiesArray i j → j < i) := by
  constructor
  · intro resolves
    refine ⟨ends_proper_iff.mp resolves.ends, fun sortable => ?_⟩
    obtain ⟨order, ends, sorted⟩ := resolves.sorts sortable
    have same : List.range nodePropertiesArray.length = order :=
      ends.range_prefix.eq_of_length sorted.perm.length_eq.symm
    exact sortedBy_range.mp (same ▸ sorted)
  · rintro ⟨readable, earlier⟩
    exact ⟨fun sortable => ⟨_, ends_range readable sortable (earlier sortable), sortedBy_range.mpr (earlier sortable)⟩,
      ends_proper_iff.mpr readable⟩

/-- A property before the one it depends on is taken too early, and a second time later. -/
theorem dependent_first : ¬Resolves [⟨"mode", some [["resource"]]⟩, ⟨"resource", none⟩] := by
  intro resolves
  have depends : ∀ i j, DependsOn [⟨"mode", some [["resource"]]⟩, ⟨"resource", none⟩] i j → i = 0 ∧ j = 1 := by
    rintro i j ⟨p, q, here, there, named⟩
    match i, j with
    | 0, 0 => cases here; cases there; exact absurd named (by decide)
    | 0, 1 => exact ⟨rfl, rfl⟩
    | 0, j + 2 => simp at there
    | 1, _ => cases here; exact absurd named (by simp [INodeProperties.sameLevel, INodeProperties.dependencies,
        INodeProperties.parameterNames])
    | i + 2, _ => simp at here
  have acyclic : ∀ i, ¬Relation.TransGen (DependsOn [⟨"mode", some [["resource"]]⟩, ⟨"resource", none⟩]) i i := by
    intro i around
    obtain ⟨j, first, back⟩ := Relation.TransGen.head'_iff.mp around
    obtain ⟨rfl, rfl⟩ := depends i j first
    rcases back.cases_head with same | ⟨next, second, -⟩
    · cases same
    · cases (depends 1 next second).1
  obtain ⟨order, ends, sorted⟩ := resolves.sorts ⟨by decide, by decide, acyclic⟩
  have same : List.range 2 = order := ends.range_prefix.eq_of_length sorted.perm.length_eq.symm
  have earlier := sortedBy_range.mp (same ▸ sorted) 0 1 ⟨_, _, rfl, rfl, by decide⟩
  cases earlier

end N8n.NodeHelpers
