import Mathlib.Data.List.Pairwise
import N8n.OrderedMultimap
import N8n.SemanticGraphNodes

/-! What a semantic graph holds of the connections of a workflow. -/

namespace N8n.Codegen

open List Option OrderedMap

section Names

/-- Names of outputs that can stand beside the generic ones. -/
structure Plain (names : List String) : Prop where
  distinct : names.Nodup
  fresh : ∀ name ∈ names, name ≠ "error" ∧ ∀ index : ℕ, name ≠ s!"output{index}"

theorem ne_of_head {one other : String} (heads : one.toList.head? ≠ other.toList.head?) :
    one ≠ other := fun same => heads (same ▸ rfl)

theorem head_numbered {text : String} (nonempty : text.toList ≠ []) (index : ℕ) :
    s!"{text}{index}".toList.head? = text.toList.head? := by
  rw [String.toList_append]
  exact head?_append_of_ne_nil _ nonempty

theorem output_ne_numbered (index : ℕ) : "output" ≠ s!"output{index}" := by
  intro same
  have chars := congrArg String.toList same
  rw [String.toList_append] at chars
  have digits : (toString index).toList = [] := self_eq_append_right.mp chars
  rw [Nat.toString_eq_repr, Nat.toList_repr] at digits
  exact Nat.toDigits_ne_nil digits

theorem head_output (index : ℕ) : s!"output{index}".toList.head? = some 'o' :=
  head_numbered (by decide) index

theorem head_case (index : ℕ) : s!"case{index}".toList.head? = some 'c' :=
  head_numbered (by decide) index

theorem output_ne_error (index : ℕ) : s!"output{index}" ≠ "error" :=
  ne_of_head (by rw [head_output]; decide)

theorem plain_switch (node : NodeJSON) : Plain (switchOutputs node) where
  distinct := by
    rw [switchOutputs, nodup_append]
    refine ⟨?_, nodup_singleton _, ?_⟩
    · exact nodup_range.map fun i j same => append_toString_injective _ same
    · rintro _ listed _ fallback
      obtain ⟨i, -, rfl⟩ := List.mem_map.mp listed
      rw [mem_singleton.mp fallback]
      exact ne_of_head (by rw [head_case]; decide)
  fresh := by
    intro name listed
    rcases mem_append.mp listed with case_ | fallback
    · obtain ⟨i, -, rfl⟩ := List.mem_map.mp case_
      exact ⟨ne_of_head (by rw [head_case]; decide),
        fun index => ne_of_head (by rw [head_case, head_output]; decide)⟩
    · rw [mem_singleton.mp fallback]
      exact ⟨by decide, fun index => ne_of_head (by rw [head_output]; decide)⟩

variable {names : List String} {type : String}

theorem plain_of_heads (distinct : names.Nodup) (noError : "error" ∉ names)
    (heads : ∀ name ∈ names, name.toList.head? ≠ some 'o') : Plain names where
  distinct := distinct
  fresh name listed := ⟨fun same => noError (same ▸ listed),
    fun index => ne_of_head (by rw [head_output]; exact heads name listed)⟩

theorem plain_of_semantics {semantics : NodeSemantics} (known : nodeSemantics type = some semantics) (node : NodeJSON) :
    Plain (semantics.outputs node) := by
  unfold nodeSemantics at known
  split at known
  · cases known
    have plain : Plain ["trueBranch", "falseBranch"] :=
      plain_of_heads (by decide) (by decide) (by decide)
    exact plain
  · cases known
    exact plain_switch node
  · cases known
    refine ⟨nodup_singleton _, fun name listed => ?_⟩
    rw [mem_singleton.mp listed]
    exact ⟨by decide, output_ne_numbered⟩
  · cases known
    have plain : Plain ["done", "loop"] := plain_of_heads (by decide) (by decide) (by decide)
    exact plain
  · cases known

def plainName (names : List String) (index : ℕ) : String := names[index]?.getD s!"output{index}"

theorem Plain.name_ne_error (plain : Plain names) (index : ℕ) : plainName names index ≠ "error" := by
  rw [plainName]
  cases found : names[index]? with
  | none => exact output_ne_error index
  | some name => exact (plain.fresh name (mem_of_getElem? found)).1

theorem Plain.injective (plain : Plain names) : Function.Injective (plainName names) := by
  intro i j same
  rw [plainName, plainName] at same
  cases one : names[i]? with
  | none =>
    cases other : names[j]? with
    | none =>
      rw [one, other] at same
      exact append_toString_injective _ same
    | some name =>
      rw [one, other] at same
      exact absurd same.symm ((plain.fresh name (mem_of_getElem? other)).2 i)
  | some name =>
    cases other : names[j]? with
    | none =>
      rw [one, other] at same
      exact absurd same ((plain.fresh name (mem_of_getElem? one)).2 j)
    | some name' =>
      rw [one, other] at same
      obtain rfl : name = name' := same
      exact (getElem?_inj (List.getElem?_eq_some_iff.mp one).1 plain.distinct).mp (one.trans other.symm)

theorem getOutputName_eq (type : String) (node : NodeJSON) : ∃ names, Plain names ∧
    ∀ index, getOutputName type index node =
      if hasErrorOutput node ∧ index = getErrorOutputIndex type node then "error"
      else plainName names index := by
  cases known : nodeSemantics type with
  | none =>
    refine ⟨[], ⟨nodup_nil, by simp⟩, fun index => ?_⟩
    rw [getOutputName, known]
    rfl
  | some semantics =>
    refine ⟨semantics.outputs node, plain_of_semantics known node, fun index => ?_⟩
    rw [getOutputName, known]
    rfl

theorem getOutputName_injective (type : String) (node : NodeJSON) :
    Function.Injective fun index => getOutputName type index node := by
  obtain ⟨names, plain, name_eq⟩ := getOutputName_eq type node
  intro i j same
  simp only [name_eq] at same
  split_ifs at same with one other other
  · exact one.2.trans other.2.symm
  · exact absurd same.symm (plain.name_ne_error j)
  · exact absurd same (plain.name_ne_error i)
  · exact plain.injective same

theorem getOutputName_eq_error {node : NodeJSON} {index : ℕ} : getOutputName type index node = "error" ↔
      hasErrorOutput node = true ∧ index = getErrorOutputIndex type node := by
  obtain ⟨names, plain, name_eq⟩ := getOutputName_eq type node
  rw [name_eq]
  split_ifs with error
  · exact ⟨fun _ => error, fun _ => rfl⟩
  · exact ⟨fun same => absurd same (plain.name_ne_error index), fun error' => absurd error' error⟩

end Names

section Views

variable (nodes : Nodes) (key : String)

def info : Option (String × NodeJSON) :=
  (nodes.get key).map fun node => (node.type, node.json)

def outputsOf : OrderedMap String (List SemanticConnection) :=
  ((nodes.get key).map SemanticNode.outputs).getD .empty

def inputsOf : OrderedMap String (List SourceInfo) :=
  ((nodes.get key).map SemanticNode.inputSources).getD .empty

def subnodesOf : List SubnodeConnection := ((nodes.get key).map SemanticNode.subnodes).getD []

def resolve (target : Target) : Option SemanticConnection :=
  (info nodes target.node).map fun (type, json) =>
    { target := target.node, targetInputSlot := getInputName type target.index json }

end Views

section Parse

variable {nodes : Nodes}

theorem get_modify (name : String) (change : SemanticNode → SemanticNode) (key : String) :
    (modify nodes name change).get key =
      if key = name then (nodes.get key).map change else nodes.get key := by
  rw [modify]
  cases found : nodes.get name with
  | none =>
    split_ifs with same
    · rw [same, found]
      rfl
    · rfl
  | some node =>
    rw [get_set]
    split_ifs with same
    · rw [same, found]
      rfl
    · rfl

theorem info_modify {change : SemanticNode → SemanticNode}
    (keeps : ∀ node, (change node).type = node.type ∧ (change node).json = node.json)
    (name : String) : info (modify nodes name change) = info nodes := by
  funext key
  rw [info, info, get_modify]
  split_ifs
  · cases nodes.get key with
    | none => rfl
    | some node => simp [keeps node]
  · rfl

theorem resolve_congr {nodes' : Nodes} (same : info nodes' = info nodes) : resolve nodes' = resolve nodes := by
  funext target
  rw [resolve, resolve, same]

structure ParsesTargets (sourceName outputSlot : String) (targets : List Target)
    (state state' : Nodes × List SemanticConnection) : Prop where
  infos : info state'.1 = info state.1
  outputs : outputsOf state'.1 = outputsOf state.1
  subnodes : subnodesOf state'.1 = subnodesOf state.1
  collected : state'.2 = state.2 ++ targets.filterMap (resolve state.1)
  inputs : ∀ key, (inputsOf state'.1 key).flatten.Perm ((inputsOf state.1 key).flatten ++
    (targets.filter fun target => target.node = key).filterMap fun target =>
      (resolve state.1 target).map fun connection =>
        (connection.targetInputSlot, { from_ := sourceName, outputSlot }))

theorem parseTarget_spec (sourceName outputSlot : String) (state : Nodes × List SemanticConnection) (target : Target) :
    ParsesTargets sourceName outputSlot [target] state (parseTarget sourceName outputSlot state target) := by
  rw [parseTarget]
  cases found : state.1.get target.node with
  | none =>
    have unresolved : resolve state.1 target = none := by simp [resolve, info, found]
    refine ⟨rfl, rfl, rfl, by simp [unresolved], fun key => ?_⟩
    by_cases same : target.node = key
    · simp [same, unresolved]
    · simp [same]
  | some targetNode =>
    have resolved : resolve state.1 target = some
        { target := target.node
          targetInputSlot := getInputName targetNode.type target.index targetNode.json } := by
      simp [resolve, info, found]
    dsimp only
    refine ⟨?_, ?_, ?_, by simp [resolved], fun key => ?_⟩
    · refine info_modify (fun node => ?_) _
      exact ⟨rfl, rfl⟩
    · funext key
      simp only [outputsOf, get_modify]
      split_ifs
      · cases state.1.get key <;> rfl
      · rfl
    · funext key
      simp only [subnodesOf, get_modify]
      split_ifs
      · cases state.1.get key <;> rfl
      · rfl
    · simp only [inputsOf, get_modify]
      by_cases same : target.node = key
      · subst same
        simp only [if_true, found, map_some, getD_some, addSource, decide_true,
          filter_cons_of_pos, filter_nil, filterMap_cons, resolved,
          filterMap_nil]
        exact flatten_push _ _ _
      · simp [same, Ne.symm same]

theorem ParsesTargets.append {sourceName outputSlot : String} {first second : List Target}
    {state middle state' : Nodes × List SemanticConnection}
    (one : ParsesTargets sourceName outputSlot first state middle)
    (two : ParsesTargets sourceName outputSlot second middle state') :
    ParsesTargets sourceName outputSlot (first ++ second) state state' where
  infos := two.infos.trans one.infos
  outputs := two.outputs.trans one.outputs
  subnodes := two.subnodes.trans one.subnodes
  collected := by
    rw [two.collected, one.collected, resolve_congr one.infos, filterMap_append, append_assoc]
  inputs key := by
    have later := two.inputs key
    rw [resolve_congr one.infos] at later
    refine later.trans ((Perm.append_right _ (one.inputs key)).trans ?_)
    rw [filter_append, filterMap_append, append_assoc]

theorem parseTargets_spec (sourceName outputSlot : String) (targets : List Target)
    (state : Nodes × List SemanticConnection) :
    ParsesTargets sourceName outputSlot targets state (targets.foldl (parseTarget sourceName outputSlot) state) := by
  induction targets generalizing state with
  | nil => exact ⟨rfl, rfl, rfl, by simp, fun key => by simp⟩
  | cons target targets ih => exact (parseTarget_spec sourceName outputSlot state target).append (ih _)

end Parse

section Links

inductive Origin where
  | main (index : ℕ)
  | error

structure Link where
  source : String
  origin : Origin
  target : Target

def linksOfType (source : String) (entry : String × Outputs) : List Link :=
  if entry.1 = "main" then
    entry.2.zipIdx.flatMap fun output =>
      (output.1.getD []).map fun target => { source, origin := .main output.2, target }
  else if entry.1 = "error" then
    (entry.2.flatMap fun targets => targets.getD []).map fun target =>
      { source, origin := .error, target }
  else []

def attachedOfType (source : String) (entry : String × Outputs) : List (String × String) :=
  if entry.1 ∈ AI_CONNECTION_TYPES then
    (entry.2.flatMap fun targets => targets.getD []).map fun target => (source, target.node)
  else []

variable (base : Nodes)

def outputName (source : String) : Origin → String
  | .main index => ((info base source).map fun (type, json) => getOutputName type index json).getD ""
  | .error => "error"

def writeOf (name : String) (targets : List Target) : List (String × List SemanticConnection) :=
  if targets.filterMap (resolve base) = [] then [] else [(name, targets.filterMap (resolve base))]

def writesOfType (source : String) (entry : String × Outputs) (key : String) :
    List (String × List SemanticConnection) :=
  if key ≠ source ∨ info base source = none then []
  else if entry.1 = "main" then
    entry.2.zipIdx.flatMap fun output =>
      writeOf base (outputName base source (.main output.2)) (output.1.getD [])
  else if entry.1 = "error" then
    writeOf base "error" (entry.2.flatMap fun targets => targets.getD [])
  else []

def arrival (link : Link) : Option (String × SourceInfo) :=
  if info base link.source = none then none
  else (resolve base link.target).map fun connection =>
    (connection.targetInputSlot, { from_ := link.source, outputSlot := outputName base link.source link.origin })

def received (key : String) (links : List Link) : List (String × SourceInfo) :=
  (links.filter fun link => link.target.node = key).filterMap (arrival base)

end Links

section Steps

variable {base : Nodes} {sourceName : String}

structure Parses (base : Nodes) (links : List Link)
    (writes : String → List (String × List SemanticConnection)) (attached : List (String × String))
    (nodes nodes' : Nodes) : Prop where
  infos : info nodes' = info nodes
  outputs : ∀ key, outputsOf nodes' key = (outputsOf nodes key).write (writes key)
  inputs : ∀ key, (inputsOf nodes' key).flatten.Perm ((inputsOf nodes key).flatten ++ received base key links)
  subnodes : ∀ key, ∀ subnode ∈ subnodesOf nodes' key,
    subnode ∈ subnodesOf nodes key ∨ (subnode.subnodeName, key) ∈ attached

theorem Parses.refl (base nodes : Nodes) : Parses base [] (fun _ => []) [] nodes nodes where
  infos := rfl
  outputs key := rfl
  inputs key := by simp [received]
  subnodes key subnode := .inl

variable {nodes : Nodes}

theorem Parses.append {links links' : List Link} {writes writes' : String → List (String × List SemanticConnection)}
    {attached attached' : List (String × String)} {middle nodes' : Nodes}
    (one : Parses base links writes attached nodes middle)
    (two : Parses base links' writes' attached' middle nodes') :
    Parses base (links ++ links') (fun key => writes key ++ writes' key) (attached ++ attached') nodes nodes' where
  infos := two.infos.trans one.infos
  outputs key := by
    rw [two.outputs, one.outputs, OrderedMap.write, OrderedMap.write, OrderedMap.write, foldl_append]
  inputs key := by
    refine (two.inputs key).trans ((Perm.append_right _ (one.inputs key)).trans ?_)
    rw [received, received, received, filter_append, filterMap_append, append_assoc]
  subnodes key subnode listed := by
    rw [mem_append]
    rcases two.subnodes key subnode listed with old | new
    · rcases one.subnodes key subnode old with older | new
      · exact .inl older
      · exact .inr (.inl new)
    · exact .inr (.inr new)

theorem Parses.foldl {α : Type} {links : α → List Link} {writes : α → String → List (String × List SemanticConnection)}
    {attached : α → List (String × String)} {step : Nodes → α → Nodes}
    (each : ∀ nodes x, info nodes = info base → Parses base (links x) (writes x) (attached x) nodes (step nodes x))
    (xs : List α) (same : info nodes = info base) :
    Parses base (xs.flatMap links) (fun key => xs.flatMap fun x => writes x key)
      (xs.flatMap attached) nodes (xs.foldl step nodes) := by
  induction xs generalizing nodes with
  | nil => exact .refl base nodes
  | cons x xs ih =>
    have first := each nodes x same
    exact first.append (ih (first.infos.trans same))

variable {type : String × NodeJSON}

theorem outputsOf_setOutput (known : info nodes sourceName = some type) (name : String)
    (connections : List SemanticConnection) (key : String) :
    outputsOf (setOutput nodes sourceName name connections) key =
      if key = sourceName then
        (outputsOf nodes key).write (if connections = [] then [] else [(name, connections)])
      else outputsOf nodes key := by
  rw [setOutput]
  by_cases none_ : connections = []
  · simp [none_, OrderedMap.write]
  · rw [if_neg none_, if_neg none_, outputsOf, get_modify]
    split_ifs with same
    · subst same
      obtain ⟨node, found, -⟩ := map_eq_some_iff.mp known
      simp [outputsOf, found, OrderedMap.write]
    · rfl

theorem setOutput_keeps (nodes : Nodes) (sourceName name : String) (connections : List SemanticConnection) :
    info (setOutput nodes sourceName name connections) = info nodes ∧
      inputsOf (setOutput nodes sourceName name connections) = inputsOf nodes ∧
      subnodesOf (setOutput nodes sourceName name connections) = subnodesOf nodes := by
  rw [setOutput]
  split_ifs
  · exact ⟨rfl, rfl, rfl⟩
  · refine ⟨?_, ?_, ?_⟩
    · refine info_modify (fun node => ?_) _
      exact ⟨rfl, rfl⟩
    · funext key
      simp only [inputsOf, get_modify]
      split_ifs
      · cases nodes.get key <;> rfl
      · rfl
    · funext key
      simp only [subnodesOf, get_modify]
      split_ifs
      · cases nodes.get key <;> rfl
      · rfl

theorem parseOutput_spec (same : info nodes = info base) (known : info base sourceName = some type) (origin : Origin)
    (targets : List Target) :
    Parses base (targets.map fun target => { source := sourceName, origin, target })
      (fun key => if key = sourceName then
        writeOf base (outputName base sourceName origin) targets else []) [] nodes
      (setOutput (targets.foldl (parseTarget sourceName (outputName base sourceName origin)) (nodes, [])).1
        sourceName (outputName base sourceName origin)
        (targets.foldl (parseTarget sourceName (outputName base sourceName origin)) (nodes, [])).2) := by
  have parsed := parseTargets_spec sourceName (outputName base sourceName origin) targets (nodes, [])
  generalize targets.foldl (parseTarget sourceName (outputName base sourceName origin)) (nodes, []) = state at parsed ⊢
  have collected := parsed.collected
  rw [nil_append, resolve_congr same] at collected
  have known' : info state.1 sourceName = some type := by
    rw [parsed.infos]
    exact (congrFun same sourceName).trans known
  obtain ⟨infos, inputs, subnodes⟩ := setOutput_keeps state.1 sourceName (outputName base sourceName origin) state.2
  refine ⟨infos.trans parsed.infos, fun key => ?_, fun key => ?_, fun key subnode listed => ?_⟩
  · rw [outputsOf_setOutput known', parsed.outputs, collected]
    by_cases here : key = sourceName
    · rw [if_pos here, if_pos here, writeOf]
    · rw [if_neg here, if_neg here]
      rfl
  · rw [inputs]
    refine (parsed.inputs key).trans (Perm.append_left _ ?_)
    rw [resolve_congr same, received, List.filter_map, filterMap_map]
    refine Perm.of_eq (filterMap_congr fun target _ => ?_)
    simp [arrival, known]
  · rw [subnodes, parsed.subnodes] at listed
    exact .inl listed

theorem info_eq_none {key : String} : info nodes key = none ↔ nodes.get key = none := by
  simp [info]

theorem Parses.unknown {entry : String × Outputs} (unknown : info base sourceName = none)
    (attached : List (String × String)) (nodes : Nodes) :
    Parses base (linksOfType sourceName entry) (writesOfType base sourceName entry) attached nodes nodes where
  infos := rfl
  outputs key := by simp [writesOfType, unknown, OrderedMap.write]
  inputs key := by
    have nothing : ∀ link ∈ linksOfType sourceName entry, arrival base link = none := by
      intro link listed
      have source : link.source = sourceName := by
        rw [linksOfType] at listed
        split_ifs at listed
        · obtain ⟨output, -, listed⟩ := mem_flatMap.mp listed
          obtain ⟨target, -, rfl⟩ := List.mem_map.mp listed
          rfl
        · obtain ⟨target, -, rfl⟩ := List.mem_map.mp listed
          rfl
        · cases listed
      rw [arrival, source, if_pos unknown]
    have none_ : received base key (linksOfType sourceName entry) = [] :=
      filterMap_eq_nil_iff.mpr fun link listed =>
        nothing link (mem_of_mem_filter listed)
    rw [none_, append_nil]
  subnodes key subnode := .inl

theorem parseMainConnections_spec (same : info nodes = info base)
    {type : String} {json : NodeJSON} (known : info base sourceName = some (type, json)) (outputs : Outputs) :
    Parses base (linksOfType sourceName ("main", outputs)) (writesOfType base sourceName ("main", outputs)) [] nodes
      (parseMainConnections nodes sourceName outputs) := by
  have known' : info nodes sourceName = some (type, json) := same ▸ known
  obtain ⟨node, found, parts⟩ := map_eq_some_iff.mp known'
  cases parts
  rw [parseMainConnections, found]
  have each : ∀ nodes (output : Option (List Target) × ℕ), info nodes = info base → Parses base
        ((output.1.getD []).map fun target =>
          { source := sourceName, origin := .main output.2, target })
        (fun key => if key = sourceName then
          writeOf base (outputName base sourceName (.main output.2)) (output.1.getD []) else [])
        [] nodes (parseMainOutput sourceName node nodes output) := by
    rintro nodes ⟨targets, index⟩ same
    cases targets with
    | none => simpa [writeOf, parseMainOutput] using Parses.refl base nodes
    | some targets =>
      have name : outputName base sourceName (.main index) = getOutputName node.type index node.json := by
        simp [outputName, known]
      have parsed := parseOutput_spec same known (.main index) targets
      rw [name] at parsed ⊢
      exact parsed
  have run := Parses.foldl each outputs.zipIdx same
  have writes : writesOfType base sourceName ("main", outputs) = fun key =>
      outputs.zipIdx.flatMap fun output => if key = sourceName then
        writeOf base (outputName base sourceName (.main output.2)) (output.1.getD []) else [] := by
    funext key
    by_cases here : key = sourceName
    · simp [writesOfType, here, known]
    · simp [writesOfType, here]
  have attached : outputs.zipIdx.flatMap (fun _ => ([] : List (String × String))) = [] := by simp
  rw [writes, linksOfType, if_pos rfl]
  exact attached ▸ run

theorem parseErrorConnections_spec (same : info nodes = info base)
    (known : info base sourceName = some type) (outputs : Outputs) :
    Parses base (linksOfType sourceName ("error", outputs)) (writesOfType base sourceName ("error", outputs)) [] nodes
      (parseErrorConnections nodes sourceName outputs) := by
  have known' : info nodes sourceName = some type := same ▸ known
  obtain ⟨node, found, -⟩ := map_eq_some_iff.mp known'
  have parsed := parseOutput_spec same known .error (outputs.flatMap fun targets => targets.getD [])
  have writes : writesOfType base sourceName ("error", outputs) = fun key =>
      if key = sourceName then
        writeOf base "error" (outputs.flatMap fun targets => targets.getD []) else [] := by
    funext key
    by_cases here : key = sourceName
    · simp [writesOfType, here, known]
    · simp [writesOfType, here]
  rw [parseErrorConnections, found, writes, linksOfType,
    if_neg (show ¬ "error" = "main" by decide), if_pos rfl]
  exact parsed

theorem addSubnode_spec (nodes : Nodes) (name : String) (subnode : SubnodeConnection) :
    Parses base [] (fun _ => []) [(subnode.subnodeName, name)] nodes (modify nodes name (addSubnode subnode)) where
  infos := by
    refine info_modify (fun node => ?_) _
    exact ⟨rfl, rfl⟩
  outputs key := by
    simp only [outputsOf, get_modify]
    split_ifs
    · cases nodes.get key <;> rfl
    · rfl
  inputs key := by
    have kept : inputsOf (modify nodes name (addSubnode subnode)) key = inputsOf nodes key := by
      simp only [inputsOf, get_modify]
      split_ifs
      · cases nodes.get key <;> rfl
      · rfl
    simp [kept, received]
  subnodes key other listed := by
    simp only [subnodesOf, get_modify] at listed ⊢
    split_ifs at listed with same
    · cases found : nodes.get key with
      | none => simp [found] at listed
      | some node =>
        simp only [found, map_some, getD_some, addSubnode, mem_append,
          mem_singleton] at listed ⊢
        rcases listed with old | rfl
        · exact .inl old
        · exact .inr (by rw [same])
    · exact .inl listed

theorem parseAiConnections_spec (same : info nodes = info base) (known : info base sourceName = some type)
    (connectionType : String) (outputs : Outputs) :
    Parses base [] (fun _ => []) ((outputs.flatMap fun targets => targets.getD []).map fun target =>
        (sourceName, target.node)) nodes
      (parseAiConnections nodes sourceName connectionType outputs) := by
  have known' : info nodes sourceName = some type := same ▸ known
  obtain ⟨node, found, -⟩ := map_eq_some_iff.mp known'
  have each : ∀ nodes (target : Target), info nodes = info base →
      Parses base [] (fun _ => []) [(sourceName, target.node)] nodes (modify nodes target.node
          (addSubnode { connectionType, subnodeName := sourceName, index := target.index })) :=
    fun nodes target _ => addSubnode_spec nodes target.node
      { connectionType, subnodeName := sourceName, index := target.index }
  have run := Parses.foldl each (outputs.flatMap fun targets => targets.getD []) same
  have nothing {α β : Type} (xs : List α) : xs.flatMap (fun _ => ([] : List β)) = [] := by simp
  rw [nothing, ← map_eq_flatMap] at run
  simp only [nothing] at run
  rw [parseAiConnections, found]
  exact run

theorem parseType_spec (same : info nodes = info base) (entry : String × Outputs) :
    Parses base (linksOfType sourceName entry) (writesOfType base sourceName entry)
      (attachedOfType sourceName entry) nodes (parseType sourceName nodes entry) := by
  obtain ⟨type, outputs⟩ := entry
  cases known : info base sourceName with
  | none =>
    have absent : nodes.get sourceName = none := info_eq_none.mp (same ▸ known)
    have unchanged : parseType sourceName nodes (type, outputs) = nodes := by
      simp only [parseType, parseMainConnections, parseErrorConnections, parseAiConnections, absent, ite_self]
    rw [unchanged]
    exact .unknown known _ nodes
  | some node =>
    rw [parseType]
    split_ifs with main error ai
    · obtain rfl : type = "main" := main
      exact parseMainConnections_spec same known outputs
    · obtain rfl : type = "error" := error
      exact parseErrorConnections_spec same known outputs
    · have parsed := parseAiConnections_spec same known type outputs
      have writes : writesOfType base sourceName (type, outputs) = fun _ => [] := by
        funext key
        rw [writesOfType]
        split_ifs <;> rfl
      rw [linksOfType, if_neg main, if_neg error, writes, attachedOfType, if_pos ai]
      exact parsed
    · have writes : writesOfType base sourceName (type, outputs) = fun _ => [] := by
        funext key
        rw [writesOfType]
        split_ifs <;> rfl
      rw [linksOfType, if_neg main, if_neg error, writes, attachedOfType, if_neg ai]
      exact .refl base nodes

end Steps

section Connections

variable (base : Nodes) (connections : OrderedMap String (OrderedMap String Outputs))

/-- The main and error connections of a workflow. -/
def links : List Link :=
  connections.entries.flatMap fun (source, types) => types.entries.flatMap (linksOfType source)

def attachments : List (String × String) :=
  connections.entries.flatMap fun (source, types) => types.entries.flatMap (attachedOfType source)

def writesAt (key : String) : List (String × List SemanticConnection) :=
  connections.entries.flatMap fun (source, types) =>
    types.entries.flatMap fun entry => writesOfType base source entry key

theorem parseConnections_spec : Parses base (links connections) (writesAt base connections)
    (attachments connections) base (parseConnections base connections) :=
  Parses.foldl (fun _ entry same =>
    Parses.foldl (fun _ inner same => parseType_spec same inner) entry.2.entries same)
    connections.entries rfl

/-- What a node is to hold of the connections that leave it. -/
def departures (key : String) (links : List Link) : List (String × SemanticConnection) :=
  (links.filter fun link => link.source = key).filterMap fun link =>
    (resolve base link.target).map fun connection =>
      (outputName base link.source link.origin, connection)

theorem departures_flatMap {α : Type} (key : String) (links : α → List Link) (xs : List α) :
    departures base key (xs.flatMap links) = xs.flatMap fun x => departures base key (links x) := by
  simp only [departures, filter_flatMap, filterMap_flatMap]

variable {base connections}

theorem written_writeOf (name : String) (targets : List Target) : OrderedMap.written (writeOf base name targets) =
      (targets.filterMap (resolve base)).map fun connection => (name, connection) := by
  rw [writeOf]
  split_ifs with none_
  · rw [none_]
    rfl
  · simp [OrderedMap.written]

theorem departures_output (source : String) (origin : Origin) (targets : List Target) :
    departures base source (targets.map fun target => { source, origin, target }) =
      (targets.filterMap (resolve base)).map fun connection =>
        (outputName base source origin, connection) := by
  rw [departures, filter_eq_self.mpr (by simp), filterMap_map, map_filterMap]
  rfl

variable {source : String} {entry : String × Outputs} {link : Link}

theorem linksOfType_source (listed : link ∈ linksOfType source entry) : link.source = source := by
  rw [linksOfType] at listed
  split_ifs at listed
  · obtain ⟨output, -, listed⟩ := mem_flatMap.mp listed
    obtain ⟨target, -, rfl⟩ := List.mem_map.mp listed
    rfl
  · obtain ⟨target, -, rfl⟩ := List.mem_map.mp listed
    rfl
  · cases listed

variable {key : String} {name : String}

theorem written_writesOfType (known : info base key ≠ none) (source : String)
    (entry : String × Outputs) : OrderedMap.written (writesOfType base source entry key) =
      departures base key (linksOfType source entry) := by
  by_cases here : key = source
  · subst here
    rw [writesOfType, if_neg (by simpa using known), linksOfType]
    split_ifs with main error
    · rw [departures_flatMap, OrderedMap.written, flatMap_assoc]
      refine flatMap_congr fun output _ => ?_
      rw [departures_output]
      exact written_writeOf _ _
    · rw [written_writeOf, departures_output]
      rfl
    · rfl
  · have nothing : (linksOfType source entry).filter (fun link => link.source = key) = [] := by
      refine filter_eq_nil_iff.mpr fun link listed => ?_
      simpa [linksOfType_source listed] using Ne.symm here
    rw [writesOfType, if_pos (.inl here), departures, nothing]
    rfl

theorem written_writesAt (known : info base key ≠ none) : OrderedMap.written (writesAt base connections key) =
      departures base key (links connections) := by
  rw [writesAt, links, departures_flatMap, OrderedMap.written, flatMap_assoc]
  refine flatMap_congr fun outer _ => ?_
  rw [departures_flatMap, flatMap_assoc]
  exact flatMap_congr fun entry _ => written_writesOfType known outer.1 entry

theorem writesOfType_nonempty : ∀ write ∈ writesOfType base source entry key, write.2 ≠ [] := by
  have one {name : String} {targets : List Target} : ∀ write ∈ writeOf base name targets, write.2 ≠ [] := by
    intro write listed
    rw [writeOf] at listed
    split_ifs at listed with none_
    · cases listed
    · rw [mem_singleton.mp listed]
      exact none_
  intro write listed
  rw [writesOfType] at listed
  split_ifs at listed
  · cases listed
  · obtain ⟨output, -, listed⟩ := mem_flatMap.mp listed
    exact one write listed
  · exact one write listed
  · cases listed

theorem writesAt_nonempty : ∀ write ∈ writesAt base connections key, write.2 ≠ [] := by
  intro write listed
  obtain ⟨outer, -, listed⟩ := mem_flatMap.mp listed
  obtain ⟨entry, -, listed⟩ := mem_flatMap.mp listed
  exact writesOfType_nonempty write listed

/-- A node has a connection at the main output that is its error output, and one of the type of
errors, both to existing nodes. -/
def Clash (base : Nodes) (source : String) (links : List Link) : Prop :=
  ∃ type json index target target', info base source = some (type, json) ∧
    hasErrorOutput json = true ∧ index = getErrorOutputIndex type json ∧
    { source, origin := .main index, target } ∈ links ∧
    { source, origin := .error, target := target' } ∈ links ∧
    info base target.node ≠ none ∧ info base target'.node ≠ none

def namesOfType (base : Nodes) (source : String) (entry : String × Outputs) : List String :=
  (writesOfType base source entry source).map Prod.fst

theorem mem_namesOfType (known : info base source ≠ none) : name ∈ namesOfType base source entry ↔
      ∃ link ∈ linksOfType source entry, outputName base source link.origin = name ∧
        info base link.target.node ≠ none := by
  rw [namesOfType, mem_keys_iff writesOfType_nonempty, written_writesOfType known]
  constructor
  · rintro ⟨connection, member⟩
    obtain ⟨link, listed, resolved⟩ := mem_filterMap.mp member
    have listed' := mem_of_mem_filter listed
    obtain ⟨connection', here, same⟩ := map_eq_some_iff.mp resolved
    cases same
    refine ⟨link, listed', by rw [linksOfType_source listed'], fun unknown => ?_⟩
    simp [resolve, unknown] at here
  · rintro ⟨link, listed, rfl, existing⟩
    obtain ⟨connection, resolved⟩ : ∃ connection, resolve base link.target = some connection := by
      obtain ⟨type, found⟩ := ne_none_iff_exists'.mp existing
      exact ⟨_, by rw [resolve, found]; rfl⟩
    refine ⟨connection, mem_filterMap.mpr ⟨link, mem_filter.mpr ⟨listed, ?_⟩, ?_⟩⟩
    · simpa using linksOfType_source listed
    · rw [linksOfType_source listed, resolved]
      rfl

theorem mem_linksOfType (listed : link ∈ linksOfType source entry) :
    (entry.1 = "main" ∧ ∃ index, link.origin = .main index) ∨ (entry.1 = "error" ∧ link.origin = .error) := by
  rw [linksOfType] at listed
  split_ifs at listed with main error
  · obtain ⟨output, -, listed⟩ := mem_flatMap.mp listed
    obtain ⟨target, -, rfl⟩ := List.mem_map.mp listed
    exact .inl ⟨main, output.2, rfl⟩
  · obtain ⟨target, -, rfl⟩ := List.mem_map.mp listed
    exact .inr ⟨error, rfl⟩
  · cases listed

theorem writeOf_names (name : String) (targets : List Target) :
    ((writeOf base name targets).map Prod.fst).Sublist [name] := by
  rw [writeOf]
  split_ifs
  · exact nil_sublist _
  · exact Sublist.refl _

theorem flatMap_sublist {α β : Type} {f : α → List β} {g : α → β}
    (each : ∀ x, (f x).Sublist [g x]) (xs : List α) : (xs.flatMap f).Sublist (xs.map g) := by
  induction xs with
  | nil => exact Sublist.refl _
  | cons x xs ih => exact (each x).append ih

theorem namesOfType_nodup (source : String) (entry : String × Outputs) : (namesOfType base source entry).Nodup := by
  rw [namesOfType, writesOfType]
  split_ifs with absent main
  · exact nodup_nil
  · obtain ⟨⟨type, json⟩, known⟩ := ne_none_iff_exists'.mp (not_or.mp absent).2
    rw [map_flatMap]
    refine Nodup.sublist (flatMap_sublist (fun _ => writeOf_names _ _) _) ?_
    have indices : (entry.2.zipIdx.map Prod.snd).Nodup := by
      rw [zipIdx_map_snd]
      exact nodup_range'
    rw [show (fun output : Option (List Target) × ℕ => outputName base source (.main output.2)) =
      (fun index => outputName base source (.main index)) ∘ Prod.snd from rfl, ← List.map_map]
    refine indices.map fun i j same => getOutputName_injective type json ?_
    simpa [outputName, known] using same
  · exact (nodup_singleton _).sublist (writeOf_names _ _)
  · exact nodup_nil

theorem writesAt_eq (source : String) : writesAt base connections source = ((connections.get source).map fun types =>
      types.entries.flatMap fun entry => writesOfType base source entry source).getD [] := by
  rw [← flatMap_entries_key, writesAt]
  refine flatMap_congr fun outer _ => ?_
  by_cases here : outer.1 = source
  · rw [if_pos here, ← here]
  · rw [if_neg here, flatMap_eq_nil_iff]
    intro entry _
    rw [writesOfType, if_pos (.inl (Ne.symm here))]

theorem mem_links : link ∈ links connections ↔ ∃ types, connections.get link.source = some types ∧
      ∃ entry ∈ types.entries, link ∈ linksOfType link.source entry := by
  constructor
  · intro listed
    obtain ⟨⟨source, types⟩, member, listed⟩ := mem_flatMap.mp listed
    obtain ⟨entry, inside, listed⟩ := mem_flatMap.mp listed
    obtain rfl := linksOfType_source listed
    exact ⟨types, (connections.mem_entries_iff).mp member, entry, inside, listed⟩
  · rintro ⟨types, found, entry, inside, listed⟩
    exact mem_flatMap.mpr ⟨(link.source, types), (connections.mem_entries_iff).mpr found,
      mem_flatMap.mpr ⟨entry, inside, listed⟩⟩

theorem clash_of_shared (known : info base source ≠ none) {main error : Link}
    (listed : main ∈ links connections) (listed' : error ∈ links connections)
    (leaves : main.source = source) (leaves' : error.source = source) {index : ℕ}
    (origin : main.origin = .main index) (origin' : error.origin = .error)
    (same : outputName base source main.origin = name) (same' : outputName base source error.origin = name)
    (here : info base main.target.node ≠ none) (there : info base error.target.node ≠ none) :
    Clash base source (links connections) := by
  obtain ⟨⟨type, json⟩, known⟩ := ne_none_iff_exists'.mp known
  obtain ⟨mainSource, mainOrigin, target⟩ := main
  obtain ⟨errorSource, errorOrigin, target'⟩ := error
  dsimp only at leaves leaves' origin origin' same same' here there
  subst leaves leaves' origin origin' same'
  have named : getOutputName type index json = "error" := by
    simpa [outputName, known] using same
  obtain ⟨enabled, place⟩ := getOutputName_eq_error.mp named
  exact ⟨type, json, index, target, target', known, enabled, place, listed, listed', here, there⟩

theorem writesAt_nodup_iff (known : info base source ≠ none) : ((writesAt base connections source).map Prod.fst).Nodup ↔
      ¬ Clash base source (links connections) := by
  rw [writesAt_eq]
  cases found : connections.get source with
  | none =>
    refine iff_of_true nodup_nil ?_
    rintro ⟨type, json, index, target, target', -, -, -, listed, -⟩
    obtain ⟨types, found', -⟩ := mem_links.mp listed
    rw [found] at found'
    cases found'
  | some types =>
    rw [map_some, getD_some, map_flatMap]
    change (types.entries.flatMap (namesOfType base source)).Nodup ↔ _
    rw [nodup_flatMap]
    constructor
    · rintro ⟨-, apart⟩ ⟨type, json, index, target, target', known', error, rfl, main, other, here, there⟩
      obtain ⟨mains, found', one, inside, listed⟩ := mem_links.mp main
      obtain ⟨errors, found'', two, inside', listed'⟩ := mem_links.mp other
      cases found.symm.trans found'
      cases found.symm.trans found''
      have type_one : one.1 = "main" := by simpa using mem_linksOfType listed
      have type_two : two.1 = "error" := by simpa using mem_linksOfType listed'
      have different : one ≠ two := by
        rintro rfl
        rw [type_one] at type_two
        exact absurd type_two (by decide)
      have name : outputName base source (.main (getErrorOutputIndex type json)) = "error" := by
        simpa [outputName, known'] using getOutputName_eq_error.mpr ⟨error, rfl⟩
      have symmetric : Std.Symm (Function.onFun List.Disjoint (namesOfType base source)) :=
        ⟨fun _ _ disjoint _ left right => disjoint right left⟩
      have disjoint := apart.forall inside inside' different
      exact disjoint ((mem_namesOfType known).mpr ⟨_, listed, name, here⟩)
        ((mem_namesOfType known).mpr ⟨_, listed', rfl, there⟩)
    · intro apart
      refine ⟨fun entry _ => namesOfType_nodup source entry, ?_⟩
      refine (pairwise_map.mp types.nodup).imp_of_mem fun {one two} inside inside' different => ?_
      intro name left right
      obtain ⟨link, listed, same, here⟩ := (mem_namesOfType known).mp left
      obtain ⟨link', listed', same', there⟩ := (mem_namesOfType known).mp right
      have leaves := linksOfType_source listed
      have leaves' := linksOfType_source listed'
      have member : link ∈ links connections :=
        mem_links.mpr ⟨types, leaves ▸ found, one, inside, leaves.symm ▸ listed⟩
      have member' : link' ∈ links connections :=
        mem_links.mpr ⟨types, leaves' ▸ found, two, inside', leaves'.symm ▸ listed'⟩
      rcases mem_linksOfType listed with ⟨type, index, origin⟩ | ⟨type, origin⟩
      · rcases mem_linksOfType listed' with ⟨type', -⟩ | ⟨-, origin'⟩
        · exact different (type.trans type'.symm)
        · exact apart (clash_of_shared known member member' leaves leaves' origin origin' same same' here there)
      · rcases mem_linksOfType listed' with ⟨-, index, origin'⟩ | ⟨type', -⟩
        · exact apart (clash_of_shared known member' member leaves' leaves origin' origin same' same there here)
        · exact different (type.trans type'.symm)

end Connections

end N8n.Codegen
