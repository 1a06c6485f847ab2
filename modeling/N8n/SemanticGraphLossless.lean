import N8n.SemanticGraphRoots

/-! When a semantic graph has all of a workflow: its nodes, its main and error connections once at
either end, and a way from a root to every node that is not part of another one. -/

namespace N8n.Codegen

open DepthFirst (Reaches)
open OrderedMap

structure LosesNothing (json : WorkflowJSON) (graph : SemanticGraph) : Prop where
  held : Held json.nodes graph.nodes
  outputs : ∀ key ∈ names graph.nodes, (outputsOf graph.nodes key).flatten.Perm
    (departures graph.nodes key (links (normalizeConnections json.connections)))
  inputs : ∀ key ∈ names graph.nodes, (inputsOf graph.nodes key).flatten.Perm
    (received graph.nodes key (links (normalizeConnections json.connections)))
  named : ∀ key ∈ names graph.nodes, Function.Injective fun index => outputName graph.nodes key (.main index)
  reached : ∀ key ∈ names graph.nodes,
    (∀ parent ∈ names graph.nodes, (key, parent) ∉ attachments (normalizeConnections json.connections)) →
    ∃ root ∈ graph.roots, Reaches (targets graph.nodes) root key

section Build

variable {nodes nodes' : Nodes} {json : WorkflowJSON} {key : String}

theorem mem_names_iff : key ∈ names nodes ↔ info nodes key ≠ none := by
  rw [names, info, ne_eq, Option.map_eq_none_iff, nodes.get_eq_none_iff, not_not]

section

variable (same : info nodes' = info nodes)
include same

theorem outputName_congr : outputName nodes' = outputName nodes := by
  funext source origin
  cases origin with
  | main index => rw [outputName, outputName, same]
  | error => rfl

theorem departures_congr : departures nodes' = departures nodes := by
  funext key links
  rw [departures, departures, resolve_congr same, outputName_congr same]

theorem arrival_congr : arrival nodes' = arrival nodes := by
  funext link
  rw [arrival, arrival, resolve_congr same, outputName_congr same, same]

theorem received_congr : received nodes' = received nodes := by
  funext key links
  rw [received, received, arrival_congr same]

theorem held_congr {list : List NodeJSON} : Held list nodes' ↔ Held list nodes := by
  have json : ∀ key, (nodes'.get key).map SemanticNode.json = (nodes.get key).map SemanticNode.json := by
    intro key
    have here := congrArg (Option.map Prod.snd) (congrFun same key)
    rw [info, info, Option.map_map, Option.map_map] at here
    exact here
  simp only [Held, json]

end

/-! ## Sorting the subnodes -/

theorem info_sortSubnodes : info (nodes.mapValues sortSubnodes) = info nodes := by
  funext key
  rw [info, info, get_mapValues, Option.map_map]
  rfl

theorem outputsOf_sortSubnodes : outputsOf (nodes.mapValues sortSubnodes) = outputsOf nodes := by
  funext key
  rw [outputsOf, outputsOf, get_mapValues, Option.map_map]
  rfl

theorem inputsOf_sortSubnodes : inputsOf (nodes.mapValues sortSubnodes) = inputsOf nodes := by
  funext key
  rw [inputsOf, inputsOf, get_mapValues, Option.map_map]
  rfl

theorem mem_subnodesOf_sortSubnodes {subnode : SubnodeConnection} :
    subnode ∈ subnodesOf (nodes.mapValues sortSubnodes) key ↔ subnode ∈ subnodesOf nodes key := by
  rw [subnodesOf, subnodesOf, get_mapValues]
  cases nodes.get key with
  | none => rfl
  | some node => exact List.mem_mergeSort

/-! ## The graph -/

theorem createNodes_blank : outputsOf (createNodes json.nodes) key = .empty ∧
    inputsOf (createNodes json.nodes) key = .empty ∧ subnodesOf (createNodes json.nodes) key = [] := by
  have blank : ∀ name semantic, (createNodes json.nodes).get name = some semantic →
      semantic = createSemanticNode name semantic.json :=
    created_blank (by simp) json.nodes
  rw [outputsOf, inputsOf, subnodesOf]
  cases found : (createNodes json.nodes).get key with
  | none => exact ⟨rfl, rfl, rfl⟩
  | some semantic =>
    rw [blank key semantic found]
    exact ⟨rfl, rfl, rfl⟩

structure Built (json : WorkflowJSON) (nodes : Nodes) : Prop where
  infos : info nodes = info (createNodes json.nodes)
  outputs : ∀ key, outputsOf nodes key =
    OrderedMap.write .empty (writesAt (createNodes json.nodes) (normalizeConnections json.connections) key)
  inputs : ∀ key, (inputsOf nodes key).flatten.Perm
    (received (createNodes json.nodes) key (links (normalizeConnections json.connections)))
  subnodes : ∀ key, ∀ subnode ∈ subnodesOf nodes key,
    (subnode.subnodeName, key) ∈ attachments (normalizeConnections json.connections)

theorem buildSemanticGraph_built (json : WorkflowJSON) : Built json (buildSemanticGraph json).nodes := by
  have parsed := parseConnections_spec (createNodes json.nodes) (normalizeConnections json.connections)
  constructor
  · exact info_sortSubnodes.trans parsed.infos
  · intro key
    have outputs := parsed.outputs key
    rw [createNodes_blank.1] at outputs
    exact (congrFun outputsOf_sortSubnodes key).trans outputs
  · intro key
    have inputs := parsed.inputs key
    rw [createNodes_blank.2.1] at inputs
    rw [buildSemanticGraph, inputsOf_sortSubnodes]
    exact inputs
  · intro key subnode listed
    have listed := mem_subnodesOf_sortSubnodes.mp listed
    refine (parsed.subnodes key subnode listed).resolve_left ?_
    rw [createNodes_blank.2.2]
    exact List.not_mem_nil

theorem isSubnode_eq_false (built : Built json nodes)
    (apart : ∀ parent ∈ names nodes, (key, parent) ∉ attachments (normalizeConnections json.connections)) :
    isSubnode nodes key = false := by
  rw [Bool.eq_false_iff]
  intro isPart
  obtain ⟨node, member, inside⟩ := List.any_eq_true.mp isPart
  obtain ⟨subnode, listed, same⟩ := List.any_eq_true.mp inside
  obtain rfl := eq_of_beq same
  obtain ⟨parent, found⟩ := nodes.mem_values_iff.mp member
  have held : parent ∈ names nodes := mem_names_iff.mpr (by simp [info, found])
  refine apart parent held (built.subnodes parent subnode ?_)
  rw [subnodesOf, found]
  exact listed

/-- Of a held node nothing that leaves it is lost exactly when two outputs of it do not clash. -/
theorem outputs_perm_iff (built : Built json nodes) (held : key ∈ names nodes) : (outputsOf nodes key).flatten.Perm
        (departures nodes key (links (normalizeConnections json.connections))) ↔
      ¬Clash (createNodes json.nodes) key (links (normalizeConnections json.connections)) := by
  have known : info (createNodes json.nodes) key ≠ none := built.infos ▸ mem_names_iff.mp held
  rw [built.outputs, departures_congr built.infos, ← written_writesAt known,
    write_perm_iff writesAt_nonempty, writesAt_nodup_iff known]

theorem outputName_injective (held : key ∈ names nodes) :
    Function.Injective fun index => outputName nodes key (.main index) := by
  obtain ⟨⟨type, json⟩, known⟩ := Option.ne_none_iff_exists'.mp (mem_names_iff.mp held)
  intro i j same
  refine getOutputName_injective type json ?_
  simpa [outputName, known] using same

end Build

/-- The graph of a workflow whose nodes have different names loses nothing exactly when no name is one
that is generated for an unnamed node, and no node has connections both at the main output that is
its error output and of the type of errors. -/
theorem buildSemanticGraph_losesNothing_iff (json : WorkflowJSON) (distinct : DistinctNames json.nodes) :
    LosesNothing json (buildSemanticGraph json) ↔
      (∀ name ∈ generatedNames json.nodes, ∀ node ∈ json.nodes, node.name ≠ some name) ∧
        ∀ source, ¬Clash (createNodes json.nodes) source (links (normalizeConnections json.connections)) := by
  have built := buildSemanticGraph_built json
  have held := (held_congr built.infos).trans (held_iff distinct)
  constructor
  · intro lossless
    refine ⟨held.mp lossless.held, fun source clash => ?_⟩
    obtain ⟨type, node, index, target, target', known, _⟩ := id clash
    have holds : source ∈ names (buildSemanticGraph json).nodes := by
      rw [mem_names_iff, built.infos, known]
      exact Option.some_ne_none _
    exact (outputs_perm_iff built holds).mp (lossless.outputs source holds) clash
  · rintro ⟨apart, noClash⟩
    constructor
    · exact held.mpr apart
    · exact fun key holds => (outputs_perm_iff built holds).mpr (noClash key)
    · intro key _
      rw [received_congr built.infos]
      exact built.inputs key
    · exact fun key holds => outputName_injective holds
    · exact fun key holds free => reached_of_not_subnode holds (isSubnode_eq_false built free) _

/-- `a` gives its errors to `c`, and to `b` through the output that `main` has for them. -/
def errorsTo (main : List Slot) : WorkflowJSON where
  nodes := [{ name := "a", type := "n8n-nodes-base.set", onError := "continueErrorOutput" },
    { name := "b", type := "n8n-nodes-base.set" }, { name := "c", type := "n8n-nodes-base.set" }]
  connections := ⟨[("a", ⟨[("main", main), ("error", [.targets [⟨"c", none⟩]])], by simp⟩)], by simp⟩

theorem errorsOnce_lossless :
    LosesNothing (errorsTo [.targets [⟨"b", none⟩]]) (buildSemanticGraph (errorsTo [.targets [⟨"b", none⟩]])) := by
  refine (buildSemanticGraph_losesNothing_iff _ (by decide)).mpr ⟨?_, ?_⟩
  · have none : generatedNames (errorsTo [.targets [⟨"b", none⟩]]).nodes = [] := by decide
    simp [none]
  · rintro source ⟨type, json, index, target, target', known, _, place, listed, _⟩
    have all : links (normalizeConnections (errorsTo [.targets [⟨"b", none⟩]]).connections) =
        [⟨"a", .main 0, ⟨"b", 0⟩⟩, ⟨"a", .error, ⟨"c", 0⟩⟩] := rfl
    simp only [all, List.mem_cons, Link.mk.injEq, Origin.main.injEq, List.not_mem_nil, or_false, reduceCtorEq,
      false_and, and_false] at listed
    obtain ⟨rfl, rfl, -⟩ := listed
    have isSet : some (type, json) = some ("n8n-nodes-base.set", _) := known.symm.trans rfl
    obtain ⟨rfl, rfl⟩ := Prod.mk.inj (Option.some.inj isSet)
    exact absurd place (by decide)

/-- The connection to `b` is overwritten. -/
theorem errorsTwice_overwritten : DistinctNames (errorsTo [.null, .targets [⟨"b", none⟩]]).nodes ∧
    ¬LosesNothing (errorsTo [.null, .targets [⟨"b", none⟩]])
      (buildSemanticGraph (errorsTo [.null, .targets [⟨"b", none⟩]])) := by
  refine ⟨by decide, fun lossless => ?_⟩
  have lengths := (lossless.outputs "a" (by decide)).length_eq
  exact absurd lengths (by decide)

end N8n.Codegen
