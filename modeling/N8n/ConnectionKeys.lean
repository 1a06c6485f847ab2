import N8n.DecimalOrder
import N8n.EditableGraph

/-! When two connections have one key. The parts of a key are put together with dashes, and a
dash in a node's name reads like one between two parts: the keys of different connections are the
same where the source name of one goes on with what follows the source in the key of the other. -/

namespace N8n.PartialExecution

open PartialExecution.DirectedGraph DecimalOrder Option

/-! ## The parts of a key -/

theorem dash_notMem_repr (n : ℕ) : '-' ∉ (toString n).toList := notMem_toString (by decide) n

theorem dash_notMem_text (type : NodeConnectionType) : '-' ∉ type.text.toList := by
  cases type <;> decide

theorem text_injective {one two : NodeConnectionType} (same : one.text = two.text) : one = two := by
  cases one <;> cases two <;> first | rfl | exact absurd same (by decide)

theorem toString_ne_text (n : ℕ) (type : NodeConnectionType) : (toString n).toList ≠ type.text.toList := by
  intro same
  have letter : type.text.toList.any (fun c => !c.isDigit) = true := by
    cases type <;> rfl
  obtain ⟨c, member, notDigit⟩ := List.any_eq_true.mp letter
  rw [Bool.not_eq_true'] at notDigit
  exact notMem_toString notDigit n (same ▸ member)

variable {c d : GraphConnection}

def keyParts (c : GraphConnection) : String :=
  c.type.text ++ "-" ++ toString c.outputIndex ++ "-" ++ toString c.inputIndex

def SameParts (c d : GraphConnection) : Prop :=
  c.fromNode.name = d.fromNode.name ∧ c.type = d.type ∧ c.outputIndex = d.outputIndex ∧
    c.inputIndex = d.inputIndex ∧ c.toNode.name = d.toNode.name

/-- The source name of `d` is that of `c` with `c`'s type and indexes and perhaps more behind it, and
what is more, with `d`'s type, indexes and target name behind it, is the target name of `c`. -/
def Overlaps (c d : GraphConnection) : Prop :=
  ∃ more, d.fromNode.name = c.fromNode.name ++ "-" ++ keyParts c ++ more ∧
    "-" ++ c.toNode.name = more ++ "-" ++ keyParts d ++ "-" ++ d.toNode.name

def keyTail (c : GraphConnection) : List Char :=
  c.type.text.toList ++ '-' :: ((toString c.outputIndex).toList ++ '-' ::
    ((toString c.inputIndex).toList ++ '-' :: c.toNode.name.toList))

theorem toList_makeKey (c : GraphConnection) : (makeKey c).toList = c.fromNode.name.toList ++ '-' :: keyTail c := by
  simp [makeKey, keyTail, show ("-" : String).toList = ['-'] from rfl]

theorem keyTail_eq (c : GraphConnection) : keyTail c = (keyParts c).toList ++ '-' :: c.toNode.name.toList := by
  simp [keyParts, keyTail, show ("-" : String).toList = ['-'] from rfl]

theorem keyTail_injective (same : keyTail c = keyTail d) : c.type = d.type ∧ c.outputIndex = d.outputIndex ∧
    c.inputIndex = d.inputIndex ∧ c.toNode.name = d.toNode.name := by
  obtain ⟨typeSame, chars⟩ := eq_of_separated (dash_notMem_text _) (dash_notMem_text _) same
  obtain ⟨outSame, chars⟩ := eq_of_separated (dash_notMem_repr _) (dash_notMem_repr _) chars
  obtain ⟨inSame, toSame⟩ := eq_of_separated (dash_notMem_repr _) (dash_notMem_repr _) chars
  exact ⟨text_injective (String.toList_injective typeSame), toString_injective (String.toList_injective outSame),
    toString_injective (String.toList_injective inSame), String.toList_injective toSame⟩

/-- The tail of one key ends with the tail of another: no number is a type, so it lies in the target. -/
theorem keyTail_overlap {head : List Char} (same : keyTail c = head ++ '-' :: keyTail d) :
    ∃ more, head = (keyParts c).toList ++ more ∧ '-' :: c.toNode.name.toList = more ++ '-' :: keyTail d := by
  have parts : (keyParts c).toList = c.type.text.toList ++ '-' :: ((toString c.outputIndex).toList ++ '-' ::
      (toString c.inputIndex).toList) := by
    simp [keyParts, show ("-" : String).toList = ['-'] from rfl]
  rcases separated_cases (dash_notMem_text _) same with ⟨_, atType⟩ | ⟨afterType, rfl, atType⟩
  · exact absurd (eq_of_separated (dash_notMem_repr _) (dash_notMem_text _) atType).1 (toString_ne_text _ _)
  rcases separated_cases (dash_notMem_repr _) atType with ⟨_, atOutput⟩ | ⟨afterOutput, rfl, atOutput⟩
  · exact absurd (eq_of_separated (dash_notMem_repr _) (dash_notMem_text _) atOutput).1 (toString_ne_text _ _)
  rcases separated_cases (dash_notMem_repr _) atOutput with ⟨rfl, atInput⟩ | ⟨more, rfl, atInput⟩
  · exact ⟨[], by simp [parts], by rw [atInput]; rfl⟩
  · exact ⟨'-' :: more, by simp [parts], by rw [atInput]; rfl⟩

theorem overlaps_iff : Overlaps c d ↔ ∃ more : List Char,
    d.fromNode.name.toList = c.fromNode.name.toList ++ '-' :: ((keyParts c).toList ++ more) ∧
      '-' :: c.toNode.name.toList = more ++ '-' :: keyTail d := by
  constructor
  · rintro ⟨more, source, target⟩
    refine ⟨more.toList, ?_, ?_⟩
    · simpa [show ("-" : String).toList = ['-'] from rfl] using congrArg String.toList source
    · simpa [keyTail_eq, show ("-" : String).toList = ['-'] from rfl] using congrArg String.toList target
  · rintro ⟨more, source, target⟩
    refine ⟨String.ofList more, String.toList_injective ?_, String.toList_injective ?_⟩
    · simpa [show ("-" : String).toList = ['-'] from rfl] using source
    · simpa [keyTail_eq, show ("-" : String).toList = ['-'] from rfl] using target

theorem makeKey_of_overlaps (overlaps : Overlaps c d) : makeKey c = makeKey d := by
  obtain ⟨more, source, target⟩ := overlaps_iff.mp overlaps
  apply String.toList_injective
  rw [toList_makeKey, toList_makeKey, source, keyTail_eq c, target]
  simp

theorem cases_of_append {more : List Char} (source : d.fromNode.name.toList = c.fromNode.name.toList ++ more)
    (tails : '-' :: keyTail c = more ++ '-' :: keyTail d) : SameParts c d ∨ Overlaps c d := by
  cases more with
  | nil =>
    have sameTail := keyTail_injective (List.cons.inj tails).2
    have sameSource : c.fromNode.name = d.fromNode.name := String.toList_injective (by simpa using source.symm)
    exact .inl ⟨sameSource, sameTail⟩
  | cons dash head =>
    obtain ⟨rfl, tail⟩ := List.cons.inj tails
    obtain ⟨rest, rfl, target⟩ := keyTail_overlap tail
    exact .inr (overlaps_iff.mpr ⟨rest, source, target⟩)

theorem SameParts.symm (same : SameParts c d) : SameParts d c :=
  ⟨same.1.symm, same.2.1.symm, same.2.2.1.symm, same.2.2.2.1.symm, same.2.2.2.2.symm⟩

theorem makeKey_eq_iff : makeKey c = makeKey d ↔ SameParts c d ∨ Overlaps c d ∨ Overlaps d c := by
  constructor
  · intro same
    have chars := congrArg String.toList same
    rw [toList_makeKey, toList_makeKey, List.append_eq_append_iff] at chars
    rcases chars with ⟨more, source, tails⟩ | ⟨more, source, tails⟩
    · rcases cases_of_append source tails with parts | overlaps
      · exact .inl parts
      · exact .inr (.inl overlaps)
    · rcases cases_of_append source tails with parts | overlaps
      · exact .inl parts.symm
      · exact .inr (.inr overlaps)
  · rintro (⟨fromSame, typeSame, outSame, inSame, toSame⟩ | overlaps | overlaps)
    · rw [makeKey, makeKey, fromSame, typeSame, outSame, inSame, toSame]
    · exact makeKey_of_overlaps overlaps
    · exact (makeKey_of_overlaps overlaps).symm

theorem Overlaps.dash (overlaps : Overlaps c d) : '-' ∈ d.fromNode.name.toList := by
  obtain ⟨more, source, _⟩ := overlaps_iff.mp overlaps
  rw [source]
  exact List.mem_append_right _ List.mem_cons_self

theorem makeKey_injective (dashC : '-' ∉ c.fromNode.name.toList) (dashD : '-' ∉ d.fromNode.name.toList)
    (same : makeKey c = makeKey d) : SameParts c d := by
  rcases makeKey_eq_iff.mp same with parts | overlaps | overlaps
  · exact parts
  · exact absurd overlaps.dash dashD
  · exact absurd overlaps.dash dashC

/-! ## Connections in the map -/

def DirectedGraph.getConnection (graph : DirectedGraph) (fromNode : GraphNode) (outputIndex : ℕ)
    (type : NodeConnectionType) (inputIndex : ℕ) (toNode : GraphNode) : Option GraphConnection :=
  graph.connections.get (makeKey ⟨fromNode, toNode, type, outputIndex, inputIndex⟩)

variable {graph result : DirectedGraph} {inputs : List ConnectionInput}

def Known (graph : DirectedGraph) (inputs : List ConnectionInput) (c : GraphConnection) : Prop :=
  c ∈ graph.getConnections ∨ c ∈ inputs.map (·.connection)

/-- No connection was overwritten, and one that is asked for by its parts is itself what is found. -/
structure KeepsConnections (graph : DirectedGraph) (inputs : List ConnectionInput) (result : DirectedGraph) : Prop where
  kept : ∀ c, Known graph inputs c → c ∈ result.getConnections
  found : ∀ c, result.Stores c.fromNode → result.Stores c.toNode →
    result.getConnection c.fromNode c.outputIndex c.type c.inputIndex c.toNode =
      if c ∈ result.getConnections then some c else none

def Collide (c d : GraphConnection) : Prop := c ≠ d ∧ (SameParts c d ∨ Overlaps c d ∨ Overlaps d c)

theorem eq_of_not_collide (apart : ¬Collide c d) (same : makeKey c = makeKey d) : c = d := by
  by_contra different
  exact apart ⟨different, makeKey_eq_iff.mp same⟩

theorem not_collide_of_names (dashFree : ∀ node, graph.Stores node → '-' ∉ node.name.toList)
    (storedC : graph.Stores c.fromNode ∧ graph.Stores c.toNode)
    (storedD : graph.Stores d.fromNode ∧ graph.Stores d.toNode) : ¬Collide c d := by
  rintro ⟨different, sharing⟩
  obtain ⟨fromSame, typeSame, outSame, inSame, toSame⟩ := makeKey_injective (dashFree _ storedC.1)
    (dashFree _ storedD.1) (makeKey_eq_iff.mpr sharing)
  have froms := storedC.1.eq_of_name storedD.1 fromSame
  have tos := storedC.2.eq_of_name storedD.2 toSame
  cases c
  cases d
  simp only at froms tos typeSame outSame inSame
  subst froms tos typeSame outSame inSame
  exact different rfl

theorem addConnections_eq_some (added : graph.addConnections inputs = some result) :
    result = (inputs.map (·.connection)).foldl setConnection graph := by
  induction inputs generalizing graph with
  | nil => exact (some.inj added).symm
  | cons input inputs ih =>
    obtain ⟨mid, first, rest⟩ := foldlM_cons_eq_some.mp added
    obtain ⟨_, setIt⟩ := ite_none_right_eq_some.mp first
    obtain rfl := some.inj setIt
    exact ih rest

/-- Connections are lost, or are taken for one another, exactly where one that is there
or added collides with one that is there, added or asked for. -/
theorem keepsConnections_iff (added : graph.addConnections inputs = some result) :
    KeepsConnections graph inputs result ↔ ∀ c d, Known graph inputs d →
      Known graph inputs c ∨ graph.Stores c.fromNode ∧ graph.Stores c.toNode → ¬Collide c d := by
  obtain rfl := addConnections_eq_some added
  constructor
  · rintro ⟨kept, found⟩ c d knownD asked ⟨different, sharing⟩
    have same := makeKey_eq_iff.mpr sharing
    have there := kept d knownD
    rcases asked with knownC | ⟨storedFrom, storedTo⟩
    · exact different (eq_of_makeKey (kept c knownC) there same)
    · have lookup := found c (stores_foldl_setConnection.mpr storedFrom) (stores_foldl_setConnection.mpr storedTo)
      have stored := mem_getConnections.mp there
      rw [← same] at stored
      rw [getConnection, stored] at lookup
      split at lookup
      · exact different (some.inj lookup).symm
      · cases lookup
  · intro apart
    have members : ∀ c, c ∈ ((inputs.map (·.connection)).foldl setConnection graph).getConnections ↔
        c ∈ inputs.map (·.connection) ∨ c ∈ graph.getConnections := fun c =>
      mem_foldl_setConnection_iff fun a ha b hb same =>
        eq_of_not_collide (apart a b hb.symm (.inl (.inr ha))) same
    refine ⟨fun c known => (members c).mpr known.symm, fun c storedFrom storedTo => ?_⟩
    split
    · next there => exact mem_getConnections.mp there
    · next missing =>
      rw [getConnection, eq_none_iff_forall_ne_some]
      intro d lookup
      have sameKey := keyed _ _ _ lookup
      have there := mem_getConnections.mpr (sameKey ▸ lookup)
      have collides := apart c d ((members d).mp there).symm
        (.inr ⟨stores_foldl_setConnection.mp storedFrom, stores_foldl_setConnection.mp storedTo⟩)
      exact missing (eq_of_not_collide collides sameKey.symm ▸ there)

/-- Between nodes without dashes nothing is lost. -/
def plainPair : DirectedGraph := empty.addNodes [plainNode 0 "a", plainNode 1 "b"]

def plainInputs : List ConnectionInput :=
  [⟨plainNode 0 "a", plainNode 1 "b", none, none, none⟩, ⟨plainNode 0 "a", plainNode 1 "b", none, some 1, none⟩]

theorem plainPair_kept : KeepsConnections plainPair plainInputs
    ((plainInputs.map (·.connection)).foldl setConnection plainPair) := by
  have dashFree : ∀ node, plainPair.Stores node → '-' ∉ node.name.toList := by
    have members : ∀ node ∈ plainPair.getNodes, '-' ∉ node.name.toList := by decide
    exact fun node stored => members node (mem_getNodes.mpr stored)
  have stored : ∀ c, Known plainPair plainInputs c → plainPair.Stores c.fromNode ∧ plainPair.Stores c.toNode := by
    rintro c (old | added)
    · cases old
    · revert c
      decide
  refine (keepsConnections_iff rfl).mpr fun c d knownD asked => ?_
  exact not_collide_of_names dashFree (asked.elim (stored c) id) (stored d knownD)

/-- The name of a node ends like the middle of a key. -/
def dashedNames : DirectedGraph :=
  empty.addNodes [plainNode 0 "a", plainNode 1 "b-main-0-0-c", plainNode 2 "a-main-0-0-b", plainNode 3 "c"]

def dashedInputs : List ConnectionInput :=
  [⟨plainNode 0 "a", plainNode 1 "b-main-0-0-c", none, none, none⟩,
    ⟨plainNode 2 "a-main-0-0-b", plainNode 3 "c", none, none, none⟩]

/-- The second connection takes the place of the first. -/
theorem first_connection_overwritten : ∃ result, dashedNames.addConnections dashedInputs = some result ∧
    result.getConnections = [⟨plainNode 2 "a-main-0-0-b", plainNode 3 "c", .main, 0, 0⟩] ∧
    ¬KeepsConnections dashedNames dashedInputs result := by
  have done : dashedNames.addConnections dashedInputs =
      some ((dashedInputs.map (·.connection)).foldl setConnection dashedNames) := rfl
  have left : ((dashedInputs.map (·.connection)).foldl setConnection dashedNames).getConnections =
      [⟨plainNode 2 "a-main-0-0-b", plainNode 3 "c", .main, 0, 0⟩] := by decide
  refine ⟨_, done, left, fun keeps => ?_⟩
  have first := keeps.kept ⟨plainNode 0 "a", plainNode 1 "b-main-0-0-c", .main, 0, 0⟩ (.inr (by decide))
  rw [left] at first
  exact absurd first (by decide)

end N8n.PartialExecution
