import N8n.Distance
import N8n.OrderedSet
import N8n.PlainData
import N8n.Workflow

/-! The breadth-first search for the nodes connected to a node. A level of the queue is gone through
at a time; a node that has been visited collects the indexes of the connections that are found to it
later. With a depth limit the nodes at that depth still put their connections on the queue, and what
is on the queue by then is dropped. -/

namespace N8n.SearchNodesBFS

open List Option OrderedMap

structure IConnectedNode where
  name : String
  indicies : List ℕ
  depth : ℕ
  deriving DecidableEq

/-- The nodes in `returnConns` are those under the same names in `visited`. -/
structure SearchState where
  visited : OrderedMap String IConnectedNode
  returnConns : List String
  queue : List IConnectedNode
  deriving DecidableEq

def mainConnections (connections : IConnections) (name : String) : List IConnection :=
  (((connections.get name).bind (·.get .main)).getD []).flatMap (·.getD [])

def dedupe (indicies : List ℕ) : List ℕ := (OrderedSet.ofList indicies).elements

namespace SearchState

def collect (s : SearchState) (node curr : IConnectedNode) : SearchState :=
  { s with
    visited := s.visited.set curr.name { node with indicies := dedupe (node.indicies ++ curr.indicies) } }

def enter (s : SearchState) (connections : IConnections) (sourceNode : String) (depth : ℕ)
    (curr : IConnectedNode) : SearchState where
  visited := s.visited.set curr.name curr
  returnConns := if curr.name ≠ sourceNode then s.returnConns ++ [curr.name] else s.returnConns
  queue := s.queue ++ (mainConnections connections curr.name).map fun connection =>
    ⟨connection.node, [connection.index], depth⟩

end SearchState

/-- One entry of the queue. Under the name of an inherited member `visited` has something that is no
node and lacks `indicies`; and no own key of the map of connections may hide `hasOwnProperty`. -/
def visit (connections : IConnections) (sourceNode : String) (depth : ℕ) (s : SearchState)
    (curr : IConnectedNode) : Option SearchState :=
  if curr.name ∈ PlainData.objectPrototype then none
  else match s.visited.get curr.name with
    | some node => some (s.collect node curr)
    | none =>
      if connections.has "hasOwnProperty" then none
      else some (s.enter connections sourceNode depth curr)

/-- A level of the queue for each unit of `fuel`. A level is not empty only where a node with connections
was visited in the one before, so `fuel` never runs out when it exceeds the number of such nodes. -/
def levels (connections : IConnections) (sourceNode : String) (maxDepth : ℤ) :
    (fuel depth : ℕ) → SearchState → Option SearchState
  | 0, _, s => some s
  | fuel + 1, depth, s =>
    if s.queue = [] then some s
    else if maxDepth ≠ -1 ∧ maxDepth < depth then some s
    else
      (s.queue.foldlM (visit connections sourceNode (depth + 1)) { s with queue := [] }).bind
        (levels connections sourceNode maxDepth fuel (depth + 1))

/-- `none` where the search throws. -/
def searchNodesBFS (connections : IConnections) (sourceNode : String) (maxDepth : ℤ) : Option (List IConnectedNode) :=
  (levels connections sourceNode maxDepth (connections.entries.length + 1) 0 ⟨.empty, [], [⟨sourceNode, [], 0⟩]⟩).map
    fun s => s.returnConns.filterMap s.visited.get

def getParentNodesByDepth (w : Workflow) (nodeName : String) (maxDepth : ℤ) : Option (List IConnectedNode) :=
  searchNodesBFS w.connectionsByDestinationNode nodeName maxDepth

/-! ## What one level does -/

def depthOf (s : SearchState) (name : String) : ℕ := ((s.visited.get name).map (·.depth)).getD 0

structure Shows (sourceNode : String) (entries : List IConnectedNode) (s : SearchState) : Prop where
  visited : ∀ name, s.visited.has name = true ↔ ∃ e ∈ entries, e.name = name
  name : ∀ name node, s.visited.get name = some node → node.name = name
  indicies : ∀ name node, s.visited.get name = some node → node.indicies.Nodup ∧
    ∀ i, i ∈ node.indicies ↔ ∃ e ∈ entries, e.name = name ∧ i ∈ e.indicies
  depth : ∀ name node, s.visited.get name = some node → (∃ e ∈ entries, e.name = name ∧ e.depth = node.depth) ∧
    ∀ e ∈ entries, e.name = name → node.depth ≤ e.depth
  distinct : s.returnConns.Nodup
  listed : ∀ name, name ∈ s.returnConns ↔ name ≠ sourceNode ∧ s.visited.has name = true
  sorted : s.returnConns.Pairwise fun a b => depthOf s a ≤ depthOf s b

variable {connections : IConnections} {sourceNode : String} {maxDepth : ℤ} {depth k : ℕ} {s : SearchState}
  {curr : IConnectedNode} {entries queue : List IConnectedNode} {a b : String} {i : ℕ}

theorem exists_concat {p : IConnectedNode → Prop} : (∃ e ∈ entries ++ [curr], p e) ↔ (∃ e ∈ entries, p e) ∨ p curr := by
  simp [or_and_right, exists_or]

theorem dedupe_nodup (indicies : List ℕ) : (dedupe indicies).Nodup := (OrderedSet.ofList indicies).nodup

theorem mem_dedupe {indicies : List ℕ} : i ∈ dedupe indicies ↔ i ∈ indicies := OrderedSet.mem_ofList

variable {name : String} {node : IConnectedNode}

theorem Shows.indicies_other (shows_ : Shows sourceNode entries s)
    (same : name ≠ curr.name) (old : s.visited.get name = some node) :
    node.indicies.Nodup ∧ ∀ i, i ∈ node.indicies ↔ ∃ e ∈ entries ++ [curr], e.name = name ∧ i ∈ e.indicies := by
  refine ⟨(shows_.indicies name node old).1, fun i => ?_⟩
  rw [(shows_.indicies name node old).2, exists_concat, or_iff_left fun h => same h.1.symm]

theorem Shows.depth_other (shows_ : Shows sourceNode entries s)
    (same : name ≠ curr.name) (old : s.visited.get name = some node) :
    (∃ e ∈ entries ++ [curr], e.name = name ∧ e.depth = node.depth) ∧
      ∀ e ∈ entries ++ [curr], e.name = name → node.depth ≤ e.depth := by
  obtain ⟨⟨e, member, sameName, sameDepth⟩, least⟩ := shows_.depth name node old
  refine ⟨⟨e, mem_append_left _ member, sameName, sameDepth⟩, fun e' member' sameName' => ?_⟩
  rcases mem_append.mp member' with old | last
  · exact least e' old sameName'
  · obtain rfl := mem_singleton.mp last
    exact absurd sameName'.symm same

theorem has_collect (found : s.visited.get curr.name = some node) (name : String) :
    (s.collect node curr).visited.has name = s.visited.has name := by
  rw [OrderedMap.has, OrderedMap.has, SearchState.collect, get_set]
  split_ifs with same
  · rw [same, found]
    rfl
  · rfl

theorem has_enter (connections : IConnections) (sourceNode : String) (depth : ℕ) (s : SearchState)
    (curr : IConnectedNode) (name : String) :
    (s.enter connections sourceNode depth curr).visited.has name = true ↔
      s.visited.has name = true ∨ name = curr.name := by
  rw [OrderedMap.has, OrderedMap.has, SearchState.enter, get_set]
  split_ifs with same
  · simp [same]
  · simp [same]

theorem depthOf_collect (found : s.visited.get curr.name = some node) (name : String) :
    depthOf (s.collect node curr) name = depthOf s name := by
  rw [depthOf, depthOf, SearchState.collect, get_set]
  split_ifs with same
  · rw [same, found]
    rfl
  · rfl

theorem depthOf_enter (other : name ≠ curr.name) :
    depthOf (s.enter connections sourceNode depth curr) name = depthOf s name := by
  rw [depthOf, depthOf, SearchState.enter, get_set_ne _ _ other]

theorem depthOf_enter_self : depthOf (s.enter connections sourceNode depth curr) curr.name = curr.depth := by
  rw [depthOf, SearchState.enter, get_set, if_pos rfl]
  rfl

section

variable (shows_ : Shows sourceNode entries s)
include shows_

theorem Shows.depthOf_le (late : ∀ e ∈ entries, e.depth ≤ k) (member : name ∈ s.returnConns) : depthOf s name ≤ k := by
  obtain ⟨node, found⟩ := isSome_iff_exists.mp ((shows_.listed name).mp member).2
  obtain ⟨⟨e, inside, _, sameDepth⟩, _⟩ := shows_.depth name node found
  rw [depthOf, found, map_some, getD_some, ← sameDepth]
  exact late e inside

theorem Shows.collect (late : ∀ e ∈ entries, e.depth ≤ curr.depth) (found : s.visited.get curr.name = some node) :
    Shows sourceNode (entries ++ [curr]) (s.collect node curr) := by
  have known : ∃ e ∈ entries, e.name = curr.name := (shows_.visited curr.name).mp (by simp [OrderedMap.has, found])
  have has := has_collect found
  have get (name : String) (other : IConnectedNode) (there : (s.collect node curr).visited.get name = some other) :
      name = curr.name ∧ other = { node with indicies := dedupe (node.indicies ++ curr.indicies) } ∨
        name ≠ curr.name ∧ s.visited.get name = some other := by
    rw [SearchState.collect, get_set] at there
    split_ifs at there with same
    · exact .inl ⟨same, (some.inj there).symm⟩
    · exact .inr ⟨same, there⟩
  constructor
  · intro name
    rw [has, shows_.visited, exists_concat, or_iff_left_of_imp]
    exact fun same => same ▸ known
  · intro name other there
    rcases get name other there with ⟨rfl, rfl⟩ | ⟨_, old⟩
    · exact shows_.name _ node found
    · exact shows_.name name other old
  · intro name other there
    rcases get name other there with ⟨rfl, rfl⟩ | ⟨same, old⟩
    · refine ⟨dedupe_nodup _, fun i => ?_⟩
      rw [mem_dedupe, mem_append, (shows_.indicies _ node found).2, exists_concat, and_iff_right rfl]
    · exact shows_.indicies_other same old
  · intro name other there
    rcases get name other there with ⟨rfl, rfl⟩ | ⟨same, old⟩
    · obtain ⟨⟨e, member, sameName, sameDepth⟩, least⟩ := shows_.depth _ node found
      refine ⟨⟨e, mem_append_left _ member, sameName, sameDepth⟩, fun e' member' sameName' => ?_⟩
      rcases mem_append.mp member' with old | last
      · exact least e' old sameName'
      · obtain rfl := mem_singleton.mp last
        exact sameDepth ▸ late e member
    · exact shows_.depth_other same old
  · exact shows_.distinct
  · intro name
    rw [has]
    exact shows_.listed name
  · exact shows_.sorted.imp fun le => by rwa [depthOf_collect found, depthOf_collect found]

theorem Shows.enter (late : ∀ e ∈ entries, e.depth ≤ curr.depth)
    (distinct : curr.indicies.Nodup) (fresh : s.visited.get curr.name = none) :
    Shows sourceNode (entries ++ [curr]) (s.enter connections sourceNode depth curr) := by
  have unknown : ∀ e ∈ entries, e.name ≠ curr.name := by
    intro e member same
    have there := (shows_.visited curr.name).mpr ⟨e, member, same⟩
    simp [OrderedMap.has, fresh] at there
  have has := has_enter connections sourceNode depth s curr
  have get (name : String) (other : IConnectedNode)
      (there : (s.enter connections sourceNode depth curr).visited.get name = some other) :
      name = curr.name ∧ other = curr ∨ name ≠ curr.name ∧ s.visited.get name = some other := by
    rw [SearchState.enter, get_set] at there
    split_ifs at there with same
    · exact .inl ⟨same, (some.inj there).symm⟩
    · exact .inr ⟨same, there⟩
  have outside : curr.name ∉ s.returnConns := fun member => by
    have there := ((shows_.listed curr.name).mp member).2
    simp [OrderedMap.has, fresh] at there
  constructor
  · intro name
    rw [has, shows_.visited, exists_concat, eq_comm]
  · intro name other there
    rcases get name other there with ⟨rfl, rfl⟩ | ⟨_, old⟩
    · rfl
    · exact shows_.name name other old
  · intro name other there
    rcases get name other there with ⟨rfl, rfl⟩ | ⟨same, old⟩
    · refine ⟨distinct, fun i => ?_⟩
      rw [exists_concat, and_iff_right rfl, or_iff_right]
      rintro ⟨e, member, sameName, _⟩
      exact unknown e member sameName
    · exact shows_.indicies_other same old
  · intro name other there
    rcases get name other there with ⟨rfl, rfl⟩ | ⟨same, old⟩
    · refine ⟨⟨other, by simp, rfl, rfl⟩, fun e member sameName => ?_⟩
      rcases mem_append.mp member with old | last
      · exact absurd sameName (unknown e old)
      · rw [mem_singleton.mp last]
    · exact shows_.depth_other same old
  · rw [SearchState.enter]
    split_ifs
    · exact shows_.distinct.append (nodup_singleton _) (disjoint_singleton.mpr outside)
    · exact shows_.distinct
  · intro name
    rw [has, SearchState.enter]
    split_ifs with isOther
    · rw [mem_append, shows_.listed, mem_singleton]
      by_cases same : name = curr.name
      · simp [same, isOther]
      · simp [same]
    · rw [shows_.listed]
      have same : name ≠ sourceNode → name ≠ curr.name := fun other eq => isOther (eq ▸ other)
      tauto
  · have old : s.returnConns.Pairwise fun a b => depthOf (s.enter connections sourceNode depth curr) a ≤
        depthOf (s.enter connections sourceNode depth curr) b := by
      refine shows_.sorted.imp_of_mem fun {a b} inA inB le => ?_
      rwa [depthOf_enter fun same => outside (same ▸ inA), depthOf_enter fun same => outside (same ▸ inB)]
    have returned : (s.enter connections sourceNode depth curr).returnConns =
        if curr.name ≠ sourceNode then s.returnConns ++ [curr.name] else s.returnConns := rfl
    rw [returned]
    split_ifs
    · refine pairwise_append.mpr ⟨old, pairwise_singleton _ _, fun name member last isLast => ?_⟩
      rw [mem_singleton.mp isLast, depthOf_enter_self, depthOf_enter fun same => outside (same ▸ member)]
      exact shows_.depthOf_le late member
    · exact old

end

theorem foldlM_visit (depth : ℕ) (plain : ∀ e ∈ queue, e.name ∉ PlainData.objectPrototype)
    (own : connections.has "hasOwnProperty" = false) (level : ∀ e ∈ queue, e.depth = k ∧ e.indicies.Nodup)
    (late : ∀ e ∈ entries, e.depth ≤ k) (shows_ : Shows sourceNode entries s) :
    ∃ next, queue.foldlM (visit connections sourceNode depth) s = some next ∧ Shows sourceNode (entries ++ queue) next ∧
      ∀ e, e ∈ next.queue ↔ e ∈ s.queue ∨ ∃ name, (∃ e ∈ queue, e.name = name) ∧ s.visited.has name = false ∧
        ∃ c ∈ mainConnections connections name, e = ⟨c.node, [c.index], depth⟩ := by
  induction queue generalizing s entries with
  | nil => exact ⟨s, rfl, by simpa using shows_, by simp⟩
  | cons curr rest ih =>
    have plain' := plain curr mem_cons_self
    obtain ⟨atLevel, distinct⟩ := level curr mem_cons_self
    have late' : ∀ e ∈ entries, e.depth ≤ curr.depth := fun e member => atLevel ▸ late e member
    have lateNext : ∀ e ∈ entries ++ [curr], e.depth ≤ k := by
      intro e member
      rcases mem_append.mp member with old | last
      · exact late e old
      · rw [mem_singleton.mp last, atLevel]
    have rest_ := fun {s : SearchState} => ih (s := s) (fun e member => plain e (mem_cons_of_mem _ member))
      (fun e member => level e (mem_cons_of_mem _ member)) lateNext
    cases found : s.visited.get curr.name with
    | some node =>
      obtain ⟨next, done, after, pushed⟩ := rest_ (shows_.collect late' found)
      refine ⟨next, ?_, by simpa using after, fun e => ?_⟩
      · rw [foldlM_cons, visit, if_neg plain', found]
        exact done
      · have known : s.visited.has curr.name = true := by rw [OrderedMap.has, found, isSome_some]
        rw [pushed, SearchState.collect]
        refine or_congr_right (exists_congr fun name => ?_)
        rw [← SearchState.collect, has_collect found, exists_mem_cons_iff]
        refine and_congr_left fun fresh => (or_iff_right fun same => ?_).symm
        rw [← same, known] at fresh
        cases fresh.1
    | none =>
      obtain ⟨next, done, after, pushed⟩ := rest_ (shows_.enter late' distinct found)
      refine ⟨next, ?_, by simpa using after, fun e => ?_⟩
      · rw [foldlM_cons, visit, if_neg plain', found]
        simp only [own, Bool.false_eq_true, if_false]
        exact done
      · have unknown : s.visited.has curr.name = false := by rw [OrderedMap.has, found, isSome_none]
        have fresh (name : String) : (s.enter connections sourceNode depth curr).visited.has name = false ↔
            s.visited.has name = false ∧ name ≠ curr.name := by
          rw [← Bool.not_eq_true, has_enter, not_or, Bool.not_eq_true]
        have queued : e ∈ (s.enter connections sourceNode depth curr).queue ↔ e ∈ s.queue ∨
            ∃ c ∈ mainConnections connections curr.name, e = ⟨c.node, [c.index], depth⟩ := by
          simp [SearchState.enter, eq_comm]
        simp only [pushed, fresh, queued, exists_mem_cons_iff]
        constructor
        · rintro ((old | ⟨c, here, rfl⟩) | ⟨name, inRest, ⟨new, _⟩, c, here, rfl⟩)
          · exact .inl old
          · exact .inr ⟨curr.name, .inl rfl, unknown, c, here, rfl⟩
          · exact .inr ⟨name, .inr inRest, new, c, here, rfl⟩
        · rintro (old | ⟨name, named, new, c, here, rfl⟩)
          · exact .inl (.inl old)
          · by_cases same : name = curr.name
            · exact .inl (.inr ⟨c, same ▸ here, rfl⟩)
            · exact .inr ⟨name, named.resolve_left (Ne.symm same), ⟨new, same⟩, c, here, rfl⟩

/-! ## The levels -/

def Leads (connections : IConnections) (a b : String) : Prop := ∃ c ∈ mainConnections connections a, c.node = b

def Entry (connections : IConnections) (sourceNode : String) (n : ℕ) (e : IConnectedNode) : Prop :=
  e = ⟨sourceNode, [], 0⟩ ∧ n = 0 ∨ ∃ a j c, IsDistance (Leads connections) sourceNode a j ∧ j + 1 = n ∧
    c ∈ mainConnections connections a ∧ e = ⟨c.node, [c.index], n⟩

variable {e : IConnectedNode}

theorem Entry.level (entry : Entry connections sourceNode k e) : e.depth = k ∧ e.indicies.Nodup := by
  rcases entry with ⟨rfl, rfl⟩ | ⟨a, j, c, _, _, _, rfl⟩
  · exact ⟨rfl, nodup_nil⟩
  · exact ⟨rfl, nodup_singleton _⟩

theorem Entry.distance (entry : Entry connections sourceNode k e) :
    ∃ j, j ≤ k ∧ IsDistance (Leads connections) sourceNode e.name j := by
  rcases entry with ⟨rfl, rfl⟩ | ⟨a, j, c, found, rfl, inside, rfl⟩
  · exact ⟨0, Nat.le_refl 0, IsDistance.self _ _⟩
  · exact found.succ_le ⟨c, inside, rfl⟩

theorem entry_of_distance (distance : IsDistance (Leads connections) sourceNode name k) :
    ∃ e, Entry connections sourceNode k e ∧ e.name = name := by
  cases k with
  | zero => exact ⟨_, .inl ⟨rfl, rfl⟩, (IsDistance.zero_iff.mp distance).symm⟩
  | succ n =>
    obtain ⟨a, found, c, inside, rfl⟩ := distance.pred
    exact ⟨_, .inr ⟨a, n, c, found, rfl, inside, rfl⟩, rfl⟩

structure Level (connections : IConnections) (sourceNode : String) (k : ℕ) (entries : List IConnectedNode)
    (s : SearchState) : Prop where
  shows_ : Shows sourceNode entries s
  entries : ∀ e, e ∈ entries ↔ ∃ n, n < k ∧ Entry connections sourceNode n e
  queue : ∀ e, e ∈ s.queue ↔ Entry connections sourceNode k e

theorem Level.visited (level : Level connections sourceNode k entries s) (name : String) :
    s.visited.has name = true ↔ ∃ j, j < k ∧ IsDistance (Leads connections) sourceNode name j := by
  rw [level.shows_.visited]
  constructor
  · rintro ⟨e, member, rfl⟩
    obtain ⟨n, below, entry⟩ := (level.entries e).mp member
    obtain ⟨j, upTo, distance⟩ := entry.distance
    exact ⟨j, Nat.lt_of_le_of_lt upTo below, distance⟩
  · rintro ⟨j, below, distance⟩
    obtain ⟨e, entry, named⟩ := entry_of_distance distance
    exact ⟨e, (level.entries e).mpr ⟨j, below, entry⟩, named⟩

theorem Level.start (connections : IConnections) (sourceNode : String) :
    Level connections sourceNode 0 [] ⟨.empty, [], [⟨sourceNode, [], 0⟩]⟩ where
  shows_ := by
    constructor <;> simp [OrderedMap.has, OrderedMap.get, OrderedMap.empty, OrderedMap.getEntry]
  entries e := by simp
  queue e := by simp [Entry]

theorem Level.fresh_iff (level : Level connections sourceNode k entries s) (name : String) :
    (∃ e ∈ s.queue, e.name = name) ∧ s.visited.has name = false ↔ IsDistance (Leads connections) sourceNode name k := by
  rw [← Bool.not_eq_true, level.visited]
  constructor
  · rintro ⟨⟨e, member, rfl⟩, unknown⟩
    obtain ⟨j, upTo, distance⟩ := ((level.queue e).mp member).distance
    rcases Nat.eq_or_lt_of_le upTo with rfl | less
    · exact distance
    · exact absurd ⟨j, less, distance⟩ unknown
  · intro distance
    obtain ⟨e, entry, named⟩ := entry_of_distance distance
    refine ⟨⟨e, (level.queue e).mpr entry, named⟩, fun ⟨j, less, nearer⟩ => ?_⟩
    exact Nat.ne_of_lt less (nearer.unique distance)

theorem Level.next (level : Level connections sourceNode k entries s)
    (plain : ∀ e ∈ s.queue, e.name ∉ PlainData.objectPrototype) (own : connections.has "hasOwnProperty" = false) :
    ∃ next, s.queue.foldlM (visit connections sourceNode (k + 1)) { s with queue := [] } = some next ∧
      Level connections sourceNode (k + 1) (entries ++ s.queue) next := by
  have late : ∀ e ∈ entries, e.depth ≤ k := by
    intro e member
    obtain ⟨n, below, entry⟩ := (level.entries e).mp member
    rw [entry.level.1]
    exact Nat.le_of_lt below
  have atLevel : ∀ e ∈ s.queue, e.depth = k ∧ e.indicies.Nodup := fun e member =>
    Entry.level ((level.queue e).mp member)
  have emptied : Shows sourceNode entries { s with queue := [] } := ⟨level.shows_.visited, level.shows_.name,
    level.shows_.indicies, level.shows_.depth, level.shows_.distinct, level.shows_.listed, level.shows_.sorted⟩
  obtain ⟨next, done, after, pushed⟩ := foldlM_visit (k + 1) plain own atLevel late emptied
  refine ⟨next, done, after, fun e => ?_, fun e => ?_⟩
  · rw [mem_append, level.entries, level.queue]
    constructor
    · rintro (⟨n, below, entry⟩ | entry)
      · exact ⟨n, by omega, entry⟩
      · exact ⟨k, by omega, entry⟩
    · rintro ⟨n, below, entry⟩
      rcases Nat.lt_succ_iff_lt_or_eq.mp below with less | rfl
      · exact .inl ⟨n, less, entry⟩
      · exact .inr entry
  · have fresh := level.fresh_iff
    rw [pushed, Entry]
    constructor
    · rintro (old | ⟨name, named, unknown, c, inside, rfl⟩)
      · cases old
      · exact .inr ⟨name, k, c, (fresh name).mp ⟨named, unknown⟩, rfl, inside, rfl⟩
    · rintro (⟨_, zero⟩ | ⟨a, j, c, distance, same, inside, rfl⟩)
      · cases zero
      · obtain rfl := Nat.succ.inj same
        obtain ⟨named, unknown⟩ := (fresh a).mpr distance
        exact .inr ⟨a, named, unknown, c, inside, rfl⟩

/-! ## The whole search -/

def Within (maxDepth : ℤ) (n : ℕ) : Prop := maxDepth = -1 ∨ (n : ℤ) ≤ maxDepth

structure Stopped (connections : IConnections) (sourceNode : String) (maxDepth : ℤ) (k : ℕ)
    (entries : List IConnectedNode) (s : SearchState) : Prop where
  level : Level connections sourceNode k entries s
  limit : k = 0 ∨ maxDepth = -1 ∨ (k : ℤ) ≤ maxDepth + 1
  stopped : s.queue = [] ∨ maxDepth ≠ -1 ∧ maxDepth < k

theorem Leads.isKey (leads : Leads connections a b) : a ∈ connections.entries.map Prod.fst := by
  obtain ⟨c, inside, _⟩ := leads
  by_contra absent
  have none := connections.get_eq_none_iff.mpr absent
  simp [mainConnections, none] at inside

theorem levels_stopped {fuel : ℕ} (own : connections.has "hasOwnProperty" = false)
    (plain : ∀ name n, IsDistance (Leads connections) sourceNode name n → Within maxDepth n →
      name ∉ PlainData.objectPrototype) (enough : k + fuel = connections.entries.length + 1)
    (limit : k = 0 ∨ maxDepth = -1 ∨ (k : ℤ) ≤ maxDepth + 1) (level : Level connections sourceNode k entries s) :
    ∃ last depth entries, levels connections sourceNode maxDepth fuel k s = some last ∧
      Stopped connections sourceNode maxDepth depth entries last := by
  induction fuel generalizing k s entries with
  | zero =>
    refine ⟨s, k, entries, rfl, level, limit, .inl ?_⟩
    rw [eq_nil_iff_forall_not_mem]
    intro e member
    rcases (level.queue e).mp member with ⟨_, zero⟩ | ⟨a, j, c, distance, same, inside, _⟩
    · omega
    · have fewer := distance.lt_length ⟨c, inside, rfl⟩ fun _ _ leads => leads.isKey
      rw [length_map] at fewer
      omega
  | succ fuel ih =>
    rw [levels]
    by_cases done : s.queue = []
    · exact ⟨s, k, entries, if_pos done, level, limit, .inl done⟩
    rw [if_neg done]
    by_cases deep : maxDepth ≠ -1 ∧ maxDepth < k
    · exact ⟨s, k, entries, if_pos deep, level, limit, .inr deep⟩
    rw [if_neg deep]
    have within : Within maxDepth k := by
      rw [Within]
      omega
    have plain' : ∀ e ∈ s.queue, e.name ∉ PlainData.objectPrototype := by
      intro e member
      obtain ⟨j, upTo, distance⟩ := ((level.queue e).mp member).distance
      refine plain e.name j distance ?_
      rw [Within] at within ⊢
      omega
    obtain ⟨next, run, level'⟩ := level.next plain' own
    rw [run]
    refine ih (by omega) ?_ level'
    rw [Within] at within
    omega

theorem Stopped.lt_iff (stop : Stopped connections sourceNode maxDepth k entries s) {n : ℕ}
    (entry : Entry connections sourceNode n e) : n < k ↔ Within maxDepth n := by
  rcases stop.stopped with empty | ⟨limited, beyond⟩
  · have none (e : IConnectedNode) : ¬Entry connections sourceNode k e := by
      rw [← stop.level.queue, empty]
      exact not_mem_nil
    have positive : k ≠ 0 := by
      rintro rfl
      exact none _ (.inl ⟨rfl, rfl⟩)
    have below : n < k := by
      by_contra above
      rcases entry with ⟨_, rfl⟩ | ⟨a, j, c, distance, rfl, inside, _⟩
      · omega
      · obtain ⟨d, nearer, _, c', inside', _⟩ := distance.level (k := k - 1) ⟨c, inside, rfl⟩ (by omega)
        exact none _ (.inr ⟨d, k - 1, c', nearer, by omega, inside', rfl⟩)
    have limit := stop.limit
    rw [Within]
    omega
  · have limit := stop.limit
    rw [Within]
    omega

structure ListsDistances (connections : IConnections) (sourceNode : String) (maxDepth : ℤ)
    (returnConns : List IConnectedNode) : Prop where
  once : (returnConns.map (·.name)).Nodup
  listed : ∀ name depth, (∃ node ∈ returnConns, node.name = name ∧ node.depth = depth) ↔
    name ≠ sourceNode ∧ IsDistance (Leads connections) sourceNode name depth ∧ Within maxDepth depth
  sorted : returnConns.Pairwise (·.depth ≤ ·.depth)
  distinct : ∀ node ∈ returnConns, node.indicies.Nodup

section Result

variable (stop : Stopped connections sourceNode maxDepth k entries s)
include stop

variable {node : IConnectedNode}

theorem Stopped.depth_eq (found : s.visited.get name = some node) :
    IsDistance (Leads connections) sourceNode name node.depth ∧ node.depth < k := by
  have there : s.visited.has name = true := by rw [OrderedMap.has, found, isSome_some]
  obtain ⟨j, below, distance⟩ := (stop.level.visited name).mp there
  obtain ⟨⟨e, member, rfl, sameDepth⟩, least⟩ := stop.level.shows_.depth name node found
  obtain ⟨n, _, entry⟩ := (stop.level.entries e).mp member
  obtain ⟨j', upTo, distance'⟩ := entry.distance
  obtain ⟨e', entry', named⟩ := entry_of_distance distance
  have upper := least e' ((stop.level.entries e').mpr ⟨j, below, entry'⟩) named
  have same := distance.unique distance'
  rw [entry'.level.1] at upper
  rw [entry.level.1] at sameDepth
  obtain rfl : j = node.depth := by omega
  exact ⟨distance, below⟩

theorem Stopped.mem_iff : node ∈ s.returnConns.filterMap s.visited.get ↔
    node.name ≠ sourceNode ∧ s.visited.get node.name = some node := by
  rw [mem_filterMap]
  constructor
  · rintro ⟨name, member, found⟩
    obtain rfl := stop.level.shows_.name name node found
    exact ⟨((stop.level.shows_.listed _).mp member).1, found⟩
  · rintro ⟨other, found⟩
    refine ⟨node.name, (stop.level.shows_.listed _).mpr ⟨other, ?_⟩, found⟩
    rw [OrderedMap.has, found, isSome_some]

theorem Stopped.listsDistances :
    ListsDistances connections sourceNode maxDepth (s.returnConns.filterMap s.visited.get) := by
  constructor
  · have names : (s.returnConns.filterMap s.visited.get).map (·.name) = s.returnConns := by
      have each (name : String) (member : name ∈ s.returnConns) : (s.visited.get name).map (·.name) = some name := by
        obtain ⟨node, found⟩ := isSome_iff_exists.mp ((stop.level.shows_.listed name).mp member).2
        rw [found, map_some, stop.level.shows_.name name node found]
      rw [map_filterMap, filterMap_congr each, filterMap_some]
    rw [names]
    exact stop.level.shows_.distinct
  · intro name depth
    constructor
    · rintro ⟨node, member, rfl, rfl⟩
      obtain ⟨other, found⟩ := stop.mem_iff.mp member
      obtain ⟨distance, below⟩ := stop.depth_eq found
      obtain ⟨e, entry, _⟩ := entry_of_distance distance
      exact ⟨other, distance, (stop.lt_iff entry).mp below⟩
    · rintro ⟨other, distance, within⟩
      obtain ⟨e, entry, _⟩ := entry_of_distance distance
      have there := (stop.level.visited name).mpr ⟨depth, (stop.lt_iff entry).mpr within, distance⟩
      obtain ⟨node, found⟩ := isSome_iff_exists.mp there
      obtain rfl := stop.level.shows_.name name node found
      exact ⟨node, stop.mem_iff.mpr ⟨other, found⟩, rfl, (stop.depth_eq found).1.unique distance⟩
  · rw [pairwise_filterMap]
    refine stop.level.shows_.sorted.imp fun le node found node' found' => ?_
    simpa only [depthOf, found, found', map_some, getD_some] using le
  · intro node member
    exact (stop.level.shows_.indicies _ node (stop.mem_iff.mp member).2).1

theorem Stopped.mem_indicies (member : node ∈ s.returnConns.filterMap s.visited.get) :
    i ∈ node.indicies ↔ ∃ a depth c, IsDistance (Leads connections) sourceNode a depth ∧
      Within maxDepth (depth + 1) ∧ c ∈ mainConnections connections a ∧ c.node = node.name ∧ c.index = i := by
  obtain ⟨other, found⟩ := stop.mem_iff.mp member
  rw [(stop.level.shows_.indicies _ node found).2]
  constructor
  · rintro ⟨e, inE, named, isIndex⟩
    obtain ⟨n, below, entry⟩ := (stop.level.entries e).mp inE
    have within := (stop.lt_iff entry).mp below
    rcases entry with ⟨rfl, _⟩ | ⟨a, j, c, distance, rfl, inside, rfl⟩
    · cases isIndex
    · exact ⟨a, j, c, distance, within, inside, named, (mem_singleton.mp isIndex).symm⟩
  · rintro ⟨a, j, c, distance, within, inside, named, rfl⟩
    have entry : Entry connections sourceNode (j + 1) ⟨c.node, [c.index], j + 1⟩ :=
      .inr ⟨a, j, c, distance, rfl, inside, rfl⟩
    exact ⟨_, (stop.level.entries _).mpr ⟨_, (stop.lt_iff entry).mpr within, entry⟩, named, mem_singleton_self _⟩

end Result

/-- As long as no name that is met is the name of an inherited member. -/
theorem searchNodesBFS_distances (own : connections.has "hasOwnProperty" = false)
    (plain : ∀ name n, IsDistance (Leads connections) sourceNode name n → Within maxDepth n →
      name ∉ PlainData.objectPrototype) :
    ∃ returnConns, searchNodesBFS connections sourceNode maxDepth = some returnConns ∧
      ListsDistances connections sourceNode maxDepth returnConns ∧
      ∀ node ∈ returnConns, ∀ i, i ∈ node.indicies ↔ ∃ a depth c,
        IsDistance (Leads connections) sourceNode a depth ∧ Within maxDepth (depth + 1) ∧
          c ∈ mainConnections connections a ∧ c.node = node.name ∧ c.index = i := by
  obtain ⟨last, k, entries, run, stop⟩ := levels_stopped own plain (Nat.zero_add _) (.inl rfl)
    (Level.start connections sourceNode)
  exact ⟨_, by rw [searchNodesBFS, run, map_some], stop.listsDistances, fun node member i =>
    stop.mem_indicies member⟩

/-- `s` leads to `a` and `b`, and `a` to another input of `b`. -/
def triangle : IConnections := ⟨[
  ("s", ⟨[(.main, [some [⟨"a", .main, 0⟩, ⟨"b", .main, 0⟩]])], by decide⟩),
  ("a", ⟨[(.main, [some [⟨"b", .main, 1⟩]])], by decide⟩)], by decide⟩

theorem triangle_leads (leads : Leads triangle a b) : b ∈ ["a", "b"] := by
  have isKey : a ∈ ["s", "a"] := leads.isKey
  obtain ⟨c, inside, rfl⟩ := leads
  have targets : ∀ name ∈ ["s", "a"], ∀ c ∈ mainConnections triangle name, c.node ∈ ["a", "b"] := by decide
  exact targets a isKey c inside

theorem triangle_distances : ∃ returnConns, searchNodesBFS triangle "s" 1 = some returnConns ∧
    ListsDistances triangle "s" 1 returnConns := by
  obtain ⟨returnConns, run, lists, _⟩ :=
    @searchNodesBFS_distances triangle "s" 1 (by decide) fun name n distance _ => by
      cases n with
      | zero => exact IsDistance.zero_iff.mp distance ▸ by decide
      | succ n =>
        obtain ⟨a, _, leads⟩ := distance.pred
        have names : ∀ name ∈ ["a", "b"], name ∉ PlainData.objectPrototype := by decide
        exact names name (triangle_leads leads)
  exact ⟨returnConns, run, lists⟩

def ComputesDistances (connections : IConnections) (sourceNode : String) (maxDepth : ℤ) : Prop :=
  ∃ returnConns, searchNodesBFS connections sourceNode maxDepth = some returnConns ∧
    ListsDistances connections sourceNode maxDepth returnConns ∧
    ∀ node ∈ returnConns, ∀ a depth c, IsDistance (Leads connections) sourceNode a depth → Within maxDepth depth →
      c ∈ mainConnections connections a → c.node = node.name → c.index ∈ node.indicies

def inheritedName : IConnections := ⟨[
  ("s", ⟨[(.main, [some [⟨"constructor", .main, 0⟩]])], by decide⟩)], by decide⟩

/-- At the limit the connection from `a` to `b` is dropped; a node `constructor` makes the search throw. -/
theorem dropped_and_throws : ¬ComputesDistances triangle "s" 1 ∧ ¬ComputesDistances inheritedName "s" (-1) := by
  constructor
  · rintro ⟨returnConns, run, _, complete⟩
    have found : searchNodesBFS triangle "s" 1 = some [⟨"a", [0], 1⟩, ⟨"b", [0], 1⟩] := by decide
    obtain rfl := some.inj (found.symm.trans run)
    have distance : IsDistance (Leads triangle) "s" "a" 1 := by
      refine ⟨⟨["a"], ⟨⟨⟨"a", .main, 0⟩, by decide, rfl⟩, rfl⟩, rfl⟩, fun path walk => ?_⟩
      cases path with
      | nil => exact absurd (show "s" = "a" from walk) (by decide)
      | cons next rest => exact Nat.le_add_left 1 _
    have member := complete ⟨"b", [0], 1⟩ (by decide) "a" 1 ⟨"b", .main, 1⟩ distance (.inr (by decide)) (by decide) rfl
    exact absurd member (by decide)
  · rintro ⟨returnConns, run, _⟩
    have throws : searchNodesBFS inheritedName "s" (-1) = none := by decide
    rw [throws] at run
    cases run

end N8n.SearchNodesBFS
