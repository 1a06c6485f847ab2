import N8n.GraphExecutionStack

/-! The groups of incoming connections. A round of the loop takes the connection at the next input
index, one with data before one without, or closes the group when there is none and starts over
at the smallest index that is left. -/

namespace N8n.WorkflowExecute

open List

/-! ## The loop -/

structure GroupLoop where
  sortedConnectionsWithData : List GraphConnection
  sortedConnectionsWithoutData : List GraphConnection
  groups : List SourceConnectionGroup
  currentGroup : SourceConnectionGroup
  currentInputIndex : ℤ

def GroupLoop.round (s : GroupLoop) : GroupLoop :=
  let currentInputIndex := s.currentInputIndex + 1
  match s.sortedConnectionsWithData.find? fun c => c.inputIndex = currentInputIndex with
  | some connection => { s with
      sortedConnectionsWithData := s.sortedConnectionsWithData.eraseP fun c => c.inputIndex = currentInputIndex
      currentGroup := { s.currentGroup with connections := s.currentGroup.connections ++ [connection] }
      currentInputIndex := currentInputIndex }
  | none =>
    match s.sortedConnectionsWithoutData.find? fun c => c.inputIndex = currentInputIndex with
    | some connection => { s with
        sortedConnectionsWithoutData :=
          s.sortedConnectionsWithoutData.eraseP fun c => c.inputIndex = currentInputIndex
        currentGroup := ⟨false, s.currentGroup.connections ++ [connection]⟩
        currentInputIndex := currentInputIndex }
    | none => { s with
        groups := s.groups ++ [s.currentGroup]
        currentGroup := newGroup
        currentInputIndex := minInputIndex (s.sortedConnectionsWithData ++ s.sortedConnectionsWithoutData) - 1 }

/-- What is returned when the loop ends within a number of rounds. -/
def GroupLoop.run : (rounds : ℕ) → GroupLoop → Option (List SourceConnectionGroup)
  | rounds, s =>
    if 0 < s.sortedConnectionsWithData.length ∨ 0 < s.sortedConnectionsWithoutData.length then
      match rounds with
      | 0 => none
      | rounds + 1 => s.round.run rounds
    else some (s.groups ++ [s.currentGroup])

/-- The groups that the rounds from a state on make. -/
inductive Grouping : (withData withoutData : List GraphConnection) → (current : SourceConnectionGroup) →
    (inputIndex : ℕ) → List SourceConnectionGroup → Prop
  | done (current : SourceConnectionGroup) (inputIndex : ℕ) : Grouping [] [] current inputIndex [current]
  | takeWithData {withData withoutData : List GraphConnection} {current : SourceConnectionGroup} {inputIndex : ℕ}
      {groups : List SourceConnectionGroup} {c : GraphConnection}
      (found : withData.find? (·.inputIndex = inputIndex) = some c)
      (rest : Grouping (withData.eraseP (·.inputIndex = inputIndex)) withoutData
        { current with connections := current.connections ++ [c] } (inputIndex + 1) groups) :
      Grouping withData withoutData current inputIndex groups
  | takeWithoutData {withData withoutData : List GraphConnection} {current : SourceConnectionGroup} {inputIndex : ℕ}
      {groups : List SourceConnectionGroup} {c : GraphConnection}
      (nothing : withData.find? (·.inputIndex = inputIndex) = none)
      (found : withoutData.find? (·.inputIndex = inputIndex) = some c)
      (rest : Grouping withData (withoutData.eraseP (·.inputIndex = inputIndex))
        ⟨false, current.connections ++ [c]⟩ (inputIndex + 1) groups) :
      Grouping withData withoutData current inputIndex groups
  | close {withData withoutData : List GraphConnection} {current : SourceConnectionGroup} {inputIndex : ℕ}
      {groups : List SourceConnectionGroup} (left : withData ++ withoutData ≠ [])
      (nothing : withData.find? (·.inputIndex = inputIndex) = none)
      (nothingWithout : withoutData.find? (·.inputIndex = inputIndex) = none)
      (rest : Grouping withData withoutData newGroup (minInputIndex (withData ++ withoutData)) groups) :
      Grouping withData withoutData current inputIndex (current :: groups)

variable {withData withoutData : List GraphConnection} {current group : SourceConnectionGroup} {inputIndex : ℕ}
  {groups : List SourceConnectionGroup} {c : GraphConnection} {hasData : GraphConnection → Bool}

theorem foldl_min_spec (xs : List ℕ) (start : ℕ) : xs.foldl min start ≤ start ∧ (∀ x ∈ xs, xs.foldl min start ≤ x) ∧
      (xs.foldl min start = start ∨ xs.foldl min start ∈ xs) := by
  induction xs generalizing start with
  | nil => simp
  | cons x xs ih =>
    obtain ⟨below, all, attained⟩ := ih (min start x)
    rw [foldl_cons]
    refine ⟨below.trans (min_le_left _ _), forall_mem_cons.mpr ⟨below.trans (min_le_right _ _), all⟩, ?_⟩
    rcases attained with same | member
    · rcases le_total start x with isStart | isHead
      · exact .inl (same.trans (min_eq_left isStart))
      · exact .inr (mem_cons.mpr (.inl (same.trans (min_eq_right isHead))))
    · exact .inr (mem_cons_of_mem _ member)

variable {connections : List GraphConnection} {p : GraphConnection → Bool}

theorem minInputIndex_spec (left : connections ≠ []) : (∀ c ∈ connections, minInputIndex connections ≤ c.inputIndex) ∧
      ∃ c ∈ connections, c.inputIndex = minInputIndex connections := by
  obtain ⟨first, rest, rfl⟩ := exists_cons_of_ne_nil left
  obtain ⟨_, all, attained⟩ := foldl_min_spec ((first :: rest).map (·.inputIndex)) first.inputIndex
  refine ⟨fun c member => all _ (List.mem_map.mpr ⟨c, member, rfl⟩), ?_⟩
  rcases attained with same | member
  · exact ⟨first, mem_cons_self, same.symm⟩
  · exact List.mem_map.mp member

theorem index_of_find?
    (found : connections.find? (·.inputIndex = inputIndex) = some c) : c.inputIndex = inputIndex := by
  simpa using find?_some found

theorem length_eraseP_of_find? (found : connections.find? p = some c) :
    (connections.eraseP p).length + 1 = connections.length := by
  have member := mem_of_find?_eq_some found
  have some := length_pos_of_mem member
  rw [length_eraseP_of_mem member (find?_some found)]
  omega

theorem groupConnections_grouping {fuel : ℕ} (enough : 2 * (withData ++ withoutData).length + 2 ≤ fuel ∨
      2 * (withData ++ withoutData).length + 1 ≤ fuel ∧
        ((withData ++ withoutData) = [] ∨ ∃ c ∈ withData ++ withoutData, c.inputIndex = inputIndex)) :
    Grouping withData withoutData current inputIndex
      (groupConnections fuel withData withoutData current inputIndex) := by
  induction fuel generalizing withData withoutData current inputIndex with
  | zero => omega
  | succ fuel ih =>
    rw [groupConnections]
    rw [length_append] at enough
    split
    · next empty =>
      obtain ⟨noneWith, noneWithout⟩ := empty
      obtain rfl := List.isEmpty_iff.mp noneWith
      obtain rfl := List.isEmpty_iff.mp noneWithout
      exact .done current inputIndex
    next some =>
    have left : withData ++ withoutData ≠ [] := by
      simpa [List.isEmpty_iff] using some
    split
    · next connection found =>
      have shorter := length_eraseP_of_find? found
      refine .takeWithData found (ih (.inl ?_))
      rw [length_append]
      omega
    · next nothing =>
      split
      · next connection found =>
        have shorter := length_eraseP_of_find? found
        refine .takeWithoutData nothing found (ih (.inl ?_))
        rw [length_append]
        omega
      · next nothingWithout =>
        refine .close left nothing nothingWithout (ih (.inr ⟨?_, .inr (minInputIndex_spec left).2⟩))
        rw [length_append]
        rcases enough with spare | ⟨_, empty | ⟨c, member, here⟩⟩
        · omega
        · exact absurd empty left
        · rcases mem_append.mp member with old | new
          · exact absurd (decide_eq_true here) (find?_eq_none.mp nothing c old)
          · exact absurd (decide_eq_true here) (find?_eq_none.mp nothingWithout c new)

theorem sameIndex (inputIndex : ℕ) :
    (fun c : GraphConnection => decide ((c.inputIndex : ℤ) = (inputIndex + 1 : ℕ) - 1)) =
      fun c => decide (c.inputIndex = inputIndex) := by
  funext c
  rw [decide_eq_decide]
  omega

theorem nextIndex (inputIndex : ℕ) : (inputIndex : ℤ) - 1 + 1 = (inputIndex + 1 : ℕ) - 1 := by omega

theorem GroupLoop.run_succ {s : GroupLoop} {rounds : ℕ} {result : List SourceConnectionGroup}
    (left : s.sortedConnectionsWithData ++ s.sortedConnectionsWithoutData ≠ [])
    (ends : s.round.run rounds = some result) : s.run (rounds + 1) = some result := by
  rw [ne_eq, append_eq_nil_iff, not_and_or] at left
  rw [GroupLoop.run, if_pos (left.imp length_pos_iff.mpr length_pos_iff.mpr)]
  exact ends

theorem Grouping.run (grouping : Grouping withData withoutData current inputIndex groups)
    (before : List SourceConnectionGroup) :
    ∃ rounds,
      GroupLoop.run rounds ⟨withData, withoutData, before, current, inputIndex - 1⟩ = some (before ++ groups) := by
  induction grouping generalizing before with
  | done current inputIndex => exact ⟨0, rfl⟩
  | takeWithData found rest ih =>
    obtain ⟨rounds, ends⟩ := ih before
    refine ⟨rounds + 1, GroupLoop.run_succ (append_ne_nil_of_left_ne_nil (ne_nil_of_mem
      (mem_of_find?_eq_some found)) _) ?_⟩
    simp only [GroupLoop.round, nextIndex, sameIndex, found]
    exact ends
  | takeWithoutData nothing found rest ih =>
    obtain ⟨rounds, ends⟩ := ih before
    refine ⟨rounds + 1, GroupLoop.run_succ (append_ne_nil_of_right_ne_nil _ (ne_nil_of_mem
      (mem_of_find?_eq_some found))) ?_⟩
    simp only [GroupLoop.round, nextIndex, sameIndex, nothing, found]
    exact ends
  | @close withData withoutData current inputIndex groups left nothing nothingWithout rest ih =>
    obtain ⟨rounds, ends⟩ := ih (before ++ [current])
    refine ⟨rounds + 1, GroupLoop.run_succ left ?_⟩
    simp only [GroupLoop.round, nextIndex, sameIndex, nothing, nothingWithout]
    rw [append_assoc] at ends
    exact ends

/-! ## What the groups hold -/

theorem perm_of_find? (found : connections.find? p = some c) : connections.Perm (c :: connections.eraseP p) := by
  obtain ⟨holds, before, after, rfl, others⟩ := find?_eq_some_iff_append.mp found
  have kept : ∀ d ∈ before, ¬p d = true := fun d member => by simpa using others d member
  rw [eraseP_append_right _ kept, eraseP_cons_of_pos holds]
  exact perm_middle

section

variable (grouping : Grouping withData withoutData current inputIndex groups)
include grouping

theorem Grouping.perm : (groups.flatMap (·.connections)).Perm (current.connections ++ (withData ++ withoutData)) := by
  induction grouping with
  | done current inputIndex => simp
  | takeWithData found rest ih =>
    refine ih.trans ?_
    rw [append_assoc]
    exact ((perm_of_find? found).symm.append_right _).append_left _
  | takeWithoutData nothing found rest ih =>
    refine ih.trans ?_
    rw [append_assoc]
    refine Perm.append_left _ ?_
    rw [singleton_append]
    exact perm_middle.symm.trans ((perm_of_find? found).symm.append_left _)
  | close left nothing nothingWithout rest ih =>
    rw [flatMap_cons]
    exact ih.append_left _

theorem Grouping.increasing (below : ∀ c ∈ current.connections, c.inputIndex < inputIndex)
    (ordered : current.connections.Pairwise fun a b => a.inputIndex < b.inputIndex) :
    ∀ group ∈ groups, group.connections.Pairwise fun a b => a.inputIndex < b.inputIndex := by
  have concat : ∀ {connections : List GraphConnection} {inputIndex : ℕ} {c : GraphConnection},
      c.inputIndex = inputIndex → (∀ d ∈ connections, d.inputIndex < inputIndex) →
      connections.Pairwise (fun a b => a.inputIndex < b.inputIndex) →
      (∀ d ∈ connections ++ [c], d.inputIndex < inputIndex + 1) ∧
        (connections ++ [c]).Pairwise fun a b => a.inputIndex < b.inputIndex := by
    intro connections inputIndex c here below ordered
    constructor
    · refine forall_mem_append.mpr ⟨fun d member => (below d member).trans (Nat.lt_succ_self _), ?_⟩
      exact forall_mem_singleton.mpr (here ▸ Nat.lt_succ_self _)
    · refine pairwise_append.mpr ⟨ordered, pairwise_singleton _ _, fun d member e isLast => ?_⟩
      obtain rfl := mem_singleton.mp isLast
      exact here ▸ below d member
  induction grouping with
  | done current inputIndex => exact forall_mem_singleton.mpr ordered
  | takeWithData found rest ih =>
    have here := index_of_find? found
    exact ih (concat here below ordered).1 (concat here below ordered).2
  | takeWithoutData nothing found rest ih =>
    have here := index_of_find? found
    exact ih (concat here below ordered).1 (concat here below ordered).2
  | close left nothing nothingWithout rest ih =>
    exact forall_mem_cons.mpr ⟨ordered, ih (by simp [newGroup]) (by simp [newGroup])⟩

theorem Grouping.complete (data : ∀ c ∈ withData, hasData c = true) (noData : ∀ c ∈ withoutData, hasData c = false)
    (marked : current.complete = true ↔ ∀ c ∈ current.connections, hasData c = true) :
    ∀ group ∈ groups, group.complete = true ↔ ∀ c ∈ group.connections, hasData c = true := by
  induction grouping with
  | done current inputIndex => exact forall_mem_singleton.mpr marked
  | takeWithData found rest ih =>
    refine ih (fun c member => data c (mem_of_mem_eraseP member)) noData ?_
    have here := data _ (mem_of_find?_eq_some found)
    simp [marked, or_imp, forall_and, here]
  | takeWithoutData nothing found rest ih =>
    refine ih data (fun c member => noData c (mem_of_mem_eraseP member)) ?_
    have here := noData _ (mem_of_find?_eq_some found)
    simp [or_imp, forall_and, here]
  | close left nothing nothingWithout rest ih =>
    exact forall_mem_cons.mpr ⟨marked, ih data noData (by simp [newGroup])⟩

end

/-! ## How full the groups are -/

def inputCount (connections : List GraphConnection) (inputIndex : ℕ) : ℕ :=
  connections.countP (·.inputIndex = inputIndex)

def Full (hasData : GraphConnection → Bool) (group : SourceConnectionGroup) (left : List GraphConnection) : Prop :=
  ∀ c ∈ left, inputCount group.connections c.inputIndex = 1 ∧
    (hasData c = true → ∀ d ∈ group.connections, d.inputIndex = c.inputIndex → hasData d = true)

def AllFull (hasData : GraphConnection → Bool) : List SourceConnectionGroup → Prop
  | [] => True
  | group :: groups => Full hasData group ((group :: groups).flatMap (·.connections)) ∧ AllFull hasData groups

/-- Between two inputs there are no fewer connections than at both. -/
def NoGaps (count : ℕ → ℕ) : Prop := ∀ i j k, i < j → j < k → min (count i) (count k) ≤ count j

theorem inputCount_append (one two : List GraphConnection) (i : ℕ) :
    inputCount (one ++ two) i = inputCount one i + inputCount two i := countP_append

theorem inputCount_perm {one two : List GraphConnection} (perm : one.Perm two) : inputCount one = inputCount two :=
  funext fun _ => perm.countP_eq _

theorem inputCount_pos {i : ℕ} : 0 < inputCount connections i ↔ ∃ c ∈ connections, c.inputIndex = i := by
  rw [inputCount, countP_pos_iff]
  simp

variable {low n : ℕ}

theorem inputCount_range (indexes : connections.map (·.inputIndex) = List.range' low n) (i : ℕ) :
    inputCount connections i = if low ≤ i ∧ i < low + n then 1 else 0 := by
  have counted : inputCount connections i = (connections.map (·.inputIndex)).countP (· = i) := by
    rw [countP_map]
    rfl
  rw [counted, indexes]
  have count : (List.range' low n).countP (· = i) = (List.range' low n).count i := by
    rw [List.count]
    rfl
  rw [count]
  by_cases inside : low ≤ i ∧ i < low + n
  · rw [if_pos inside, count_eq_one_of_mem nodup_range' (mem_range'_1.mpr inside)]
  · rw [if_neg inside, count_eq_zero_of_not_mem fun member => inside (mem_range'_1.mp member)]

/-- Taking one connection at each index of a range off leaves no gaps behind, and there are none before just
when the range is all. -/
theorem noGaps_iff {count rest : ℕ → ℕ}
    (split : ∀ i, count i = (if low ≤ i ∧ i < low + n then 1 else 0) + rest i) (below : ∀ i < low, count i = 0)
    (nonempty : 0 < n) (gap : rest (low + n) = 0) :
    NoGaps count ↔ (∀ i, 0 < count i → low ≤ i ∧ i < low + n) ∧ NoGaps rest := by
  constructor
  · intro noGaps
    have range : ∀ i, 0 < count i → low ≤ i ∧ i < low + n := by
      intro i some
      have atLow : low ≤ i := by
        by_contra smaller
        have := below i (by omega)
        omega
      refine ⟨atLow, ?_⟩
      by_contra larger
      have lowSplit := split low
      have endSplit := split (low + n)
      have between := noGaps low (low + n) i (by omega)
      by_cases isEnd : i = low + n
      · subst isEnd
        rw [if_neg (by omega)] at endSplit
        omega
      · have bound := between (by omega)
        rw [if_pos (by omega)] at lowSplit
        rw [if_neg (by omega)] at endSplit
        omega
    refine ⟨range, fun i j k before after => ?_⟩
    have bound := noGaps i j k before after
    have atI := split i
    have atJ := split j
    have atK := split k
    have rangeI := range i
    have rangeK := range k
    split_ifs at atI atJ atK <;> omega
  · rintro ⟨range, noGaps⟩ i j k before after
    have bound := noGaps i j k before after
    have atI := split i
    have atJ := split j
    have atK := split k
    have rangeI := range i
    have rangeK := range k
    split_ifs at atI atJ atK <;> omega

structure FirstGroup (withData withoutData : List GraphConnection) (inputIndex n : ℕ)
    (taken leftWith leftWithout : List GraphConnection) (rest : List SourceConnectionGroup) : Prop where
  indexes : taken.map (·.inputIndex) = List.range' inputIndex n
  perm : (withData ++ withoutData).Perm (taken ++ (leftWith ++ leftWithout))
  gap : ∀ c ∈ leftWith ++ leftWithout, c.inputIndex ≠ inputIndex + n
  prefers : ∀ c ∈ taken, c ∈ withData ∨ c ∈ withoutData ∧ ∀ d ∈ withData, d.inputIndex ≠ c.inputIndex
  fromWith : leftWith ⊆ withData
  fromWithout : leftWithout ⊆ withoutData
  goesOn : leftWith ++ leftWithout = [] ∧ rest = [] ∨ leftWith ++ leftWithout ≠ [] ∧
    Grouping leftWith leftWithout newGroup (minInputIndex (leftWith ++ leftWithout)) rest

theorem Grouping.first (grouping : Grouping withData withoutData current inputIndex groups) :
    ∃ n taken leftWith leftWithout complete rest, groups = ⟨complete, current.connections ++ taken⟩ :: rest ∧
      FirstGroup withData withoutData inputIndex n taken leftWith leftWithout rest := by
  induction grouping with
  | done current inputIndex =>
    exact ⟨0, [], [], [], current.complete, [], by simp, by simp, by simp, by simp, by simp, by simp, by simp, by simp⟩
  | @takeWithData withData withoutData current inputIndex groups c found rest ih =>
    obtain ⟨n, taken, leftWith, leftWithout, complete, following, rfl, first⟩ := ih
    have here := index_of_find? found
    have later : ∀ d ∈ taken, inputIndex + 1 ≤ d.inputIndex := fun d member => by
      have inRange : d.inputIndex ∈ taken.map (·.inputIndex) := List.mem_map.mpr ⟨d, member, rfl⟩
      rw [first.indexes] at inRange
      exact (mem_range'_1.mp inRange).1
    refine ⟨n + 1, c :: taken, leftWith, leftWithout, complete, following, by simp, ?_⟩
    constructor
    case indexes => rw [map_cons, first.indexes, here, range'_succ]
    case perm => exact ((perm_of_find? found).append_right _).trans (first.perm.cons c)
    case gap => exact fun d member => by simpa [Nat.add_assoc, Nat.add_comm 1] using first.gap d member
    case prefers =>
      refine forall_mem_cons.mpr ⟨.inl (mem_of_find?_eq_some found), fun d member => ?_⟩
      refine (first.prefers d member).imp mem_of_mem_eraseP fun ⟨without, others⟩ => ⟨without, fun e inside => ?_⟩
      by_cases atIndex : e.inputIndex = inputIndex
      · have after := later d member
        omega
      · exact others e ((mem_eraseP_of_neg (by simpa using atIndex)).mpr inside)
    case fromWith => exact fun d member => mem_of_mem_eraseP (first.fromWith member)
    case fromWithout => exact first.fromWithout
    case goesOn => exact first.goesOn
  | @takeWithoutData withData withoutData current inputIndex groups c nothing found rest ih =>
    obtain ⟨n, taken, leftWith, leftWithout, complete, following, rfl, first⟩ := ih
    have here := index_of_find? found
    refine ⟨n + 1, c :: taken, leftWith, leftWithout, complete, following, by simp, ?_⟩
    constructor
    case indexes => rw [map_cons, first.indexes, here, range'_succ]
    case perm =>
      refine ((perm_of_find? found).append_left _).trans (perm_middle.trans ?_)
      exact first.perm.cons c
    case gap => exact fun d member => by simpa [Nat.add_assoc, Nat.add_comm 1] using first.gap d member
    case prefers =>
      refine forall_mem_cons.mpr ⟨.inr ⟨mem_of_find?_eq_some found, fun d inside same => ?_⟩,
        fun d member => ?_⟩
      · exact find?_eq_none.mp nothing d inside (decide_eq_true (same.trans here))
      · exact (first.prefers d member).imp_right fun ⟨without, others⟩ => ⟨mem_of_mem_eraseP without, others⟩
    case fromWith => exact first.fromWith
    case fromWithout => exact fun d member => mem_of_mem_eraseP (first.fromWithout member)
    case goesOn => exact first.goesOn
  | @close withData withoutData current inputIndex groups left nothing nothingWithout rest ih =>
    refine ⟨0, [], withData, withoutData, current.complete, groups, by simp, ?_⟩
    constructor
    case indexes => rfl
    case perm => exact .refl _
    case gap =>
      refine forall_mem_append.mpr ⟨fun c member same => ?_, fun c member same => ?_⟩
      · exact find?_eq_none.mp nothing c member (decide_eq_true same)
      · exact find?_eq_none.mp nothingWithout c member (decide_eq_true same)
    case prefers => simp
    case fromWith => exact fun _ => id
    case fromWithout => exact fun _ => id
    case goesOn => exact .inr ⟨left, rest⟩

theorem FirstGroup.counts {taken leftWith leftWithout : List GraphConnection}
    {rest : List SourceConnectionGroup} (first : FirstGroup withData withoutData low n taken leftWith leftWithout rest)
    (left : withData ++ withoutData ≠ []) (isLow : low = minInputIndex (withData ++ withoutData)) :
    0 < n ∧ (∀ i, inputCount (withData ++ withoutData) i =
        (if low ≤ i ∧ i < low + n then 1 else 0) + inputCount (leftWith ++ leftWithout) i) ∧
      (∀ i < low, inputCount (withData ++ withoutData) i = 0) ∧ inputCount (leftWith ++ leftWithout) (low + n) = 0 := by
  obtain ⟨below, c, member, least⟩ := minInputIndex_spec left
  rw [← isLow] at below least
  have split : ∀ i, inputCount (withData ++ withoutData) i =
      (if low ≤ i ∧ i < low + n then 1 else 0) + inputCount (leftWith ++ leftWithout) i := fun i => by
    rw [inputCount_perm first.perm, inputCount_append, inputCount_range first.indexes]
  have noGap : inputCount (leftWith ++ leftWithout) (low + n) = 0 := by
    refine Nat.eq_zero_of_not_pos fun some => ?_
    obtain ⟨d, inside, same⟩ := inputCount_pos.mp some
    exact first.gap d inside same
  refine ⟨?_, split, fun i smaller => ?_, noGap⟩
  · have some : 0 < inputCount (withData ++ withoutData) low := inputCount_pos.mpr ⟨c, member, least⟩
    refine Nat.pos_of_ne_zero fun zero => ?_
    subst zero
    rw [split, if_neg (by omega)] at some
    rw [Nat.add_zero] at noGap
    omega
  · refine Nat.eq_zero_of_not_pos fun some => ?_
    obtain ⟨d, inside, same⟩ := inputCount_pos.mp some
    have bound := below d inside
    omega

theorem Grouping.allFull_iff (data : ∀ c ∈ withData, hasData c = true) (noData : ∀ c ∈ withoutData, hasData c = false)
    (left : withData ++ withoutData ≠ [])
    (grouping : Grouping withData withoutData newGroup (minInputIndex (withData ++ withoutData)) groups) :
    AllFull hasData groups ↔ NoGaps (inputCount (withData ++ withoutData)) := by
  induction groups generalizing withData withoutData with
  | nil =>
    obtain ⟨_, _, _, _, _, _, same, _⟩ := grouping.first
    cases same
  | cons group groups ih =>
    have all := grouping.perm
    obtain ⟨n, taken, leftWith, leftWithout, complete, rest, same, first⟩ := grouping.first
    obtain ⟨rfl, rfl⟩ := List.cons.inj same
    obtain ⟨some, split, below, gap⟩ := first.counts left rfl
    have later : AllFull hasData groups ↔ NoGaps (inputCount (leftWith ++ leftWithout)) := by
      rcases first.goesOn with ⟨empty, rfl⟩ | ⟨more, goesOn⟩
      · rw [empty]
        exact iff_of_true trivial fun i j k _ _ => by simp [inputCount]
      · exact ih (fun c member => data c (first.fromWith member)) (fun c member => noData c (first.fromWithout member))
          more goesOn
    have groupCount : ∀ i, inputCount (newGroup.connections ++ taken) i = if _ ≤ i ∧ i < _ + n then 1 else 0 := fun i =>
      inputCount_range first.indexes i
    have inAll : ∀ c, c ∈ List.flatMap (·.connections) (⟨complete, newGroup.connections ++ taken⟩ :: groups) ↔
        c ∈ withData ++ withoutData := fun c => all.mem_iff
    rw [AllFull, later, noGaps_iff split below some gap]
    refine and_congr_left fun _ => ⟨fun full i some => ?_, fun range c member => ⟨?_, fun hasIt d inside same => ?_⟩⟩
    · obtain ⟨c, member, rfl⟩ := inputCount_pos.mp some
      have one := (full c ((inAll c).mpr member)).1
      rw [groupCount] at one
      by_contra outside
      rw [if_neg outside] at one
      cases one
    · rw [groupCount, if_pos (range _ (inputCount_pos.mpr ⟨c, (inAll c).mp member, rfl⟩))]
    · have withIt : c ∈ withData := by
        refine (mem_append.mp ((inAll c).mp member)).resolve_right fun without => ?_
        exact Bool.false_ne_true ((noData c without).symm.trans hasIt)
      rcases first.prefers d inside with inWith | ⟨_, others⟩
      · exact data d inWith
      · exact absurd same.symm (others c withIt)

section

variable (left : withData ++ withoutData ≠ [])
  (grouping : Grouping withData withoutData newGroup (minInputIndex (withData ++ withoutData)) groups)
include left grouping

theorem Grouping.consecutive :
    ∀ group ∈ groups, ∃ low n, 0 < n ∧ group.connections.map (·.inputIndex) = List.range' low n := by
  induction groups generalizing withData withoutData with
  | nil => simp
  | cons group groups ih =>
    obtain ⟨n, taken, leftWith, leftWithout, complete, rest, same, first⟩ := grouping.first
    obtain ⟨rfl, rfl⟩ := List.cons.inj same
    refine forall_mem_cons.mpr ⟨⟨_, n, (first.counts left rfl).1, first.indexes⟩, ?_⟩
    rcases first.goesOn with ⟨_, rfl⟩ | ⟨more, goesOn⟩
    · simp
    · exact ih more goesOn

theorem Grouping.nonempty : ∀ group ∈ groups, group.connections ≠ [] := by
  intro group member none
  obtain ⟨low, n, some, indexes⟩ := grouping.consecutive left group member
  have length := congrArg List.length indexes
  rw [none, length_range'] at length
  simp only [map_nil, length_nil] at length
  omega

end

theorem AllFull.length (full : AllFull hasData groups) (nonempty : ∀ group ∈ groups, group.connections ≠ []) :
    (∀ i, inputCount (groups.flatMap (·.connections)) i ≤ groups.length) ∧
      ∃ i, inputCount (groups.flatMap (·.connections)) i = groups.length := by
  induction groups with
  | nil => exact ⟨fun i => le_rfl, 0, rfl⟩
  | cons group groups ih =>
    obtain ⟨here, later⟩ := full
    obtain ⟨some, nonemptyLater⟩ := forall_mem_cons.mp nonempty
    obtain ⟨bound, i, attained⟩ := ih later nonemptyLater
    have split : ∀ i, inputCount ((group :: groups).flatMap (·.connections)) i =
        inputCount group.connections i + inputCount (groups.flatMap (·.connections)) i := fun i => by
      rw [flatMap_cons, inputCount_append]
    have one : ∀ i, 0 < inputCount ((group :: groups).flatMap (·.connections)) i →
        inputCount group.connections i = 1 := by
      intro i some
      obtain ⟨c, member, rfl⟩ := inputCount_pos.mp some
      exact (here c member).1
    rw [length_cons]
    refine ⟨fun i => ?_, ?_⟩
    · have atI := split i
      have boundI := bound i
      have oneI := one i
      omega
    · cases groups with
      | nil =>
        obtain ⟨c, member⟩ := exists_mem_of_ne_nil _ some
        have counted : 0 < inputCount group.connections c.inputIndex := inputCount_pos.mpr ⟨c, member, rfl⟩
        have atC := split c.inputIndex
        have oneC := one c.inputIndex
        have none : inputCount (([] : List SourceConnectionGroup).flatMap (·.connections)) c.inputIndex = 0 := rfl
        exact ⟨c.inputIndex, by rw [length_nil]; omega⟩
      | cons next groups =>
        have atI := split i
        have oneI := one i
        rw [length_cons] at attained ⊢
        exact ⟨i, by omega⟩

end N8n.WorkflowExecute

namespace N8n.PartialExecution

open PartialExecution.DirectedGraph WorkflowExecute List

section Groups

variable (localeLE : String → String → Bool) (graph : DirectedGraph) (node : GraphNode) (runData : RunData)
  (pinnedData : PinData)

def hasData (c : N8n.GraphConnection) : Bool := runData.has c.fromNode || pinnedData.has c.fromNode

def incomingConnections : List N8n.GraphConnection := (graph.getConnections.filter (·.toNode = node)).map (·.byName)

def groupable : List N8n.GraphConnection :=
  (incomingConnections graph node).filter fun c => hasData runData pinnedData c || c.type = .main

def sortedConnectionsWithData : List N8n.GraphConnection :=
  ((incomingConnections graph node).filter (hasData runData pinnedData)).insertionSort fun a b =>
    sortByInputIndexThenByName localeLE a b = true

def sortedConnectionsWithoutData : List N8n.GraphConnection :=
  ((incomingConnections graph node).filter fun c => !hasData runData pinnedData c && c.type = .main).insertionSort
    fun a b => sortByInputIndexThenByName localeLE a b = true

def getSourceDataGroupsWithin (rounds : ℕ) : Option (List SourceConnectionGroup) :=
  let withData := sortedConnectionsWithData localeLE graph node runData pinnedData
  let withoutData := sortedConnectionsWithoutData localeLE graph node runData pinnedData
  if withData.length = 0 ∧ withoutData.length = 0 then some []
  else GroupLoop.run rounds ⟨withData, withoutData, [], newGroup, minInputIndex (withData ++ withoutData) - 1⟩

theorem sorted_perm : (sortedConnectionsWithData localeLE graph node runData pinnedData ++
      sortedConnectionsWithoutData localeLE graph node runData pinnedData).Perm
      (groupable graph node runData pinnedData) := by
  have withData : (incomingConnections graph node).filter (hasData runData pinnedData) =
      (groupable graph node runData pinnedData).filter (hasData runData pinnedData) := by
    rw [groupable, filter_filter]
    refine filter_congr fun c _ => ?_
    cases hasData runData pinnedData c <;> simp
  have withoutData :
      (incomingConnections graph node).filter (fun c => !hasData runData pinnedData c && c.type = .main) =
      (groupable graph node runData pinnedData).filter fun c => !hasData runData pinnedData c := by
    rw [groupable, filter_filter]
    refine filter_congr fun c _ => ?_
    cases hasData runData pinnedData c <;> simp
  refine ((perm_insertionSort _ _).append (perm_insertionSort _ _)).trans ?_
  rw [withData, withoutData]
  exact filter_append_perm _ _

theorem getSourceDataGroups_cases :
    let withData := sortedConnectionsWithData localeLE graph node runData pinnedData
    let withoutData := sortedConnectionsWithoutData localeLE graph node runData pinnedData
    let groups := getSourceDataGroups localeLE graph node runData pinnedData
    withData ++ withoutData = [] ∧ groups = [] ∨ withData ++ withoutData ≠ [] ∧
      Grouping withData withoutData newGroup (minInputIndex (withData ++ withoutData)) groups := by
  intro withData withoutData groups
  have same : groups = if withData.isEmpty ∧ withoutData.isEmpty then [] else groupConnections
      (2 * (withData.length + withoutData.length) + 1) withData withoutData newGroup
      (minInputIndex (withData ++ withoutData)) := rfl
  by_cases empty : withData ++ withoutData = []
  · obtain ⟨noneWith, noneWithout⟩ := append_eq_nil_iff.mp empty
    refine .inl ⟨empty, ?_⟩
    rw [same, noneWith, noneWithout]
    rfl
  · have some : ¬(withData.isEmpty = true ∧ withoutData.isEmpty = true) := fun both =>
      empty (append_eq_nil_iff.mpr (both.imp List.isEmpty_iff.mp List.isEmpty_iff.mp))
    rw [if_neg some, ← length_append] at same
    refine .inr ⟨empty, ?_⟩
    rw [same]
    exact groupConnections_grouping (.inr ⟨le_rfl, .inr (minInputIndex_spec empty).2⟩)

theorem mem_sorted {c : N8n.GraphConnection} :
    (c ∈ sortedConnectionsWithData localeLE graph node runData pinnedData → hasData runData pinnedData c = true) ∧
      (c ∈ sortedConnectionsWithoutData localeLE graph node runData pinnedData →
        hasData runData pinnedData c = false) := by
  rw [sortedConnectionsWithData, sortedConnectionsWithoutData, mem_insertionSort, mem_insertionSort]
  constructor
  · exact fun member => (mem_filter.mp member).2
  · intro member
    have kept := (mem_filter.mp member).2
    simp only [Bool.and_eq_true, Bool.not_eq_eq_eq_not, Bool.not_true] at kept
    exact kept.1

theorem groupable_nodup : (groupable graph node runData pinnedData).Nodup := by
  have keys : (graph.getConnections.map makeKey).Nodup := by
    rw [getConnections, OrderedMap.values_map_key graph.keyed]
    exact graph.connections.nodup
  have values := Nodup.of_map _ keys
  refine Nodup.filter _ ((values.filter _).map_on fun c memberC d memberD same => ?_)
  refine eq_of_makeKey (mem_filter.mp memberC).1 (mem_filter.mp memberD).1 ?_
  rw [GraphConnection.byName, GraphConnection.byName, N8n.GraphConnection.mk.injEq] at same
  rw [makeKey, makeKey, same.1, same.2.1, same.2.2.1, same.2.2.2.1, same.2.2.2.2]

theorem getSourceDataGroups_perm :
    ((getSourceDataGroups localeLE graph node runData pinnedData).flatMap (·.connections)).Perm
      (groupable graph node runData pinnedData) := by
  have all := sorted_perm localeLE graph node runData pinnedData
  rcases getSourceDataGroups_cases localeLE graph node runData pinnedData with ⟨empty, none⟩ | ⟨_, grouping⟩
  · rw [none]
    rw [empty] at all
    exact all
  · exact grouping.perm.trans all

theorem getSourceDataGroups_consecutive {group : SourceConnectionGroup}
    (member : group ∈ getSourceDataGroups localeLE graph node runData pinnedData) :
    ∃ low n, 0 < n ∧ group.connections.map (·.inputIndex) = List.range' low n := by
  rcases getSourceDataGroups_cases localeLE graph node runData pinnedData with ⟨_, none⟩ | ⟨some, grouping⟩
  · rw [none] at member
    cases member
  · exact grouping.consecutive some group member

end Groups

/-- The loop ends, and its groups are a partition of the connections that count. -/
theorem getSourceDataGroups_partitions (localeLE : String → String → Bool) (graph : DirectedGraph)
    (node : GraphNode) (runData : RunData) (pinnedData : PinData) :
    let groups := getSourceDataGroups localeLE graph node runData pinnedData
    (∃ rounds, getSourceDataGroupsWithin localeLE graph node runData pinnedData rounds = some groups) ∧
      (groups.flatMap (·.connections)).Perm (groupable graph node runData pinnedData) ∧
      (groups.flatMap (·.connections)).Nodup ∧ ∀ group ∈ groups,
        (group.connections.Pairwise fun a b => a.inputIndex < b.inputIndex) ∧
        (group.complete = true ↔ ∀ c ∈ group.connections, hasData runData pinnedData c = true) := by
  intro groups
  have perm := getSourceDataGroups_perm localeLE graph node runData pinnedData
  have distinct := perm.nodup_iff.mpr (groupable_nodup graph node runData pinnedData)
  rcases getSourceDataGroups_cases localeLE graph node runData pinnedData with ⟨empty, none⟩ | ⟨some, grouping⟩
  · have noGroups : groups = [] := none
    obtain ⟨noneWith, noneWithout⟩ := append_eq_nil_iff.mp empty
    refine ⟨⟨0, ?_⟩, perm, distinct, by simp [noGroups]⟩
    rw [getSourceDataGroupsWithin, noneWith, noneWithout, noGroups]
    rfl
  · refine ⟨?_, perm, distinct, fun group member => ⟨?_, ?_⟩⟩
    · obtain ⟨rounds, ends⟩ := grouping.run []
      refine ⟨rounds, ?_⟩
      rw [getSourceDataGroupsWithin]
      have notBoth : ¬((sortedConnectionsWithData localeLE graph node runData pinnedData).length = 0 ∧
          (sortedConnectionsWithoutData localeLE graph node runData pinnedData).length = 0) := fun both =>
        some (append_eq_nil_iff.mpr (both.imp length_eq_zero_iff.mp length_eq_zero_iff.mp))
      exact (if_neg notBoth).trans ends
    · exact grouping.increasing (by simp [newGroup]) (by simp [newGroup]) group member
    · exact grouping.complete (fun c => (mem_sorted localeLE graph node runData pinnedData).1)
        (fun c => (mem_sorted localeLE graph node runData pinnedData).2) (by simp [newGroup]) group member

/-- Every group is as full as possible, and there are as few as possible, exactly when no input between
two others has fewer connections than both. -/
theorem getSourceDataGroups_full_iff (localeLE : String → String → Bool) (graph : DirectedGraph)
    (node : GraphNode) (runData : RunData) (pinnedData : PinData) :
    let groups := getSourceDataGroups localeLE graph node runData pinnedData
    let count := inputCount (groupable graph node runData pinnedData)
    (AllFull (hasData runData pinnedData) groups ∧ (∀ i, count i ≤ groups.length) ∧ ∃ i, count i = groups.length) ↔
      NoGaps count := by
  intro groups count
  have all := sorted_perm localeLE graph node runData pinnedData
  rcases getSourceDataGroups_cases localeLE graph node runData pinnedData with ⟨empty, none⟩ | ⟨some, grouping⟩
  · have noGroups : groups = [] := none
    have noCount : count = fun _ => 0 := by
      rw [empty] at all
      exact (inputCount_perm all).symm.trans rfl
    rw [noGroups, noCount]
    exact iff_of_true ⟨trivial, fun _ => le_rfl, 0, rfl⟩ fun i j k _ _ => by simp
  · have full := grouping.allFull_iff (fun c => (mem_sorted localeLE graph node runData pinnedData).1)
      (fun c => (mem_sorted localeLE graph node runData pinnedData).2) some
    rw [inputCount_perm all] at full
    have counted : inputCount (groups.flatMap (·.connections)) = count := inputCount_perm (grouping.perm.trans all)
    refine ⟨fun property => full.mp property.1, fun noGaps => ?_⟩
    have allFull := full.mpr noGaps
    have length := allFull.length (grouping.nonempty some)
    rw [show inputCount _ = count from counted] at length
    exact ⟨allFull, length⟩

/-- Inputs 0 and 2 of `d` are connected, and both sources have run. -/
def unconnectedMiddle : DirectedGraph :=
  let a := plainNode 0 "a"
  let b := plainNode 1 "b"
  let d := plainNode 2 "d"
  [⟨a, d, .main, 0, 0⟩, ⟨b, d, .main, 0, 2⟩].foldl setConnection (empty.addNodes [a, b, d])

def sourcesRan : RunData := ⟨[("a", []), ("b", [])], by decide⟩

theorem unconnectedMiddle_two_groups :
    let groups := getSourceDataGroups (· ≤ ·) unconnectedMiddle (plainNode 2 "d") sourcesRan .empty
    let count := inputCount (groupable unconnectedMiddle (plainNode 2 "d") sourcesRan .empty)
    groups.length = 2 ∧ ¬(AllFull (hasData sourcesRan .empty) groups ∧ (∀ i, count i ≤ groups.length) ∧
      ∃ i, count i = groups.length) := by
  intro groups count
  have made : groups = [⟨true, [⟨"a", "d", .main, 0, 0⟩]⟩, ⟨true, [⟨"b", "d", .main, 0, 2⟩]⟩] := by decide
  rw [made]
  refine ⟨rfl, fun property => ?_⟩
  have one := (property.1.1 ⟨"b", "d", .main, 0, 2⟩ (by decide)).1
  exact absurd one (by decide)

end N8n.PartialExecution
