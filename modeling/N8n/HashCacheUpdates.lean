import Mathlib.Data.List.Induction
import Mathlib.Data.List.Infix
import Mathlib.Data.List.Nodup
import Mathlib.Data.List.Perm.Basic
import N8n.HashCache

/-! When the memory backend loses no update of a hash. -/

namespace N8n.HashCache

open List Function Prod

section Properties

variable {Value : Type} (cloneBeforeSet : Bool) (fields : Option (Fields Value))
variable (events : List (Event Value))

def Precedes (first second : ℕ) : Prop :=
  ∃ before state, before <+: events ∧ (system cloneBeforeSet fields).run before = some state ∧
    (∃ progress, state.calls first = some progress ∧ progress.stage.isDone = true) ∧
    state.calls second = none

/-- An order of the updates that keeps calls that did not overlap in theirs. -/
structure Order (state : State Value) (order : List (ℕ × Call Value)) : Prop where
  nodup : (order.map fst).Nodup
  all : ∀ id call, (id, call) ∈ order ↔ call.isUpdate = true ∧ ∃ stage, state.calls id = some { call, stage }
  respects : ∀ first second, Precedes cloneBeforeSet fields events first second →
    first ∈ order.map fst → second ∈ order.map fst →
      (order.map fst).idxOf first < (order.map fst).idxOf second

/-- Once every call has returned, the hash is what its updates make of it in some order. -/
def LosesNothing : Prop :=
  ∀ state, (system cloneBeforeSet fields).run events = some state →
    (∀ id progress, state.calls id = some progress → progress.stage.isDone = true) →
    ∃ order, Order cloneBeforeSet fields events state order ∧
      state.hash = order.foldl (fun fields update => update.2.apply fields) (fields.getD fun _ => none)

/-- The object that a call is about to change and to store. -/
def writes (state : State Value) : Event Value → Option (Option ℕ)
  | .resume id =>
    match state.calls id with
    | some { call := .setHash _, stage := .reading found } => some found
    | some { call := .deleteFromHash _, stage := .reading (some reference) } =>
      some (some reference)
    | _ => none
  | _ => none

def StoresCurrent (state : State Value) (event : Event Value) : Prop :=
  ∀ found, writes state event = some found →
    state.updates ⊆ found.elim [] fun reference => (state.objects reference).updates

end Properties

section Invariant

variable {Value : Type} {cloneBeforeSet : Bool} {fields : Option (Fields Value)}
variable {state state' : State Value} {events : List (Event Value)} {id : ℕ}

def pending : Call Value → Stage Value → Bool
  | .setHash _, .reading _ => true
  | .deleteFromHash _, .reading found => found.isSome
  | _, _ => false

def replay (fields : Option (Fields Value)) (updates : List (ℕ × Call Value)) : Fields Value :=
  updates.foldl (fun fields update => update.2.apply fields) (fields.getD fun _ => none)

structure Consistent (fields : Option (Fields Value)) (state : State Value) : Prop where
  content : ∀ reference, (state.objects reference).fields = replay fields (state.objects reference).updates
  ordered : ∀ reference, (state.objects reference).updates.Sublist state.log
  nodup : ((state.missed ++ state.log).map fst).Nodup
  made : ∀ id call, (id, call) ∈ state.missed ++ state.log ↔
    call.isUpdate = true ∧ ∃ stage, state.calls id = some { call, stage } ∧ pending call stage = false
  update : ∀ id call stage, state.calls id = some { call, stage } → pending call stage = true → call.isUpdate = true
  unset : state.stored = none → state.log = [] ∧ fields = none
  unread : ∀ id call, state.calls id = some { call, stage := .reading none } → fields = none
  missing : state.missed ≠ [] → fields = none
  deletions : ∀ update ∈ state.missed, ∃ hashKey, update.2 = .deleteFromHash hashKey

theorem write_spec (state : State Value) (cloneBeforeSet : Bool) (id : ℕ) (call : Call Value) (reference : ℕ) :
    (state.write cloneBeforeSet id call reference).log = state.log ++ [(id, call)] ∧
    (state.write cloneBeforeSet id call reference).missed = state.missed ∧
    (state.write cloneBeforeSet id call reference).calls = state.calls ∧
    (∃ stored, (state.write cloneBeforeSet id call reference).stored = some stored ∧
      (state.write cloneBeforeSet id call reference).objects stored = (state.objects reference).change id call) ∧
    ∀ other, (state.write cloneBeforeSet id call reference).objects other = state.objects other ∨
      (state.write cloneBeforeSet id call reference).objects other = (state.objects reference).change id call := by
  cases cloneBeforeSet with
  | false =>
    refine ⟨rfl, rfl, rfl, ⟨reference, rfl, by simp [State.write, State.set]⟩, fun other => ?_⟩
    by_cases same : other = reference
    · exact .inr (by simp [State.write, State.set, same])
    · exact .inl (by simp [State.write, State.set, same])
  | true =>
    refine ⟨rfl, rfl, rfl, ⟨state.size, rfl, by simp [State.write, State.set]⟩, fun other => ?_⟩
    by_cases copy : other = state.size
    · exact .inr (by simp [State.write, State.set, copy])
    · by_cases same : other = reference
      · subst same
        exact .inr (by simp [State.write, State.set, copy])
      · exact .inl (by simp [State.write, State.set, same, copy])

theorem consistent_initial : Consistent fields (initial fields) where
  content _ := rfl
  ordered _ := Sublist.refl _
  nodup := by simp [initial]
  made := by simp [initial]
  update := by simp [initial]
  unset unset := ⟨rfl, by simpa [initial] using unset⟩
  unread := by simp [initial]
  missing := by simp [initial]
  deletions := by simp [initial]

/-- The stage of a call changes, and the update is listed if the call was waiting for nothing but
this. -/
theorem Consistent.setStage (consistent : Consistent fields state) {call : Call Value}
    {stage stage' : Stage Value} (found : state.calls id = some { call, stage })
    (pends : pending call stage' = pending call stage) (reads : stage' ≠ .reading none) :
    Consistent fields (state.setStage id call stage') where
  content := consistent.content
  ordered := consistent.ordered
  nodup := consistent.nodup
  made other call' := by
    rw [State.setStage]
    simp only [consistent.made, update_apply]
    by_cases same : other = id
    · subst same
      simp only [if_true, found]
      grind
    · simp [same]
  update other call' stage'' := by
    simp only [State.setStage, update_apply]
    split_ifs with same
    · intro listed
      cases listed
      rw [pends]
      exact consistent.update id call stage found
    · exact consistent.update other call' stage''
  unset := consistent.unset
  unread other call' := by
    simp only [State.setStage, update_apply]
    split_ifs with same
    · intro listed
      cases listed
      exact absurd rfl reads
    · exact consistent.unread other call'
  missing := consistent.missing
  deletions := consistent.deletions

theorem replay_append (updates : List (ℕ × Call Value)) (update : ℕ × Call Value) :
    replay fields (updates ++ [update]) = update.2.apply (replay fields updates) := by
  simp [replay]

section

variable (consistent : Consistent fields state) {found : Option ℕ} {id : ℕ}
include consistent

theorem Consistent.write {call : Call Value} (read : state.calls id = some { call, stage := .reading found })
    (pends : pending call (.reading found) = true) (cloneBeforeSet : Bool) (reference : ℕ) :
    Consistent fields ((state.write cloneBeforeSet id call reference).setStage id call (.returning none)) := by
  obtain ⟨log, missed, calls, ⟨stored, held, -⟩, objects⟩ :=
    write_spec state cloneBeforeSet id call reference
  have unlisted : id ∉ (state.missed ++ state.log).map fst := by
    intro listed
    obtain ⟨⟨_, call'⟩, entry, rfl⟩ := List.mem_map.mp listed
    obtain ⟨-, stage, same, settled⟩ := (consistent.made _ _).mp entry
    rw [read] at same
    cases same
    simp [pends] at settled
  refine ⟨fun other => ?_, fun other => ?_, ?_, fun other call' => ?_, fun other call' stage => ?_,
    fun unset => ?_, fun other call' => ?_, ?_, ?_⟩
  · rw [State.setStage]
    rcases objects other with same | changed
    · rw [same, consistent.content]
    · rw [changed, HashObject.change, replay_append, consistent.content]
  · rw [State.setStage]
    simp only [log]
    rcases objects other with same | changed
    · rw [same]
      exact (consistent.ordered other).trans (sublist_append_left _ _)
    · rw [changed]
      exact (consistent.ordered reference).append (Sublist.refl _)
  · simp only [State.setStage, missed, log]
    rw [← append_assoc, map_append, nodup_append]
    refine ⟨consistent.nodup, by simp, fun a listed b last => ?_⟩
    rintro rfl
    simp only [map_cons, map_nil, mem_singleton] at last
    exact unlisted (last ▸ listed)
  · simp only [State.setStage, missed, log, calls, ← append_assoc, update_apply]
    rw [mem_append, consistent.made]
    by_cases same : other = id
    · subst same
      have allowed := consistent.update other call _ read pends
      simp only [read, if_true]
      grind [pending]
    · simp [same]
  · simp only [State.setStage, calls, update_apply]
    split_ifs with same
    · intro listed
      cases listed
      intro waits
      cases call <;> simp [pending] at waits
    · exact consistent.update other call' stage
  · rw [State.setStage] at unset
    simp [held] at unset
  · simp only [State.setStage, calls, update_apply]
    split_ifs with same
    · intro listed
      cases listed
    · exact consistent.unread other call'
  · simp only [State.setStage, missed]
    exact consistent.missing
  · simp only [State.setStage, missed]
    exact consistent.deletions

theorem Consistent.allocate (none_ : fields = none) : Consistent fields state.allocate := by
  refine { consistent with content := fun other => ?_, ordered := fun other => ?_ }
  · simp only [State.allocate, update_apply]
    split_ifs with new
    · rw [none_]
      rfl
    · exact consistent.content other
  · simp only [State.allocate, update_apply]
    split_ifs with new
    · exact nil_sublist _
    · exact consistent.ordered other

theorem Consistent.call (new : state.calls id = none) {call : Call Value} {stage : Stage Value}
    (update : pending call stage = call.isUpdate) (reads : stage = .reading none → fields = none) :
    Consistent fields (state.setStage id call stage) := by
  refine { consistent with
    made := fun other call' => ?_
    update := fun other call' stage' => ?_
    unread := fun other call' => ?_ }
  · rw [State.setStage]
    simp only [consistent.made, update_apply]
    by_cases same : other = id
    · subst same
      simp only [if_true, new]
      grind
    · simp [same]
  · simp only [State.setStage, update_apply]
    split_ifs with same
    · intro listed waits
      cases listed
      exact update ▸ waits
    · exact consistent.update other call' stage'
  · simp only [State.setStage, update_apply]
    split_ifs with same
    · intro listed
      cases listed
      exact reads rfl
    · exact consistent.unread other call'

theorem Consistent.miss (new : state.calls id = none) {hashKey : String} (named : hashKey ≠ "")
    (unset : state.stored = none) :
    Consistent fields ({ state with missed := state.missed ++ [(id, Call.deleteFromHash hashKey)] }.setStage id
        (.deleteFromHash hashKey) (.reading state.stored)) := by
  have reading : (Stage.reading state.stored : Stage Value) = .reading none := by rw [unset]
  rw [reading]
  have unlisted : id ∉ (state.missed ++ state.log).map fst := by
    intro listed
    obtain ⟨⟨_, call'⟩, entry, rfl⟩ := List.mem_map.mp listed
    obtain ⟨-, stage, same, -⟩ := (consistent.made _ _).mp entry
    simp [new] at same
  obtain ⟨log, none_⟩ := consistent.unset unset
  refine { consistent with
    nodup := ?_
    made := fun other call' => ?_
    update := fun other call' stage' => ?_
    unread := fun _ _ _ => none_
    missing := fun _ => none_
    deletions := ?_ }
  · have nodup := consistent.nodup
    simp only [log, append_nil] at nodup unlisted
    simp only [State.setStage, log, append_nil, map_append]
    rw [nodup_append]
    refine ⟨nodup, by simp, fun a listed b last => ?_⟩
    rintro rfl
    simp only [map_cons, map_nil, mem_singleton] at last
    exact unlisted (last ▸ listed)
  · have made := consistent.made other call'
    simp only [log, append_nil] at made
    simp only [State.setStage, log, append_nil, update_apply]
    rw [mem_append, made]
    by_cases same : other = id
    · subst same
      simp only [if_true, new]
      constructor
      · rintro (⟨-, stage, none_, -⟩ | listed)
        · cases none_
        cases mem_singleton.mp listed
        exact ⟨by simpa [Call.isUpdate] using named, .reading none, rfl, rfl⟩
      · rintro ⟨-, stage, same, -⟩
        cases same
        exact .inr (by simp)
    · simp [same]
  · simp only [State.setStage, update_apply]
    split_ifs with same
    · intro listed waits
      cases listed
      simp [pending] at waits
    · exact consistent.update other call' stage'
  · intro update listed
    rcases mem_append.mp listed with old | last
    · exact consistent.deletions update old
    · rw [mem_singleton.mp last]
      exact ⟨hashKey, rfl⟩

theorem consistent_start (new : state.calls id = none) (call : Call Value) :
    Consistent fields (start state id call) := by
  have reads : (Stage.reading state.stored : Stage Value) = .reading none → fields = none :=
    fun unset => (consistent.unset (by simpa using unset)).2
  cases call with
  | setHash hash =>
    rw [start]
    split_ifs with update
    · exact consistent.call new (by rw [update]; rfl) reads
    · exact consistent.call new (by rw [Bool.not_eq_true] at update; rw [update]; rfl) (by simp)
  | deleteFromHash hashKey =>
    rw [start]
    split_ifs with update unset
    · exact consistent.miss new (by simpa [Call.isUpdate] using update) (Option.isNone_iff_eq_none.mp unset)
    · refine consistent.call new ?_ reads
      rw [update, pending]
      exact Option.isSome_iff_ne_none.mpr fun none_ => unset (by simp [none_])
    · exact consistent.call new (by rw [Bool.not_eq_true] at update; rw [update]; rfl) (by simp)
  | getHashValue hashKey => exact consistent.call new rfl reads

theorem consistent_resume {call : Call Value} (read : state.calls id = some { call, stage := .reading found }) :
    Consistent fields (resume cloneBeforeSet state id call found) := by
  match call, found with
  | .setHash hash, some reference => exact consistent.write read rfl cloneBeforeSet reference
  | .setHash hash, none =>
    have allocated := consistent.allocate (consistent.unread id _ read)
    exact allocated.write read rfl cloneBeforeSet state.size
  | .deleteFromHash hashKey, some reference =>
    exact consistent.write read rfl cloneBeforeSet reference
  | .deleteFromHash hashKey, none => exact consistent.setStage read rfl (by simp)
  | .getHashValue hashKey, _ => exact consistent.setStage read rfl (by simp)

theorem step_consistent {event : Event Value}
    (stepped : step cloneBeforeSet state event = some state') : Consistent fields state' := by
  cases event with
  | start id call =>
    rw [step] at stepped
    split_ifs at stepped with busy
    cases stepped
    exact consistent_start consistent (by simpa using busy) call
  | finish id =>
    rw [step] at stepped
    split at stepped
    · rename_i call value found
      cases stepped
      exact consistent.setStage found (by cases call <;> rfl) (by simp)
    · cases stepped
  | resume id =>
    rw [step] at stepped
    split at stepped
    · rename_i call found read
      cases stepped
      exact consistent_resume consistent read
    · cases stepped

end

theorem run_consistent (ran : (system cloneBeforeSet fields).run events = some state) : Consistent fields state :=
  (TransitionSystem.reachable_run ran).invariant (P := Consistent fields) consistent_initial
    fun _ _ _ consistent stepped => step_consistent consistent stepped

def Current (state : State Value) : Prop := state.log ⊆ state.updates

theorem Current.write (current : Current state) (cloneBeforeSet : Bool) {call : Call Value} {reference : ℕ}
    (all : state.updates ⊆ (state.objects reference).updates) :
    Current (state.write cloneBeforeSet id call reference) := by
  obtain ⟨log, -, -, ⟨stored, held, object⟩, -⟩ :=
    write_spec state cloneBeforeSet id call reference
  rw [Current, log, State.updates, held]
  simp only [Option.elim, object, HashObject.change]
  intro update listed
  rcases mem_append.mp listed with old | last
  · exact mem_append_left _ (all (current old))
  · exact mem_append_right _ last

theorem step_current (current : Current state) {event : Event Value}
    (stepped : step cloneBeforeSet state event = some state')
    (stores : StoresCurrent state event) : Current state' := by
  cases event with
  | start id call =>
    rw [step] at stepped
    split_ifs at stepped
    cases stepped
    cases call with
    | setHash hash =>
      rw [start]
      split_ifs <;> exact current
    | deleteFromHash hashKey =>
      rw [start]
      split_ifs <;> exact current
    | getHashValue hashKey => exact current
  | finish id =>
    rw [step] at stepped
    split at stepped
    · cases stepped
      exact current
    · cases stepped
  | resume id =>
    rw [step] at stepped
    split at stepped
    · rename_i call found read
      cases stepped
      match call, found with
      | .setHash hash, some reference =>
        exact Current.write current cloneBeforeSet (stores (some reference) (by rw [writes, read]))
      | .setHash hash, none =>
        have fresh := stores none (by rw [writes, read])
        have allocated : state.allocate.updates ⊆ (state.allocate.objects state.size).updates := by
          rw [State.updates, State.allocate]
          match held : state.stored with
          | none => exact nil_subset _
          | some reference =>
            rw [State.updates, held] at fresh
            simp only [Option.elim, update_apply] at fresh ⊢
            split_ifs
            · exact nil_subset _
            · simpa using fresh
        have none_ : Current state.allocate :=
          List.Subset.trans (List.Subset.trans current fresh) (nil_subset _)
        exact Current.write none_ cloneBeforeSet allocated
      | .deleteFromHash hashKey, some reference =>
        exact Current.write current cloneBeforeSet (stores (some reference) (by rw [writes, read]))
      | .deleteFromHash hashKey, none => exact current
      | .getHashValue hashKey, _ => exact current
    · cases stepped

/-- Where every call stores a current object, the stored object goes through every update. -/
theorem run_current (stores : (system cloneBeforeSet fields).AllSteps StoresCurrent (initial fields) events)
    (ran : (system cloneBeforeSet fields).run events = some state) : Current state :=
  (TransitionSystem.reachableVia_runFrom .init stores ran).invariant (P := Current)
    (nil_subset _) fun _ _ _ current stores stepped => step_current current stepped stores

theorem replay_deletions {updates : List (ℕ × Call Value)}
    (deletions : ∀ update ∈ updates, ∃ hashKey, update.2 = .deleteFromHash hashKey) :
    replay none updates = fun _ => none := by
  induction updates with
  | nil => rfl
  | cons update updates ih =>
    rw [forall_mem_cons] at deletions
    obtain ⟨⟨hashKey, deletion⟩, rest⟩ := deletions
    have same : update.2.apply (fun _ => none) = fun _ => none := by
      rw [deletion]
      funext key
      simp [Call.apply, update_apply]
    rw [replay, foldl_cons]
    exact (congrArg (updates.foldl _) same).trans (ih rest)

theorem Current.hash_eq (current : Current state) (consistent : Consistent fields state) :
    state.hash = replay fields (state.missed ++ state.log) := by
  have deletions : replay fields state.missed = fields.getD fun _ => none := by
    by_cases empty : state.missed = []
    · rw [empty]
      rfl
    · rw [consistent.missing empty]
      exact replay_deletions consistent.deletions
  rw [replay, foldl_append, ← replay, deletions, State.hash]
  match held : state.stored with
  | none =>
    obtain ⟨log, none_⟩ := consistent.unset held
    rw [log, none_]
    rfl
  | some reference =>
    have all : (state.objects reference).updates = state.log := by
      refine (consistent.ordered reference).eq_of_length_le ?_
      have sub : state.log ⊆ (state.objects reference).updates := by
        rw [Current, State.updates, held] at current
        exact current
      refine (subperm_of_subset ?_ sub).length_le
      have nodup := consistent.nodup
      rw [map_append, nodup_append] at nodup
      exact Nodup.of_map _ nodup.2.1
    simp only [Option.elim, consistent.content, all]
    rfl

end Invariant

section Order

variable {Value : Type} {cloneBeforeSet : Bool} {fields : Option (Fields Value)}
variable {state state' : State Value} {events : List (Event Value)} {call : Call Value} {id : ℕ} {stage : Stage Value}

structure Grows (state state' : State Value) : Prop where
  log : state.log <+: state'.log
  missed : state.missed <+: state'.missed
  stored : state.stored ≠ none → state'.stored ≠ none ∧ state'.missed = state.missed
  calls : ∀ id progress, state.calls id = some progress → ∃ stage, state'.calls id = some { progress with stage }

theorem Grows.refl (state : State Value) : Grows state state where
  log := prefix_rfl
  missed := prefix_rfl
  stored held := ⟨held, rfl⟩
  calls _ progress listed := ⟨progress.stage, listed⟩

theorem Grows.trans {later : State Value} (first : Grows state state')
    (second : Grows state' later) : Grows state later where
  log := first.log.trans second.log
  missed := first.missed.trans second.missed
  stored held := by
    obtain ⟨held', same⟩ := first.stored held
    obtain ⟨held'', same'⟩ := second.stored held'
    exact ⟨held'', same'.trans same⟩
  calls id progress listed := by
    obtain ⟨stage, listed'⟩ := first.calls id progress listed
    obtain ⟨stage', listed''⟩ := second.calls id _ listed'
    exact ⟨stage', listed''⟩

theorem Grows.setStage (grows : Grows state state')
    (same : ∀ progress, state.calls id = some progress → progress.call = call) :
    Grows state (state'.setStage id call stage) where
  log := grows.log
  missed := grows.missed
  stored := grows.stored
  calls other progress listed := by
    simp only [State.setStage, update_apply]
    split_ifs with own
    · subst own
      exact ⟨stage, by rw [← same progress listed]⟩
    · exact grows.calls other progress listed

theorem grows_write (state : State Value) (cloneBeforeSet : Bool) (id : ℕ) (call : Call Value)
    (reference : ℕ) : Grows state (state.write cloneBeforeSet id call reference) := by
  obtain ⟨log, missed, calls, ⟨stored, held, -⟩, -⟩ :=
    write_spec state cloneBeforeSet id call reference
  refine ⟨?_, ?_, fun _ => ⟨by simp [held], missed⟩, fun other progress listed => ?_⟩
  · rw [log]
    exact prefix_append _ _
  · rw [missed]
  · exact ⟨progress.stage, by rw [calls, listed]⟩

theorem grows_allocate (state : State Value) : Grows state state.allocate where
  log := prefix_rfl
  missed := prefix_rfl
  stored held := ⟨held, rfl⟩
  calls _ progress listed := ⟨progress.stage, listed⟩

theorem grows_start (new : state.calls id = none) (call : Call Value) : Grows state (start state id call) := by
  have same : ∀ progress, state.calls id = some progress → progress.call = call := by
    intro progress listed
    rw [new] at listed
    cases listed
  cases call with
  | setHash hash =>
    rw [start]
    split_ifs <;> exact (Grows.refl state).setStage same
  | deleteFromHash hashKey =>
    rw [start]
    split_ifs with update unset
    · refine Grows.setStage ?_ same
      refine { Grows.refl state with missed := prefix_append _ _, stored := fun held => ?_ }
      exact absurd (Option.isNone_iff_eq_none.mp unset) held
    · exact (Grows.refl state).setStage same
    · exact (Grows.refl state).setStage same
  | getHashValue hashKey => exact (Grows.refl state).setStage same

theorem grows_resume {found : Option ℕ} (read : state.calls id = some { call, stage := .reading found }) :
    Grows state (resume cloneBeforeSet state id call found) := by
  have same : ∀ progress, state.calls id = some progress → progress.call = call := by
    intro progress listed
    rw [read] at listed
    cases listed
    rfl
  match call, found with
  | .setHash hash, some reference => exact (grows_write ..).setStage same
  | .setHash hash, none => exact ((grows_allocate state).trans (grows_write ..)).setStage same
  | .deleteFromHash hashKey, some reference => exact (grows_write ..).setStage same
  | .deleteFromHash hashKey, none => exact (Grows.refl state).setStage same
  | .getHashValue hashKey, _ => exact (Grows.refl state).setStage same

theorem step_grows {event : Event Value}
    (stepped : step cloneBeforeSet state event = some state') : Grows state state' := by
  cases event with
  | start id call =>
    rw [step] at stepped
    split_ifs at stepped with busy
    cases stepped
    exact grows_start (by simpa using busy) call
  | finish id =>
    rw [step] at stepped
    split at stepped
    · rename_i call value found
      cases stepped
      refine (Grows.refl state).setStage fun progress listed => ?_
      rw [found] at listed
      cases listed
      rfl
    · cases stepped
  | resume id =>
    rw [step] at stepped
    split at stepped
    · rename_i call found read
      cases stepped
      exact grows_resume read
    · cases stepped

theorem run_grows {later : List (Event Value)} (ran : (system cloneBeforeSet fields).run events = some state)
    (ran' : (system cloneBeforeSet fields).run (events ++ later) = some state') : Grows state state' := by
  rw [TransitionSystem.run, TransitionSystem.runFrom_append, ← TransitionSystem.run, ran] at ran'
  exact TransitionSystem.runFrom_follows Grows.refl Grows.trans (fun _ _ _ stepped => step_grows stepped) ran'

/-- Of two lists of which the second one begins with the first one, an old entry comes first. -/
theorem idxOf_lt_of_prefix {α : Type} [DecidableEq α] {front whole : List α}
    (part : front <+: whole) {old new : α} (listed : old ∈ front) (unlisted : new ∉ front) :
    whole.idxOf old < whole.idxOf new := by
  obtain ⟨rest, rfl⟩ := part
  rw [idxOf_append_of_mem listed, idxOf_append_of_notMem unlisted]
  have bound := idxOf_lt_length_iff.mpr listed
  omega

theorem pending_done (done : stage.isDone = true) : pending call stage = false := by
  cases stage with
  | done value => cases call <;> rfl
  | reading found => cases done
  | returning value => cases done

theorem order_respects (ran : (system cloneBeforeSet fields).run events = some state) {first second : ℕ}
    (precedes : Precedes cloneBeforeSet fields events first second)
    (listed : first ∈ (state.missed ++ state.log).map fst) :
    ((state.missed ++ state.log).map fst).idxOf first <
      ((state.missed ++ state.log).map fst).idxOf second := by
  obtain ⟨before, earlier, ⟨later, rfl⟩, ran', ⟨progress, called, done⟩, new⟩ := precedes
  have grows := run_grows ran' ran
  have consistent := run_consistent ran'
  obtain ⟨⟨id, call⟩, entry, own⟩ := List.mem_map.mp listed
  obtain rfl : id = first := own
  obtain ⟨update, stage, same, -⟩ := ((run_consistent ran).made _ _).mp entry
  obtain ⟨stage', same'⟩ := grows.calls _ progress called
  rw [same] at same'
  cases same'
  have old : (id, progress.call) ∈ earlier.missed ++ earlier.log :=
    (consistent.made _ _).mpr ⟨update, progress.stage, called, pending_done done⟩
  have unlisted : second ∉ (earlier.missed ++ earlier.log).map fst := by
    intro listed
    obtain ⟨⟨_, other⟩, entry, rfl⟩ := List.mem_map.mp listed
    obtain ⟨-, stage, found, -⟩ := (consistent.made _ _).mp entry
    simp [new] at found
  rcases mem_append.mp old with missed | logged
  · refine idxOf_lt_of_prefix ?_
      (mem_map_of_mem missed : id ∈ earlier.missed.map fst) fun listed => unlisted ?_
    · exact (grows.missed.trans (prefix_append _ _)).map _
    · rw [map_append]
      exact mem_append_left _ listed
  · have held : earlier.stored ≠ none := by
      intro unset
      rw [(consistent.unset unset).1] at logged
      cases logged
    refine idxOf_lt_of_prefix ?_ (mem_map_of_mem old) unlisted
    rw [(grows.stored held).2]
    obtain ⟨rest, extended⟩ := grows.log
    exact ⟨rest.map fst, by rw [← extended]; simp⟩

/-- No update is lost in the runs in which every call stores an object that has gone through all
the updates of the stored one. -/
theorem losesNothing_of_storesCurrent
    (stores : (system cloneBeforeSet fields).AllSteps StoresCurrent (initial fields) events) :
    LosesNothing cloneBeforeSet fields events := by
  intro state ran returned
  have consistent := run_consistent ran
  refine ⟨state.missed ++ state.log, ⟨consistent.nodup, fun id call => ?_, ?_⟩,
    (run_current stores ran).hash_eq consistent⟩
  · rw [consistent.made]
    constructor
    · rintro ⟨update, stage, called, -⟩
      exact ⟨update, stage, called⟩
    · rintro ⟨update, stage, called⟩
      exact ⟨update, stage, called, pending_done (returned id _ called)⟩
  · exact fun first second precedes listed _ => order_respects ran precedes listed

/-- A field set and then deleted. -/
theorem losesNothing_deletion : LosesNothing true none [.start 0 (.setHash [("a", some 1)]), .resume 0,
      .start 1 (.deleteFromHash "a"), .finish 0, .resume 1, .finish 1] := by
  apply losesNothing_of_storesCurrent
  rintro _ ⟨⟩
  refine ⟨by rintro found ⟨⟩, ?_⟩
  rintro _ ⟨⟩
  refine ⟨?_, ?_⟩
  · rintro found ⟨⟩
    exact nil_subset _
  rintro _ ⟨⟩
  refine ⟨by rintro found ⟨⟩, ?_⟩
  rintro _ ⟨⟩
  refine ⟨by rintro found ⟨⟩, ?_⟩
  rintro _ ⟨⟩
  refine ⟨?_, ?_⟩
  · rintro found ⟨⟩
    exact List.Subset.refl _
  rintro _ ⟨⟩
  exact ⟨by rintro found ⟨⟩, trivial⟩

theorem replay_kept {order : List (ℕ × Call ℕ)} (entries : ∀ update ∈ order, update.2 = .setHash [("a", some 1)] ∨
      update.2 = .setHash [("b", some 2)])
    (listed : ∃ id, (id, .setHash [("a", some 1)]) ∈ order) : replay none order "a" = some 1 := by
  induction order using List.reverseRecOn with
  | nil => simp at listed
  | append_singleton order update ih =>
    rw [replay_append]
    rcases entries update (by simp) with first | second
    · rw [first]
      rfl
    · rw [second]
      refine (ih (fun other member => entries other (by simp [member])) ?_)
      obtain ⟨id, member⟩ := listed
      rcases mem_append.mp member with old | last
      · exact ⟨id, old⟩
      · rw [← mem_singleton.mp last] at second
        simp at second

/-- Two calls that both find the key missing: the field of the first one is lost. -/
theorem not_losesNothing_first : ¬ LosesNothing true none [.start 0 (.setHash [("a", some 1)]),
      .start 1 (.setHash [("b", some 2)]), .resume 0, .resume 1, .finish 0, .finish 1] := by
  intro loses
  obtain ⟨order, ordered, same⟩ := loses _ rfl (by
    intro id progress
    match id with
    | 0 =>
      rintro ⟨⟩
      rfl
    | 1 =>
      rintro ⟨⟩
      rfl
    | _ + 2 => rintro ⟨⟩)
  have kept : replay none order "a" = some 1 := by
    refine replay_kept (fun update listed => ?_) ⟨0, (ordered.all 0 _).mpr ⟨rfl, _, rfl⟩⟩
    obtain ⟨-, stage, called⟩ := (ordered.all update.1 update.2).mp listed
    match update with
    | (0, call) =>
      cases called
      exact .inl rfl
    | (1, call) =>
      cases called
      exact .inr rfl
    | (_ + 2, call) => cases called
  have lost := congrFun same "a"
  rw [← replay, kept] at lost
  cases lost

end Order

end N8n.HashCache
