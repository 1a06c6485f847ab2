import Mathlib.Data.Rat.Cast.Order
import Mathlib.Order.WithBot
import N8n.Deduplication
import N8n.FilterParameter

/-! The latest modes as a watermark: what a history of calls reports, from an empty store. -/

namespace N8n.Deduplication

open Js List

variable {Host Digest : Type} (rt : Runtime Host) (mode : Mode)

section Rank

def rankOf : JsNumber → WithBot (WithTop ℚ)
  | .nan | .infinity true => ⊥
  | .infinity false => (⊤ : WithTop ℚ)
  | .finite value => ((value : WithTop ℚ) : WithBot (WithTop ℚ))

theorem less_iff {x y : JsNumber} (hx : x.isNaN = false) (hy : y.isNaN = false) :
    x.less y = true ↔ rankOf x < rankOf y := by
  match x, y with
  | .nan, _ => cases hx
  | _, .nan => cases hy
  | .finite x, .finite y => simp [JsNumber.less, rankOf]
  | .finite x, .infinity false =>
    have below : ((x : WithTop ℚ) : WithBot (WithTop ℚ)) < (⊤ : WithTop ℚ) :=
      WithBot.coe_lt_coe.mpr (WithTop.coe_lt_top x)
    simpa [JsNumber.less, rankOf] using below
  | .finite x, .infinity true => simp [JsNumber.less, rankOf]
  | .infinity false, .finite y => simp [JsNumber.less, rankOf]
  | .infinity true, .finite y => simp [JsNumber.less, rankOf]
  | .infinity false, .infinity false => simp [JsNumber.less, rankOf]
  | .infinity false, .infinity true => simp [JsNumber.less, rankOf]
  | .infinity true, .infinity false => simp [JsNumber.less, rankOf]
  | .infinity true, .infinity true => simp [JsNumber.less, rankOf]

def rank (item : Item) : WithBot (WithTop ℚ) :=
  match mode with
  | .latestIncrementalKey => rankOf (numberOf rt (some item))
  | .latestDate => rankOf (match timeOf rt (some item) with
    | some time => .finite time
    | none => .nan)
  | .entries => ⊥

def Valid (item : Item) : Prop :=
  match mode with
  | .latestIncrementalKey => (numberOf rt (some item)).isNaN = false
  | .latestDate => (timeOf rt (some item)).isSome = true
  | .entries => False

variable {rt mode}

theorem compareValues_valid {x y : Item} (hx : Valid rt mode x) (hy : Valid rt mode y) :
    ∃ order, compareValues rt mode (some x) (some y) = .ok order ∧ (order = .gt ↔ rank rt mode y < rank rt mode x) := by
  cases mode with
  | entries => exact hx.elim
  | latestIncrementalKey =>
    have less := less_iff hy hx
    rw [Valid] at hx hy
    refine ⟨_, by rw [compareValues]; simp only [hx, hy]; rfl, ?_⟩
    rw [rank, rank, ← less]
    split_ifs with same greater
    · have equal : numberOf rt (some x) = numberOf rt (some y) := by
        simpa [JsNumber.same, hx] using same
      rw [equal, less_iff hy hy]
      simp
    · simp [greater]
    · simp [greater]
  | latestDate =>
    obtain ⟨date1, found1⟩ := Option.isSome_iff_exists.mp hx
    obtain ⟨date2, found2⟩ := Option.isSome_iff_exists.mp hy
    refine ⟨_, by rw [compareValues, found1, found2], ?_⟩
    rw [rank, rank, found1, found2]
    split_ifs with later
    · simpa [rankOf] using later
    · simpa [rankOf] using later

end Rank

section Sorting

variable {rt mode}

theorem forM_ok {α : Type} {f : α → Except Failure Unit} {items : List α}
    (each : ∀ item ∈ items, f item = .ok ()) : items.forM f = .ok () := by
  induction items with
  | nil => rfl
  | cons item items ih =>
    rw [forall_mem_cons] at each
    change (do f item; items.forM f) = _
    rw [each.1]
    exact ih each.2

theorem sortEntries_valid {items : List Item} (valid : ∀ item ∈ items, Valid rt mode item) :
    ∃ sorted, sortEntries rt items mode = .ok sorted ∧ sorted.Perm items ∧
      ∀ last ∈ sorted.getLast?, ∀ item ∈ items, rank rt mode item ≤ rank rt mode last := by
  rw [sortEntries]
  split_ifs with short
  · refine ⟨items, rfl, .refl _, fun last listed item member => ?_⟩
    match items with
    | [] => cases member
    | [only] =>
      rw [mem_singleton.mp member, ← Option.some.inj listed]
      rfl
    | _ :: _ :: _ => simp at short
  · have compared : items.forM (fun item =>
        (compareValues rt mode (some item) (some item)).map fun _ => ()) = .ok () := by
      refine forM_ok fun item member => ?_
      obtain ⟨order, compared, -⟩ := compareValues_valid (valid item member) (valid item member)
      rw [compared]
      rfl
    have kept := mergeSort_perm items fun a b =>
      decide (compareValues rt mode (some a) (some b) ≠ .ok .gt)
    refine ⟨_, by rw [compared]; rfl, kept, fun last listed item member => ?_⟩
    -- The ranks are sorted, because the comparison is one of ranks.
    have ranks := map_mergeSort (l := items) (f := rank rt mode)
      (r := fun a b => decide (compareValues rt mode (some a) (some b) ≠ .ok .gt))
      (s := fun x y => decide (x ≤ y)) (by
        intro a first b second
        obtain ⟨order, compared, greater⟩ := compareValues_valid (valid a first) (valid b second)
        rw [compared]
        simp [greater, not_lt])
    have sorted : ((items.map (rank rt mode)).mergeSort fun x y => decide (x ≤ y)).Pairwise
        fun x y => decide (x ≤ y) = true :=
      pairwise_mergeSort (by simp; exact fun _ _ _ => le_trans) (by simp [le_total]) _
    rw [← ranks] at sorted
    have inside := kept.mem_iff.mpr member
    obtain ⟨front, split⟩ := getLast?_eq_some_iff.mp listed
    rw [split] at sorted inside
    rw [map_append, pairwise_append] at sorted
    rcases mem_append.mp inside with before | last'
    · simpa using sorted.2.2 _ (mem_map_of_mem before) (rank rt mode last) (by simp)
    · rw [mem_singleton.mp last']

end Sorting

section Histories

variable [DecidableEq Digest] (hash : String → Digest)

def record (maxEntries : Option ℕ) : Option (ProcessedData Digest) → List (List Item) → Except Failure (List Output)
  | _, [] => .ok []
  | processedData, items :: rest => do
    let (output, processedData) ← checkProcessedAndRecord rt hash items mode maxEntries processedData
    let outputs ← record maxEntries (some processedData) rest
    return output :: outputs

def isNew (earlier : List Item) (item : Item) : Bool :=
  earlier.all fun value => rank rt mode value < rank rt mode item

/-- Each call reports as new what is greater than every earlier value, and the other items as
processed. -/
def Reports : List Item → List (List Item) → List Output → Prop
  | _, [], [] => True
  | earlier, items :: rest, output :: outputs =>
    output.new.Perm (items.filter (isNew rt mode earlier)) ∧
      output.processed.Perm (items.filter fun item => !isNew rt mode earlier item) ∧
      Reports (earlier ++ items) rest outputs
  | _, _, _ => False

def split (stored : Item) (output : Output) (items : List Item) : Output where
  new := output.new ++ items.filter fun item => rank rt mode stored < rank rt mode item
  processed := output.processed ++ items.filter fun item => !decide (rank rt mode stored < rank rt mode item)

/-- The calls behave as a watermark and none of them throws. -/
def IsWatermark (maxEntries : Option ℕ) (batches : List (List Item)) : Prop :=
  ∃ outputs, record rt mode hash maxEntries none batches = .ok outputs ∧ Reports rt mode [] batches outputs

structure Greatest (earlier : List Item) (value : Item) : Prop where
  passed : value ∈ earlier
  greatest : ∀ item ∈ earlier, rank rt mode item ≤ rank rt mode value

def holding (value : Option Item) : ProcessedData Digest := { mode, data := .latest value }

variable {rt mode} {largest stored : Item}

theorem Greatest.isNew_iff {earlier : List Item} {value : Item}
    (greatest : Greatest rt mode earlier value) (item : Item) :
    isNew rt mode earlier item = true ↔ rank rt mode value < rank rt mode item := by
  rw [isNew, all_eq_true]
  constructor
  · intro each
    simpa using each value greatest.passed
  · intro above other member
    simpa using lt_of_le_of_lt (greatest.greatest other member) above

theorem checkItem_valid {item : Item} (kept : Valid rt mode stored)
    (known : Valid rt mode largest) (valid : Valid rt mode item)
    (above : rank rt mode stored ≤ rank rt mode largest) (output : Output) :
    ∃ largest', checkItem rt mode (some stored) (output, some largest) item =
        .ok (split rt mode stored output [item], some largest') ∧
      (largest' = largest ∨ largest' = item) ∧
      rank rt mode largest ≤ rank rt mode largest' ∧ rank rt mode item ≤ rank rt mode largest' := by
  obtain ⟨order, compared, greater⟩ := compareValues_valid valid kept
  rw [checkItem, compared]
  by_cases new : order = .gt
  · have higher := greater.mp new
    obtain ⟨order', compared', greater'⟩ := compareValues_valid valid known
    by_cases larger : order' = .gt
    · refine ⟨item, ?_, .inr rfl, (greater'.mp larger).le, le_rfl⟩
      simp [bind, Except.bind, compared', larger, new, split, higher, pure, Except.pure]
    · refine ⟨largest, ?_, .inl rfl, le_rfl, not_lt.mp (larger ∘ greater'.mpr)⟩
      simp [bind, Except.bind, compared', larger, new, split, higher, pure, Except.pure]
  · have lower : rank rt mode item ≤ rank rt mode stored := not_lt.mp (new ∘ greater.mpr)
    refine ⟨largest, ?_, .inl rfl, le_rfl, lower.trans above⟩
    simp [bind, Except.bind, new, split, not_lt.mpr lower, pure, Except.pure]

/-- One pass over the items, the stored value being kept beside the largest one. -/
theorem foldlM_checkItem (kept : Valid rt mode stored) {items : List Item}
    (valid : ∀ item ∈ items, Valid rt mode item) (output : Output)
    (known : Valid rt mode largest) (above : rank rt mode stored ≤ rank rt mode largest) :
    ∃ largest', items.foldlM (checkItem rt mode (some stored)) (output, some largest) =
        .ok (split rt mode stored output items, some largest') ∧
      largest' ∈ largest :: items ∧
      ∀ item ∈ largest :: items, rank rt mode item ≤ rank rt mode largest' := by
  induction items generalizing output largest with
  | nil => exact ⟨largest, by simp [split]; rfl, by simp, by simp⟩
  | cons item items ih =>
    rw [forall_mem_cons] at valid
    obtain ⟨next, checked, one, higher, covered⟩ :=
      checkItem_valid kept known valid.1 above output
    have nextValid : Valid rt mode next := by
      rcases one with rfl | rfl
      · exact known
      · exact valid.1
    obtain ⟨largest', folded, inside, greatest⟩ :=
      ih valid.2 (split rt mode stored output [item]) nextValid (above.trans higher)
    rw [forall_mem_cons] at greatest
    refine ⟨largest', ?_, ?_, ?_⟩
    · rw [foldlM_cons, checked]
      change items.foldlM _ _ = _
      rw [folded]
      by_cases new : rank rt mode stored < rank rt mode item
      · simp [split, new]
      · simp [split, new]
    · rcases one with rfl | rfl <;> grind
    · rw [forall_mem_cons, forall_mem_cons]
      exact ⟨higher.trans greatest.1, covered.trans greatest.1, greatest.2⟩

section

variable (latest : mode.isLatest = true) {value : Item} {items earlier : List Item}
include latest

theorem checkProcessedAndRecord_latest (items : List Item)
    (maxEntries : Option ℕ) {processedData : Option (ProcessedData Digest)}
    (same : processedData.any (fun data => data.mode ≠ mode) = false) :
    checkProcessedAndRecord rt hash items mode maxEntries processedData =
      handleLatestModes rt items mode processedData := by
  rw [checkProcessedAndRecord]
  simp only [same, latest]
  rfl

theorem first_call (valid : ∀ item ∈ items, Valid rt mode item) (some_ : items ≠ []) (maxEntries : Option ℕ) :
    ∃ value, checkProcessedAndRecord rt hash items mode maxEntries none =
        .ok ({ new := items }, holding mode (some value)) ∧
      Greatest rt mode items value := by
  obtain ⟨ordered, compared, same, greatest⟩ := sortEntries_valid valid
  have nonempty : ordered ≠ [] := fun none => some_ (same.symm.trans (none ▸ .refl _)).eq_nil
  refine ⟨ordered.getLast nonempty, ?_, ?_, ?_⟩
  · rw [checkProcessedAndRecord_latest hash latest _ _ rfl, handleLatestModes, compared]
    simp [bind, Except.bind, pure, Except.pure, getLast?_eq_some_getLast nonempty, holding]
  · exact same.mem_iff.mp (getLast_mem nonempty)
  · exact greatest _ (getLast?_eq_some_getLast nonempty)

theorem later_call (validEarlier : ∀ item ∈ earlier, Valid rt mode item)
    (valid : ∀ item ∈ items, Valid rt mode item) (maxEntries : Option ℕ) (stored : Greatest rt mode earlier value) :
    ∃ output value', checkProcessedAndRecord rt hash items mode maxEntries (some (holding mode (some value))) =
        .ok (output, holding mode (some value')) ∧
      output.new.Perm (items.filter (isNew rt mode earlier)) ∧
      output.processed.Perm (items.filter fun item => !isNew rt mode earlier item) ∧
      Greatest rt mode (earlier ++ items) value' := by
  obtain ⟨ordered, compared, same, -⟩ := sortEntries_valid valid
  have known := validEarlier value stored.passed
  obtain ⟨value', folded, inside, greatest⟩ := foldlM_checkItem known
    (fun item member => valid item (same.mem_iff.mp member)) {} known le_rfl
  have fresh : isNew rt mode earlier = fun item =>
      decide (rank rt mode value < rank rt mode item) := by
    funext item
    exact Bool.eq_iff_iff.mpr ((stored.isNew_iff item).trans decide_eq_true_iff.symm)
  refine ⟨split rt mode value {} ordered, value', ?_, ?_, ?_, ?_, ?_⟩
  · rw [checkProcessedAndRecord_latest hash latest _ _ (by simp [holding]), handleLatestModes, compared]
    simp [bind, Except.bind, pure, Except.pure, holding, folded]
  · rw [fresh]
    simpa [split] using same.filter _
  · rw [fresh]
    simpa [split] using same.filter _
  · rcases mem_cons.mp inside with rfl | listed
    · exact mem_append_left _ stored.passed
    · exact mem_append_right _ (same.mem_iff.mp listed)
  · rw [forall_mem_cons] at greatest
    intro item member
    rcases mem_append.mp member with old | new
    · exact (stored.greatest item old).trans greatest.1
    · exact greatest.2 item (same.mem_iff.mpr new)

theorem record_reports {batches : List (List Item)} (validEarlier : ∀ item ∈ earlier, Valid rt mode item)
    (valid : ∀ batch ∈ batches, ∀ item ∈ batch, Valid rt mode item) (maxEntries : Option ℕ)
    (stored : Greatest rt mode earlier value) :
    ∃ outputs, record rt mode hash maxEntries (some (holding mode (some value))) batches =
        .ok outputs ∧ Reports rt mode earlier batches outputs := by
  induction batches generalizing earlier value with
  | nil => exact ⟨[], rfl, trivial⟩
  | cons items rest ih =>
    rw [forall_mem_cons] at valid
    obtain ⟨output, value', called, new, processed, stored'⟩ :=
      later_call hash latest validEarlier valid.1 maxEntries stored
    obtain ⟨outputs, recorded, reports⟩ := ih (forall_mem_append.mpr ⟨validEarlier, valid.1⟩) valid.2 stored'
    refine ⟨output :: outputs, ?_, new, processed, reports⟩
    rw [record, called]
    simp [bind, Except.bind, recorded, pure, Except.pure]

end

section Unset

def UndefinedIsNoDate (rt : Runtime Host) : Prop :=
  ∀ format ∈ TypeValidation.dateFormats rt, format "undefined" = none

theorem timeOf_none (noDate : UndefinedIsNoDate rt) : timeOf rt none = none := by
  have trimmed : String.ofList (JsText.trim "undefined".toList) = "undefined" := by decide
  have none_ : (TypeValidation.dateFormats rt).findSome? (fun format => format "undefined") = none :=
    findSome?_eq_none_iff.mpr noDate
  have parsed : TypeValidation.tryToParseDateTime rt (valueOf none) =
      .error (.userError "Value is not a valid date") := by
    change (match (TypeValidation.dateFormats rt).findSome? fun format =>
        format (String.ofList (JsText.trim "undefined".toList)) with
      | some time => _
      | none => _) = _
    rw [trimmed, none_]
  rw [timeOf, parsed]

theorem compareValues_none (noDate : UndefinedIsNoDate rt) (latest : mode.isLatest = true)
    (item : Item) : ∃ failure, compareValues rt mode (some item) none = .error failure := by
  cases mode with
  | entries => cases latest
  | latestIncrementalKey =>
    have undefined : (numberOf rt none).isNaN = true := rfl
    exact ⟨.invalidNumber, by rw [compareValues]; simp [undefined]⟩
  | latestDate =>
    refine ⟨.invalidDate, ?_⟩
    rw [compareValues, timeOf_none noDate]
    cases timeOf rt (some item) <;> rfl
variable {processedData : Option (ProcessedData Digest)} {batches : List (List Item)}

theorem empty_call (latest : mode.isLatest = true) (maxEntries : Option ℕ)
    (unset : processedData = none ∨ processedData = some (holding mode none)) :
    checkProcessedAndRecord rt hash [] mode maxEntries processedData = .ok ({}, holding mode none) := by
  rcases unset with rfl | rfl
  · rw [checkProcessedAndRecord_latest hash latest _ _ rfl]
    rfl
  · rw [checkProcessedAndRecord_latest hash latest _ _ (by simp [holding])]
    rfl

theorem unset_call (noDate : UndefinedIsNoDate rt) (latest : mode.isLatest = true)
    {items : List Item} (valid : ∀ item ∈ items, Valid rt mode item) (some_ : items ≠ []) (maxEntries : Option ℕ) :
    ∃ failure, checkProcessedAndRecord rt hash items mode maxEntries
      (some (holding mode none : ProcessedData Digest)) = .error failure := by
  obtain ⟨ordered, compared, same, -⟩ := sortEntries_valid valid
  match ordered with
  | [] => exact absurd same.symm.eq_nil some_
  | item :: ordered =>
    obtain ⟨failure, failed⟩ := compareValues_none noDate latest item
    refine ⟨failure, ?_⟩
    rw [checkProcessedAndRecord_latest hash latest _ _ (by simp [holding]), handleLatestModes, compared]
    simp [bind, Except.bind, holding, checkItem, failed]

theorem record_empty (latest : mode.isLatest = true) (maxEntries : Option ℕ) (empty : ∀ batch ∈ batches, batch = [])
    (unset : processedData = none ∨ processedData = some (holding mode none)) :
    ∃ outputs, record rt mode hash maxEntries processedData batches = .ok outputs ∧
      Reports rt mode [] batches outputs := by
  induction batches generalizing processedData with
  | nil => exact ⟨[], rfl, trivial⟩
  | cons items rest ih =>
    rw [forall_mem_cons] at empty
    obtain ⟨rfl, empty⟩ := empty
    obtain ⟨outputs, recorded, reports⟩ := ih empty (.inr rfl)
    refine ⟨{} :: outputs, ?_, .refl _, .refl _, reports⟩
    rw [record, empty_call hash latest maxEntries unset]
    simp [bind, Except.bind, recorded, pure, Except.pure]

theorem record_unset (noDate : UndefinedIsNoDate rt) (latest : mode.isLatest = true) (maxEntries : Option ℕ)
    (valid : ∀ batch ∈ batches, ∀ item ∈ batch, Valid rt mode item) {outputs : List Output}
    (recorded : record rt mode hash maxEntries (some (holding mode none : ProcessedData Digest))
      batches = .ok outputs) : ∀ batch ∈ batches, batch = [] := by
  induction batches generalizing outputs with
  | nil => simp
  | cons items rest ih =>
    rw [forall_mem_cons] at valid ⊢
    by_cases none : items = []
    · refine ⟨none, ?_⟩
      subst none
      rw [record, empty_call hash latest maxEntries (.inr rfl)] at recorded
      cases followed : record rt mode hash maxEntries (some (holding mode .none : ProcessedData Digest)) rest with
      | error => simp [bind, Except.bind, followed] at recorded
      | ok outputs => exact ih valid.2 followed
    · obtain ⟨failure, failed⟩ := unset_call hash noDate latest valid.1 none maxEntries
      rw [record, failed] at recorded
      cases recorded

end Unset

/-- A history of calls in a latest mode is the watermark that it should be, unless the first call
had no items and a later one has. -/
theorem isWatermark_iff (noDate : UndefinedIsNoDate rt) (latest : mode.isLatest = true)
    (maxEntries : Option ℕ) {batches : List (List Item)}
    (valid : ∀ batch ∈ batches, ∀ item ∈ batch, Valid rt mode item) :
    IsWatermark rt mode hash maxEntries batches ↔ (batches.head? = some [] → ∀ batch ∈ batches, batch = []) := by
  match batches with
  | [] => exact ⟨by simp, fun _ => ⟨[], rfl, trivial⟩⟩
  | items :: rest =>
    by_cases none : items = []
    · subst none
      constructor
      · rintro ⟨outputs, recorded, -⟩ -
        rw [record, empty_call hash latest maxEntries (.inl rfl)] at recorded
        cases followed : record rt mode hash maxEntries (some (holding mode .none : ProcessedData Digest)) rest with
        | error => simp [bind, Except.bind, followed] at recorded
        | ok outputs =>
          rw [forall_mem_cons] at valid ⊢
          exact ⟨rfl, record_unset hash noDate latest maxEntries valid.2 followed⟩
      · intro empty
        exact record_empty hash latest maxEntries (empty rfl) (.inl rfl)
    · refine ⟨fun _ first => absurd (Option.some.inj first) none, fun _ => ?_⟩
      rw [forall_mem_cons] at valid
      obtain ⟨value, called, stored⟩ := first_call hash latest valid.1 none maxEntries
      obtain ⟨outputs, recorded, reports⟩ :=
        record_reports hash latest valid.1 valid.2 maxEntries stored
      refine ⟨{ new := items } :: outputs, ?_, ?_, ?_, reports⟩
      · rw [record, called]
        simp [bind, Except.bind, recorded, pure, Except.pure]
      · rw [filter_eq_self.mpr (fun item _ => show isNew rt mode [] item = true from rfl)]
      · simp [isNew]

theorem valid_number (value : ℚ) : Valid rt .latestIncrementalKey (.number value) := rfl

/-- Two items, a call without any, and an item that repeats one beside a new one. -/
theorem isWatermark_numbers : IsWatermark FilterParameter.plainRuntime .latestIncrementalKey id none
      [[.number 5, .number 3], [], [.number 7, .number 5]] := by
  refine (isWatermark_iff id (fun format listed => ?_) rfl none ?_).mpr (by simp)
  · simp only [TypeValidation.dateFormats, mem_cons, not_mem_nil, or_false] at listed
    rcases listed with rfl | rfl | rfl | rfl | rfl <;> rfl
  · simp [valid_number]

/-- A trigger whose first poll finds nothing: the item of the second poll throws. -/
theorem not_isWatermark_unset : (∀ batch ∈ [[], [Item.number 5]], ∀ item ∈ batch,
      Valid FilterParameter.plainRuntime .latestIncrementalKey item) ∧
    ¬ IsWatermark FilterParameter.plainRuntime .latestIncrementalKey id none [[], [.number 5]] := by
  constructor
  · simp [valid_number]
  · rintro ⟨outputs, recorded, -⟩
    cases recorded

end Histories

end N8n.Deduplication
