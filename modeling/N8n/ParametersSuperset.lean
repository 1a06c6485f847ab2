import Mathlib.Tactic.IntervalCases
import N8n.ChecksumContent

/-! Whether a later version of a node's parameters still has everything that the earlier one
had: the same members with the same values, except that text may have been put into strings. -/

namespace N8n.WorkflowDiff

open JsonText WorkflowChecksum OrderedMap List Option

/-! ## Strings -/

/-- The loop of `stringContainsParts` from index `i` of `s`, of which `rest` is left; `none` is
the early `return false`. `marker` may be ahead of `i` by one. -/
def advanceMarker (substr : JsString) (diffSize : ℕ) : (rest : JsString) → (i marker : ℕ) → Option ℕ
  | [], _, marker => some marker
  | unit :: rest, i, marker =>
    let marker := if substr[marker]? = some unit then marker + 1 else marker
    if (i : ℤ) - marker > diffSize then none
    else advanceMarker substr diffSize rest (i + 1) marker

def stringContainsParts (s substr : JsString) : Bool :=
  if substr.length > s.length then false
  else
    match advanceMarker substr (s.length - substr.length) s 0 0 with
    | none => false
    | some marker => marker ≥ substr.length

/-- A unit that does not fit the next one of the wanted text is skipped, one that fits is taken. -/
theorem cons_sublist_cons_iff {unit other : CodeUnit} {wanted rest : JsString} :
    (unit :: wanted).Sublist (other :: rest) ↔
      if unit = other then wanted.Sublist rest else (unit :: wanted).Sublist rest := by
  split
  · next same =>
    rw [same]
    exact cons_sublist_cons
  · next different =>
    refine ⟨fun embedded => ?_, fun embedded => embedded.cons other⟩
    cases embedded with
    | cons _ embedded => exact embedded
    | cons_cons => exact absurd rfl different

/-- The marker reaches the end exactly when the rest of `substr` is embedded in the rest of `s`.
The early exit is taken only when more units are left than places for them. -/
theorem advanceMarker_iff {substr s : JsString} (fits : substr.length ≤ s.length) (rest : JsString)
    (i marker : ℕ) (at_ : i + rest.length = s.length) (inside : marker ≤ substr.length) :
    (∃ last, advanceMarker substr (s.length - substr.length) rest i marker = some last ∧ substr.length ≤ last) ↔
      (substr.drop marker).Sublist rest := by
  induction rest generalizing i marker with
  | nil =>
    simp only [advanceMarker, some.injEq, exists_eq_left', sublist_nil, drop_eq_nil_iff]
  | cons unit rest ih =>
    rw [length_cons] at at_
    rw [advanceMarker]
    have next : ∀ marker' ≤ substr.length, ((substr.drop marker').Sublist rest ↔
        ∃ last, (if (i : ℤ) - marker' > ↑(s.length - substr.length) then none
          else advanceMarker substr (s.length - substr.length) rest (i + 1) marker') = some last ∧
            substr.length ≤ last) := by
      intro marker' within
      split
      · next exits =>
        refine ⟨fun embedded => ?_, fun ⟨_, same, _⟩ => nomatch same⟩
        have shorter := embedded.length_le
        rw [length_drop] at shorter
        omega
      · exact (ih (i + 1) marker' (by omega) within).symm
    rcases inside.lt_or_eq with more | atEnd
    · have wanted : substr.drop marker = substr[marker] :: substr.drop (marker + 1) :=
        drop_eq_getElem_cons more
      rw [getElem?_eq_getElem more, wanted, cons_sublist_cons_iff]
      by_cases same : substr[marker] = unit
      · have taken : (if some substr[marker] = some unit then marker + 1 else marker) = marker + 1 :=
          if_pos (congrArg some same)
        rw [taken, if_pos same, next (marker + 1) more]
      · have skipped : (if some substr[marker] = some unit then marker + 1 else marker) = marker :=
          if_neg fun equal => same (some.inj equal)
        rw [skipped, if_neg same, ← wanted, next marker inside]
    · have skipped : (if substr[marker]? = some unit then marker + 1 else marker) = marker := by
        simp [getElem?_eq_none atEnd.ge]
      rw [skipped, ← next marker inside, drop_eq_nil_of_le atEnd.ge]
      exact ⟨fun _ => nil_sublist _, fun _ => nil_sublist _⟩

theorem stringContainsParts_iff {s substr : JsString} : stringContainsParts s substr = true ↔ substr.Sublist s := by
  rw [stringContainsParts]
  split
  · next longer =>
    refine ⟨fun no => absurd no Bool.false_ne_true, fun embedded => ?_⟩
    have shorter := embedded.length_le
    omega
  · next fits =>
    have whole := advanceMarker_iff (not_lt.mp fits) s 0 0 (Nat.zero_add _) (Nat.zero_le _)
    rw [drop_zero] at whole
    rw [← whole]
    cases advanceMarker substr (s.length - substr.length) s 0 0 <;> simp

/-! ## Values -/

def lengthKey : JsString := [108, 101, 110, 103, 116, 104]

theorem decimal_ne_nil (n : ℕ) : decimal n ≠ [] := by
  rw [decimal]
  split
  · exact cons_ne_nil _ _
  · next positive => simpa [Nat.digits_eq_nil_iff_eq_zero] using positive

theorem mem_decimal {n : ℕ} {u : CodeUnit} (member : u ∈ decimal n) : 48 ≤ u.val ∧ u.val ≤ 57 := by
  rw [decimal] at member
  split at member
  · obtain rfl := mem_singleton.mp member
    decide
  · obtain ⟨digit, inDigits, rfl⟩ := List.mem_map.mp member
    have small : digit < 10 := Nat.digits_lt_base (by omega) (mem_reverse.mp inDigits)
    rw [Fin.ofNat, Fin.val_mk]
    omega

theorem mem_numberUnits : ∀ u : CodeUnit, 48 ≤ u.val → u.val ≤ 57 → u ∈ numberUnits := by
  intro u low high
  have listed : ∀ n, 48 ≤ n → n ≤ 57 → Fin.ofNat 65536 n ∈ numberUnits := by
    intro n low high
    interval_cases n <;> decide
  have same : Fin.ofNat 65536 u.val = u := Fin.ext (Nat.mod_eq_of_lt u.isLt)
  exact same ▸ listed u.val low high

def countText (n : ℕ) : NumberText where
  text := decimal n
  nonempty := decimal_ne_nil n
  units _ member := mem_numberUnits _ (mem_decimal member).1 (mem_decimal member).2

def isCompound : Value → Bool
  | .array _ | .object _ => true
  | _ => false

def itemAt {α : Type} (items : List α) (key : JsString) : Option α :=
  if decimal (ofDecimal key) = key then items[ofDecimal key]? else none

def memberOf : Value → JsString → Option Value
  | .array items, key => itemAt items key
  | .object members, key => getEntry key members
  | _, _ => none

def ownValue : Value → JsString → Option Value
  | .array items, key => if key = lengthKey then some (.number (countText items.length)) else itemAt items key
  | value, key => memberOf value key

/-- `Object.keys`, which leaves the length out. -/
def keysOf : Value → List JsString
  | .array items => (List.range items.length).map decimal
  | .object members => objectKeys members
  | _ => []

mutual

/-- Values of different types or shapes are no supersets; an array may be one of an object. -/
def parametersAreSuperset : (prev next : Value) → Bool
  | .string prev, .string next => stringContainsParts next prev
  | .undefined, .undefined => true
  | .null, .null => true
  | .boolean prev, .boolean next => prev = next
  | .number prev, .number next => prev = next
  | .array prev, .array next => prev.length = next.length && everyItem prev next
  | .object prev, next =>
    let params := objectKeys prev
    isCompound next && params.length = (keysOf next).length && !params.any (fun x => (ownValue next x).isNone) &&
      params.all fun key => (getEntry key (memberChecks prev next)).getD false
  | _, _ => false

def everyItem : (prev next : List Value) → Bool
  | [], _ => true
  | v :: prev, next => parametersAreSuperset v (next.headD .undefined) && everyItem prev next.tail

/-- For each member of the earlier object the answer for the property of that name. -/
def memberChecks : (prev : List (JsString × Value)) → (next : Value) → List (JsString × Bool)
  | [], _ => []
  | (key, value) :: prev, next =>
    (key, parametersAreSuperset value ((ownValue next key).getD .undefined)) :: memberChecks prev next

end

/-! ## What one level of it says -/

section Levels

variable {prev next : Value} {key : JsString} {value : Value} {members : List (JsString × Value)}

/-- The equations are stated here once: deriving them from the mutual definition takes long. -/
theorem superset_object_eq (members : List (JsString × Value)) (next : Value) :
    parametersAreSuperset (.object members) next =
      (isCompound next && (objectKeys members).length = (keysOf next).length &&
        !(objectKeys members).any (fun x => (ownValue next x).isNone) &&
          (objectKeys members).all fun key => (getEntry key (memberChecks members next)).getD false) := by
  cases next <;> rfl

theorem superset_array_eq (items others : List Value) : parametersAreSuperset (.array items) (.array others) =
      (items.length = others.length && everyItem items others) := rfl

theorem superset_string_eq (text longer : JsString) :
    parametersAreSuperset (.string text) (.string longer) = stringContainsParts longer text := rfl

theorem superset_boolean_eq (value other : Bool) :
    parametersAreSuperset (.boolean value) (.boolean other) = decide (value = other) := rfl

theorem superset_number_eq (value other : NumberText) :
    parametersAreSuperset (.number value) (.number other) = decide (value = other) := rfl

theorem everyItem_cons (v w : Value) (prev next : List Value) :
    everyItem (v :: prev) (w :: next) = (parametersAreSuperset v w && everyItem prev next) := rfl

theorem memberChecks_cons (key : JsString) (value : Value) (members : List (JsString × Value)) (next : Value) :
    memberChecks ((key, value) :: members) next =
      (key, parametersAreSuperset value ((ownValue next key).getD .undefined)) :: memberChecks members next := rfl

theorem getEntry_memberChecks (members : List (JsString × Value)) (next : Value) (key : JsString) :
    getEntry key (memberChecks members next) = (getEntry key members).map fun value =>
      parametersAreSuperset value ((ownValue next key).getD .undefined) := by
  induction members with
  | nil => rfl
  | cons member members ih =>
    rw [memberChecks_cons, getEntry, getEntry, ih]
    split
    · next same => rw [same, map_some]
    · rfl

theorem exists_getEntry (listed : key ∈ members.map Prod.fst) : ∃ value, getEntry key members = some value := by
  induction members with
  | nil => cases listed
  | cons member members ih =>
    rw [getEntry]
    split
    · exact ⟨_, rfl⟩
    · next different =>
      rw [map_cons, mem_cons] at listed
      exact ih (listed.resolve_left (Ne.symm different))

theorem superset_object : parametersAreSuperset (.object members) next = true ↔
      isCompound next = true ∧ (objectKeys members).length = (keysOf next).length ∧
        ∀ key value, getEntry key members = some value →
          ∃ other, ownValue next key = some other ∧ parametersAreSuperset value other = true := by
  rw [superset_object_eq]
  simp only [Bool.and_eq_true, decide_eq_true_eq, and_assoc, Bool.not_eq_true', List.any_eq_false, List.all_eq_true,
    mem_objectKeys, getEntry_memberChecks, isNone_iff_eq_none]
  refine and_congr_right fun _ => and_congr_right fun _ => ⟨fun both key value found => ?_, fun each => ?_⟩
  · obtain ⟨owned, kept⟩ := both
    have listed : key ∈ members.map Prod.fst := List.mem_map.mpr ⟨_, getEntry_mem found, rfl⟩
    obtain ⟨other, own⟩ := ne_none_iff_exists'.mp (owned key listed)
    have here := kept key listed
    rw [found, own] at here
    exact ⟨other, own, here⟩
  · refine ⟨fun key listed => ?_, fun key listed => ?_⟩
    · obtain ⟨value, here⟩ := exists_getEntry listed
      obtain ⟨other, own, _⟩ := each key value here
      simp [own]
    · obtain ⟨value, here⟩ := exists_getEntry listed
      obtain ⟨other, own, kept⟩ := each key value here
      simp [here, own, kept]

theorem everyItem_iff {prev next : List Value} (lengths : prev.length = next.length) :
    everyItem prev next = true ↔ Forall₂ (parametersAreSuperset · · = true) prev next := by
  induction prev generalizing next with
  | nil =>
    obtain rfl := length_eq_zero_iff.mp lengths.symm
    exact ⟨fun _ => .nil, fun _ => rfl⟩
  | cons v prev ih =>
    cases next with
    | nil => cases lengths
    | cons w next => rw [everyItem_cons, Bool.and_eq_true, ih (Nat.succ.inj lengths), forall₂_cons]

theorem superset_array {items : List Value} : parametersAreSuperset (.array items) next = true ↔
      ∃ others, next = .array others ∧ Forall₂ (parametersAreSuperset · · = true) items others := by
  cases next with
  | array others =>
    rw [superset_array_eq, Bool.and_eq_true, decide_eq_true_eq]
    constructor
    · rintro ⟨lengths, every⟩
      exact ⟨others, rfl, (everyItem_iff lengths).mp every⟩
    · rintro ⟨_, same, pairs⟩
      obtain rfl := Value.array.inj same
      exact ⟨pairs.length_eq, (everyItem_iff pairs.length_eq).mpr pairs⟩
  | _ => exact ⟨fun accepted => Bool.noConfusion accepted, fun ⟨_, same, _⟩ => by cases same⟩

theorem superset_string {text : JsString} :
    parametersAreSuperset (.string text) next = true ↔ ∃ longer, next = .string longer ∧ text.Sublist longer := by
  cases next with
  | string longer =>
    rw [superset_string_eq, stringContainsParts_iff]
    exact ⟨fun within => ⟨longer, rfl, within⟩, fun ⟨_, same, within⟩ => Value.string.inj same ▸ within⟩
  | _ => exact ⟨fun accepted => Bool.noConfusion accepted, fun ⟨_, same, _⟩ => by cases same⟩

theorem superset_leaf (leaf : isCompound prev = false) (noText : ∀ text, prev ≠ .string text) :
    parametersAreSuperset prev next = true ↔ next = prev := by
  cases prev with
  | string text => exact absurd rfl (noText text)
  | array => cases leaf
  | object => cases leaf
  | boolean value =>
    cases next with
    | boolean other => rw [superset_boolean_eq, decide_eq_true_eq, Value.boolean.injEq, eq_comm]
    | _ => exact ⟨fun accepted => Bool.noConfusion accepted, fun same => by cases same⟩
  | number value =>
    cases next with
    | number other => rw [superset_number_eq, decide_eq_true_eq, Value.number.injEq, eq_comm]
    | _ => exact ⟨fun accepted => Bool.noConfusion accepted, fun same => by cases same⟩
  | undefined =>
    cases next with
    | undefined => exact ⟨fun _ => rfl, fun _ => rfl⟩
    | _ => exact ⟨fun accepted => Bool.noConfusion accepted, fun same => by cases same⟩
  | null =>
    cases next with
    | null => exact ⟨fun _ => rfl, fun _ => rfl⟩
    | _ => exact ⟨fun accepted => Bool.noConfusion accepted, fun same => by cases same⟩

theorem keys_of_superset (accepted : parametersAreSuperset prev next = true) (compound : isCompound prev = true) :
    isCompound next = true ∧ (keysOf prev).length = (keysOf next).length := by
  cases prev with
  | array items =>
    obtain ⟨others, rfl, pairs⟩ := superset_array.mp accepted
    exact ⟨rfl, by simpa [keysOf] using pairs.length_eq⟩
  | object members =>
    obtain ⟨compoundNext, lengths, _⟩ := superset_object.mp accepted
    exact ⟨compoundNext, lengths⟩
  | _ => cases compound

theorem itemAt_of_pairs {items others : List Value} {R : Value → Value → Prop} (pairs : Forall₂ R items others)
    (found : itemAt items key = some value) : ∃ other, itemAt others key = some other ∧ R value other := by
  rw [itemAt] at found ⊢
  split at found
  · next canonical =>
    obtain ⟨inside, rfl⟩ := List.getElem?_eq_some_iff.mp found
    have insideToo : ofDecimal key < others.length := pairs.length_eq ▸ inside
    exact ⟨others[ofDecimal key], by rw [if_pos canonical, getElem?_eq_getElem insideToo],
      (forall₂_iff_get.mp pairs).2 _ inside insideToo⟩
  · cases found

theorem own_of_superset (accepted : parametersAreSuperset prev next = true) (own : ownValue prev key = some value) :
    ∃ other, ownValue next key = some other ∧ parametersAreSuperset value other = true := by
  cases prev with
  | array items =>
    obtain ⟨others, rfl, pairs⟩ := superset_array.mp accepted
    rw [ownValue] at own ⊢
    split at own
    · next isLength =>
      obtain rfl := some.inj own
      exact ⟨_, if_pos isLength, (superset_leaf rfl (by simp)).mpr (by rw [pairs.length_eq])⟩
    · next other =>
      rw [if_neg other]
      exact itemAt_of_pairs pairs own
  | object members => exact (superset_object.mp accepted).2.2 key value own
  | _ => cases own

end Levels

/-! ## The order -/

theorem parametersAreSuperset_refl (value : Value) : parametersAreSuperset value value = true := by
  induction value with
  | string text => exact superset_string.mpr ⟨text, rfl, Sublist.refl text⟩
  | array items ih => exact superset_array.mpr ⟨items, rfl, forall₂_same.mpr ih⟩
  | object members ih =>
    exact superset_object.mpr ⟨rfl, rfl, fun key value found => ⟨value, found, ih (key, value) (getEntry_mem found)⟩⟩
  | _ => exact (superset_leaf rfl (by simp)).mpr rfl

theorem parametersAreSuperset_trans {a b c : Value} (first : parametersAreSuperset a b = true)
    (second : parametersAreSuperset b c = true) : parametersAreSuperset a c = true := by
  induction a generalizing b c with
  | string text =>
    obtain ⟨longer, rfl, within⟩ := superset_string.mp first
    obtain ⟨longest, rfl, withinToo⟩ := superset_string.mp second
    exact superset_string.mpr ⟨longest, rfl, within.trans withinToo⟩
  | array items ih =>
    obtain ⟨others, rfl, pairs⟩ := superset_array.mp first
    obtain ⟨rest, rfl, pairsToo⟩ := superset_array.mp second
    refine superset_array.mpr ⟨rest, rfl, forall₂_iff_get.mpr ⟨?_, fun i inside insideToo => ?_⟩⟩
    · exact pairs.length_eq.trans pairsToo.length_eq
    · have between : i < others.length := pairs.length_eq ▸ inside
      exact ih _ (get_mem items ⟨i, inside⟩) ((forall₂_iff_get.mp pairs).2 i inside between)
        ((forall₂_iff_get.mp pairsToo).2 i between insideToo)
  | object members ih =>
    obtain ⟨compound, lengths, each⟩ := superset_object.mp first
    obtain ⟨compoundToo, lengthsToo⟩ := keys_of_superset second compound
    refine superset_object.mpr ⟨compoundToo, lengths.trans lengthsToo, fun key value found => ?_⟩
    obtain ⟨other, own, kept⟩ := each key value found
    obtain ⟨last, ownToo, keptToo⟩ := own_of_superset second own
    exact ⟨last, ownToo, ih (key, value) (getEntry_mem found) kept keptToo⟩
  | _ =>
    obtain rfl := (superset_leaf rfl (by simp)).mp first
    exact second

/-! ## Leaves -/

def valueAt : (path : List JsString) → Value → Option Value
  | [], value => some value
  | key :: path, value => (memberOf value key).bind (valueAt path)

def LeafKept (leaf : Value) (there : Option Value) : Prop :=
  match leaf with
  | .string text => ∃ longer, there = some (.string longer) ∧ text.Sublist longer
  | leaf => there = some leaf

def LeavesKept (prev next : Value) : Prop :=
  ∀ path leaf, valueAt path prev = some leaf → isCompound leaf = false → LeafKept leaf (valueAt path next)

/-- Somewhere an array stands for an object that has a member called `length`. -/
def LengthMatched (prev next : Value) : Prop :=
  ∃ path members items, valueAt path prev = some (.object members) ∧ valueAt path next = some (.array items) ∧
    lengthKey ∈ members.map Prod.fst

section Leaves

variable {prev next : Value} {key : JsString} {value : Value}

theorem itemAt_lengthKey {α : Type} (items : List α) : itemAt items lengthKey = none := by
  refine if_neg fun canonical => ?_
  have digit := mem_decimal (canonical.symm ▸ mem_cons_self : (108 : CodeUnit) ∈ decimal (ofDecimal lengthKey))
  exact absurd digit.2 (by decide)

theorem own_of_member (found : memberOf value key = some next) : ownValue value key = some next := by
  cases value with
  | array items =>
    have noLength : key ≠ lengthKey := by
      rintro rfl
      rw [memberOf, itemAt_lengthKey] at found
      cases found
    rw [ownValue, if_neg noLength]
    exact found
  | _ => exact found

theorem member_of_own (own : ownValue value key = some next) : memberOf value key = some next ∨
      ∃ items, value = .array items ∧ key = lengthKey ∧ next = .number (countText items.length) := by
  cases value with
  | array items =>
    rw [ownValue] at own
    split at own
    · next isLength => exact .inr ⟨items, rfl, isLength, (some.inj own).symm⟩
    · exact .inl own
  | _ => exact .inl own

theorem superset_at (accepted : parametersAreSuperset prev next = true) {path : List JsString} {inPrev inNext : Value}
    (before : valueAt path prev = some inPrev) (after : valueAt path next = some inNext) :
    parametersAreSuperset inPrev inNext = true := by
  induction path generalizing prev next with
  | nil =>
    obtain rfl := some.inj before
    obtain rfl := some.inj after
    exact accepted
  | cons key path ih =>
    obtain ⟨old, found, before⟩ := bind_eq_some_iff.mp before
    obtain ⟨new, foundToo, after⟩ := bind_eq_some_iff.mp after
    obtain ⟨other, own, kept⟩ := own_of_superset accepted (own_of_member found)
    obtain rfl := some.inj (own.symm.trans (own_of_member foundToo))
    exact ih kept before after

theorem LeafKept.of_superset (leaf : isCompound prev = false) (accepted : parametersAreSuperset prev next = true) :
    LeafKept prev (some next) := by
  cases prev with
  | string text =>
    obtain ⟨longer, rfl, within⟩ := superset_string.mp accepted
    exact ⟨longer, rfl, within⟩
  | array => cases leaf
  | object => cases leaf
  | _ => exact congrArg some ((superset_leaf rfl (by simp)).mp accepted)

theorem leavesKept_of_not_lengthMatched (accepted : parametersAreSuperset prev next = true)
    (unmatched : ¬LengthMatched prev next) : LeavesKept prev next := by
  intro path leaf before isLeaf
  induction path generalizing prev next with
  | nil =>
    obtain rfl := some.inj before
    exact .of_superset isLeaf accepted
  | cons key path ih =>
    obtain ⟨old, found, before⟩ := bind_eq_some_iff.mp before
    obtain ⟨new, own, kept⟩ := own_of_superset accepted (own_of_member found)
    have foundToo : memberOf next key = some new := by
      refine (member_of_own own).resolve_right ?_
      rintro ⟨items, rfl, rfl, -⟩
      cases prev with
      | object members =>
        exact unmatched ⟨[], members, items, rfl, rfl, List.mem_map.mpr ⟨_, getEntry_mem found, rfl⟩⟩
      | array others =>
        rw [memberOf, itemAt_lengthKey] at found
        cases found
      | _ => cases found
    rw [valueAt, foundToo, bind_some]
    refine ih kept (fun ⟨inner, members, items, object, array, named⟩ => ?_) before
    exact unmatched ⟨key :: inner, members, items, by rw [valueAt, found]; exact object,
      by rw [valueAt, foundToo]; exact array, named⟩

theorem valueAt_append (path : List JsString) (key : JsString) (value : Value) :
    valueAt (path ++ [key]) value = (valueAt path value).bind (memberOf · key) := by
  induction path generalizing value with
  | nil => simp [valueAt]
  | cons first path ih =>
    rw [cons_append, valueAt, valueAt, Option.bind_assoc]
    exact congrArg _ (funext ih)

/-- The member called `length` is a number that stands nowhere in the array. -/
theorem not_leavesKept_of_lengthMatched (accepted : parametersAreSuperset prev next = true)
    (matched : LengthMatched prev next) : ¬LeavesKept prev next := by
  obtain ⟨path, members, items, object, array, named⟩ := matched
  intro kept
  obtain ⟨value, found⟩ := exists_getEntry named
  obtain ⟨other, own, same⟩ := own_of_superset (superset_at accepted object array) (own_of_member found)
  rw [ownValue, if_pos rfl] at own
  obtain rfl := some.inj own
  have isNumber : value = .number (countText items.length) := by
    cases value with
    | string =>
      obtain ⟨_, text, _⟩ := superset_string.mp same
      cases text
    | array =>
      obtain ⟨_, others, _⟩ := superset_array.mp same
      cases others
    | object => cases (superset_object.mp same).1
    | _ => exact ((superset_leaf rfl (by simp)).mp same).symm
  have before : valueAt (path ++ [lengthKey]) prev = some value := by
    rw [valueAt_append, object]
    exact found
  have after : valueAt (path ++ [lengthKey]) next = none := by
    rw [valueAt_append, array]
    exact itemAt_lengthKey items
  have there := kept _ value before (by rw [isNumber]; rfl)
  rw [after, isNumber] at there
  cases there

end Leaves

/-- The scan of a string decides whether the earlier text is within the later one, the comparison of parameters
is a preorder, and it keeps the leaves unless a member called `length` is taken for the length of an array. -/
theorem parametersAreSuperset_keeps (s substr : JsString) (a b c prev next : Value) :
    (stringContainsParts s substr = true ↔ substr.Sublist s) ∧
    parametersAreSuperset a a = true ∧
    (parametersAreSuperset a b = true → parametersAreSuperset b c = true → parametersAreSuperset a c = true) ∧
    (parametersAreSuperset prev next = true → (LeavesKept prev next ↔ ¬LengthMatched prev next)) :=
  ⟨stringContainsParts_iff, parametersAreSuperset_refl a, parametersAreSuperset_trans,
    fun accepted => ⟨fun kept matched => not_leavesKept_of_lengthMatched accepted matched kept,
      leavesKept_of_not_lengthMatched accepted⟩⟩

/-- `[5]` counts as a superset of an object with a length of one. -/
theorem lengthOne_matched :
    parametersAreSuperset (.object [(lengthKey, .number (countText 1))]) (.array [.number (countText 5)]) = true ∧
      ¬LeavesKept (.object [(lengthKey, .number (countText 1))]) (.array [.number (countText 5)]) := by
  have accepted : parametersAreSuperset (.object [(lengthKey, .number (countText 1))])
      (.array [.number (countText 5)]) = true := by
    have single : (objectKeys [(lengthKey, Value.number (countText 1))]).length = 1 := by
      cases indexed : isIndex lengthKey <;> simp [objectKeys, memberKeys, ownKeyOrder, indexed]
    refine superset_object.mpr ⟨rfl, single, fun key value found => ?_⟩
    rw [getEntry] at found
    split at found
    · next isLength =>
      obtain rfl := some.inj found
      exact ⟨_, if_pos isLength.symm, parametersAreSuperset_refl _⟩
    · cases found
  exact ⟨accepted, not_leavesKept_of_lengthMatched accepted ⟨[], _, _, rfl, rfl, mem_singleton.mpr rfl⟩⟩

end N8n.WorkflowDiff
