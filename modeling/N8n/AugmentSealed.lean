import N8n.AugmentView

/-! The cells that are never written. The numbers of the original and of the values that
are put into augmented arrays are frozen: their cells are only reached through proxies, so
they stay as they came in. Values that are set on an object are not, and a program holds
plain references into them. -/

namespace N8n.AugmentObject

open PlainData List Option Function Nat

abbrev Frozen := ℕ → Option Json

/-- References are to frozen cells or to numbers that are not frozen, and to one of the
first `count` proxies. -/
def Fits (frozen : Bool) (F : Frozen) (roots count : ℕ) : Value → Prop
  | .plain a => a.root < roots ∧
      if frozen then ∃ json, F a.root = some json ∧ (json.cellAt a).isSome = true else F a.root = none
  | .proxy i => i < count
  | _ => True

/-- An array keeps what it has not augmented yet; an object holds what was set. -/
def Overlay.Fits (F : Frozen) (roots count : ℕ) : Overlay → Prop
  | .object newData _ => ∀ key v, newData.get key = some v → AugmentObject.Fits false F roots count v
  | .array none => True
  | .array (some newData) => newData.isArray = true ∧ newData.view.Sized ∧
      ∀ key v, newData.own.get key = some v → AugmentObject.Fits true F roots count v

/-- The frozen numbers after a value was written, which comes in frozen or not. -/
def Frozen.bring (F : Frozen) (roots : ℕ) (freeze : Bool) : Option Json → Frozen
  | none => F
  | some json => Function.update F roots (if freeze then some json else none)

def Frozen.after (F : Frozen) (roots : ℕ) (freeze : Bool) : Action → Frozen
  | .set _ written => Frozen.bring F roots freeze written
  | _ => F

structure Sealed (F : Frozen) (s : Augmented) : Prop where
  fresh : ∀ a c, s.store.plain a = some c → a.root < s.store.roots
  frozen : ∀ n json, F n = some json → n < s.store.roots ∧ ∀ a, a.root = n → s.store.plain a = json.cellAt a
  raw : ∀ a c, s.store.plain a = some c → F a.root = none →
    ∀ key v, c.own.get key = some v → Fits false F s.store.roots 0 v
  target : ∀ (i : ℕ) (p : Proxy), s.proxies[i]? = some p → (F p.target.root).isSome = true ∧
    ∃ data, s.store.plain p.target = some data ∧ p.overlay.isArray = data.isArray
  overlay : ∀ (i : ℕ) (p : Proxy), s.proxies[i]? = some p → p.overlay.Fits F s.store.roots s.proxies.length
  handles : ∀ v ∈ s.handles, Fits false F s.store.roots s.proxies.length v

section Fits

variable {frozen : Bool} {F F' : Frozen} {roots roots' count count' : ℕ}

theorem Fits.mono {v : Value} (h : Fits frozen F roots count v)
    (same : ∀ n < roots, F' n = F n) (roots_le : roots ≤ roots') (count_le : count ≤ count') :
    Fits frozen F' roots' count' v := by
  cases v with
  | plain a =>
    obtain ⟨below, known⟩ := h
    exact ⟨by omega, by rwa [same _ below]⟩
  | proxy i => exact lt_of_lt_of_le h count_le
  | _ => trivial

theorem Overlay.Fits.mono {overlay : Overlay} (h : overlay.Fits F roots count)
    (same : ∀ n < roots, F' n = F n) (roots_le : roots ≤ roots') (count_le : count ≤ count') :
    overlay.Fits F' roots' count' := by
  cases overlay with
  | object newData deleted => exact fun key v found => (h key v found).mono same roots_le count_le
  | array newData =>
    cases newData with
    | none => trivial
    | some newData =>
      exact ⟨h.1, h.2.1, fun key v found => (h.2.2 key v found).mono same roots_le count_le⟩

end Fits

/-! ## Frozen cells -/

variable {json : Json} {a : Addr} {c : Cell} {key : Key}

theorem cellAt_some (found : json.cellAt a = some c) :
    ∃ inner, json.valueAt a.path = some inner ∧ inner.isCompound = true ∧ c = inner.cell a := by
  simp only [Json.cellAt, map_eq_some_iff, filter_eq_some_iff] at found
  obtain ⟨inner, ⟨there, compound⟩, rfl⟩ := found
  exact ⟨inner, there, compound, rfl⟩

theorem cellAt_child {b : Addr} (found : json.cellAt a = some c) (reference : c.own.get key = some (.plain b)) :
    b = a.child key ∧ ∃ inner, json.cellAt b = some (Json.cell b inner) := by
  obtain ⟨outer, there, _, rfl⟩ := cellAt_some found
  rw [own_cell, map_eq_some_iff] at reference
  obtain ⟨inner, entry, same⟩ := reference
  cases inner with
  | prim p => cases same
  | array items =>
    cases same
    refine ⟨rfl, .array items, ?_⟩
    simp [Json.cellAt, Addr.child, Json.valueAt, there, entry, Json.isCompound]
  | object entries =>
    cases same
    refine ⟨rfl, .object entries, ?_⟩
    simp [Json.cellAt, Addr.child, Json.valueAt, there, entry, Json.isCompound]

theorem own_cellAt {v : Value} (found : json.cellAt a = some c) (own : c.own.get key = some v) :
    (∃ p, v = .prim p) ∨ v = .plain (a.child key) := by
  obtain ⟨outer, there, _, rfl⟩ := cellAt_some found
  rw [own_cell, map_eq_some_iff] at own
  obtain ⟨inner, entry, rfl⟩ := own
  cases inner with
  | prim p => exact .inl ⟨p, rfl⟩
  | array items => exact .inr rfl
  | object entries => exact .inr rfl

section Sealed

variable {F : Frozen} {s : Augmented} {p : Proxy}

theorem Sealed.data (h : Sealed F s) {i : ℕ} (there : s.proxies[i]? = some p) {data : Cell}
    (found : s.store.plain p.target = some data) :
    ∃ json, F p.target.root = some json ∧ json.cellAt p.target = some data := by
  obtain ⟨json, known⟩ := isSome_iff_exists.mp (h.target i p there).1
  exact ⟨json, known, ((h.frozen _ _ known).2 _ rfl) ▸ found⟩

theorem Sealed.setOverlay (h : Sealed F s) {i : ℕ} (there : s.proxies[i]? = some p)
    {overlay : Overlay} (fits : overlay.Fits F s.store.roots s.proxies.length)
    (kind : overlay.isArray = p.overlay.isArray) : Sealed F (s.setOverlay i overlay) := by
  refine ⟨h.fresh, h.frozen, h.raw, fun j q there' => ?_, fun j q there' => ?_, ?_⟩
  · simp only [Augmented.setOverlay, getElem?_modify] at there'
    obtain ⟨old, before, rfl⟩ := map_eq_some_iff.mp there'
    by_cases here : i = j
    · subst here
      obtain rfl := some.inj (there.symm.trans before)
      obtain ⟨frozen, data, found, same⟩ := h.target i p there
      simp only [if_true]
      exact ⟨frozen, data, found, kind.trans same⟩
    · simp only [here, if_false]
      exact h.target j old before
  · simp only [Augmented.setOverlay, getElem?_modify, length_modify] at there' ⊢
    obtain ⟨old, before, rfl⟩ := map_eq_some_iff.mp there'
    by_cases here : i = j
    · simpa [here] using fits
    · simpa [here] using h.overlay j old before
  · simpa [Augmented.setOverlay] using h.handles

theorem Sealed.wrap (h : Sealed F s) {b : Addr} (found : s.store.plain b = some c) (frozen : (F b.root).isSome = true) :
    Sealed F { s with
      proxies := s.proxies ++ [⟨b, if c.isArray then .array none else .object .empty ∅⟩] } := by
  have fits (count : ℕ) : (if c.isArray then Overlay.array none else .object .empty ∅).Fits F
      s.store.roots count := by
    split
    · trivial
    · intro key v found
      simp at found
  refine ⟨h.fresh, h.frozen, h.raw, fun j q there => ?_, fun j q there => ?_, fun v member => ?_⟩
  · by_cases old : j < s.proxies.length
    · rw [getElem?_append_left old] at there
      exact h.target j q there
    · rw [getElem?_append_right (by omega), getElem?_singleton] at there
      split at there
      · cases there
        refine ⟨frozen, c, found, ?_⟩
        cases c.isArray <;> rfl
      · cases there
  · by_cases old : j < s.proxies.length
    · rw [getElem?_append_left old] at there
      exact (h.overlay j q there).mono (fun _ _ => rfl) (le_refl _) (by simp)
    · rw [getElem?_append_right (by omega), getElem?_singleton] at there
      split at there
      · cases there
        exact fits _
      · cases there
  · exact (h.handles v member).mono (fun _ _ => rfl) (le_refl _) (by simp)

/-- The store after a write that brings `json`. -/
def Store.bring (json : Json) (s : Store) : Store :=
  { plain := fun a => if a.root = s.roots then json.cellAt a else s.plain a, roots := s.roots + 1 }

/-- A value comes in under a new number, which is frozen or not. -/
theorem Sealed.bring (h : Sealed F s) (json : Json) (freeze : Bool) :
    Sealed (Function.update F s.store.roots (if freeze then some json else none))
      { s with store := s.store.bring json } := by
  have same : ∀ n < s.store.roots, Function.update F s.store.roots (if freeze then some json else none) n = F n := by
    intro n below
    rw [update_of_ne (by omega)]
  have old {a : Addr} (below : a.root < s.store.roots) : (s.store.bring json).plain a = s.store.plain a := by
    simp only [Store.bring, if_neg (show ¬ a.root = s.store.roots by omega)]
  refine ⟨fun a c found => ?_, fun n json' known => ?_, fun a c found raw key v own => ?_,
    fun j q there => ?_, fun j q there => ?_, fun v member => ?_⟩
  · simp only [Store.bring] at found ⊢
    split at found
    · omega
    · have := h.fresh a c found
      omega
  · by_cases new : n = s.store.roots
    · subst new
      rw [update_self] at known
      refine ⟨lt_succ_self _, fun a here => ?_⟩
      split at known
      · cases known
        simp [Store.bring, here]
      · cases known
    · rw [update_of_ne new] at known
      obtain ⟨below, cells⟩ := h.frozen n json' known
      exact ⟨lt_succ_of_lt below, fun a here => by rw [old (here ▸ below), cells a here]⟩
  · by_cases new : a.root = s.store.roots
    · simp only [Store.bring, new, if_true] at found
      rcases own_cellAt found own with ⟨p, rfl⟩ | rfl
      · trivial
      · exact ⟨by simp [Addr.child, new, Store.bring], by simpa [Addr.child] using raw⟩
    · have found : s.store.plain a = some c := by simpa only [Store.bring, new, if_false] using found
      have below := h.fresh a c found
      rw [same _ below] at raw
      exact (h.raw a c found raw key v own).mono same (le_succ _) (le_refl _)
  · obtain ⟨frozen, data, found, kind⟩ := h.target j q there
    have below := h.fresh _ _ found
    exact ⟨by rw [same _ below]; exact frozen, data, by rw [old below, found], kind⟩
  · exact (h.overlay j q there).mono same (le_succ _) (le_refl _)
  · exact (h.handles v member).mono same (le_succ _) (le_refl _)

theorem Sealed.update (h : Sealed F s) {c' : Cell} (found : s.store.plain a = some c) (raw : F a.root = none)
    (fits : ∀ key v, c'.own.get key = some v → Fits false F s.store.roots 0 v) :
    Sealed F { s with store := s.store.update a c' } := by
  have other {b : Addr} (different : b ≠ a) : (s.store.update a c').plain b = s.store.plain b := by
    simp only [Store.update, update_of_ne different]
  refine ⟨fun b d there => ?_, fun n json known => ?_, fun b d there raw' => ?_,
    fun j q there => ?_, h.overlay, h.handles⟩
  · by_cases here : b = a
    · exact here ▸ h.fresh a c found
    · exact h.fresh b d (other here ▸ there)
  · obtain ⟨below, cells⟩ := h.frozen n json known
    refine ⟨below, fun b here => ?_⟩
    have different : b ≠ a := by
      rintro rfl
      rw [here, known] at raw
      cases raw
    rw [other different, cells b here]
  · by_cases here : b = a
    · subst here
      simp only [Store.update, update_self, some.injEq] at there
      subst there
      exact fits
    · exact h.raw b d (other here ▸ there) raw'
  · obtain ⟨frozen, data, there', kind⟩ := h.target j q there
    have different : q.target ≠ a := by
      intro same
      rw [same, raw] at frozen
      cases frozen
    exact ⟨frozen, data, by rw [other different, there'], kind⟩

end Sealed

/-! ## Every action keeps frozen cells -/

/-- What an action does to the frozen numbers and to the references it hands out. -/
structure Keeps (F : Frozen) (s : Augmented) (result : Result) (F' : Frozen) (s' : Augmented) : Prop where
  old : ∀ n < s.store.roots, F' n = F n
  sealed : Sealed F' s'
  grows : s.store.roots ≤ s'.store.roots
  handles : s'.handles = s.handles
  result : ∀ v, result = .value v → Fits false F' s'.store.roots s'.proxies.length v

section Keeps

variable {F : Frozen} {s : Augmented} {toLength : Option Json → Option ℕ}

/-- Values that are not references fit anywhere. -/
theorem fits_get {frozen : Bool} {roots count : ℕ} {v : View}
    (fits : ∀ key x, v.own key = some x → Fits frozen F roots count x) (key : Key) :
    Fits frozen F roots count (v.get key) := by
  unfold View.get View.getOwn
  split
  · trivial
  · cases own : v.own key with
    | some x => exact fits key x own
    | none =>
      unfold inherited
      split
      · trivial
      split
      · trivial
      split <;> trivial

theorem Store.write_plain (store : Store) (written : Option Json) (below : a.root < store.roots) :
    (store.write written).2.plain a = store.plain a := by
  cases written with
  | none => rfl
  | some json => simp only [Store.write, if_neg (show ¬ a.root = store.roots by omega)]

theorem Sealed.write (h : Sealed F s) (written : Option Json) (freeze : Bool) :
    (∀ n < s.store.roots, Frozen.bring F s.store.roots freeze written n = F n) ∧
      Sealed (Frozen.bring F s.store.roots freeze written) { s with store := (s.store.write written).2 } ∧
      s.store.roots ≤ (s.store.write written).2.roots ∧
      (∀ a, a.root < s.store.roots → (s.store.write written).2.plain a = s.store.plain a) ∧
      Fits freeze (Frozen.bring F s.store.roots freeze written) (s.store.write written).2.roots 0
        (s.store.write written).1 := by
  cases written with
  | none => exact ⟨fun _ _ => rfl, h, le_refl _, fun _ _ => rfl, trivial⟩
  | some json =>
    refine ⟨fun n below => update_of_ne (by omega) _ _, h.bring json freeze, le_succ _,
      fun a below => ?_, ?_⟩
    · exact s.store.write_plain (some json) below
    · have compound (nonprim : json.isCompound = true) : Fits freeze
          (Frozen.bring F s.store.roots freeze (some json)) (s.store.roots + 1) 0
          (.plain ⟨s.store.roots, []⟩) := by
        refine ⟨lt_succ_self _, ?_⟩
        cases freeze with
        | false => simp [Frozen.bring]
        | true => simp [Frozen.bring, Json.cellAt, Json.valueAt, nonprim]
      cases json with
      | prim p => trivial
      | array items => exact compound rfl
      | object entries => exact compound rfl

variable {result : Result}

theorem Keeps.same (h : Sealed F s) (fits : ∀ v, result = .value v → Fits false F s.store.roots s.proxies.length v) :
    Keeps F s result F s :=
  ⟨fun _ _ => rfl, h, le_refl _, rfl, fits⟩

theorem keeps_plain (h : Sealed F s) (found : s.store.plain a = some c) (raw : F a.root = none) (action : Action) :
    Keeps F s (s.store.act toLength a c action).2 (Frozen.after F s.store.roots false action)
      { s with store := (s.store.act toLength a c action).1 } := by
  have below := h.fresh a c found
  have fits := h.raw a c found raw
  cases action with
  | get key =>
    refine .same h ?_
    rintro v ⟨⟩
    exact (fits_get (v := c.view) fits key).mono (fun _ _ => rfl) (le_refl _) (zero_le _)
  | has key => exact .same h (by rintro v ⟨⟩)
  | ownKeys => exact .same h (by rintro v ⟨⟩)
  | delete key =>
    simp only [Store.act]
    split
    · rename_i c' deleted
      have same := (c.view_delete_some key deleted).2
      refine ⟨fun _ _ => rfl, h.update found raw fun other v own => ?_, le_refl _, rfl, by rintro v ⟨⟩⟩
      have own : c'.view.own other = some v := own
      rw [same] at own
      exact fits other v (View.own_delete own)
    · exact .same h (by rintro v ⟨⟩)
  | set key written =>
    obtain ⟨old, sealed, grows, same, new⟩ := h.write written false
    simp only [Store.act]
    split
    · rename_i c' set
      refine ⟨old, ?_, grows, rfl, by rintro v ⟨⟩⟩
      refine sealed.update ((same a below).trans found) ((old _ below).trans raw) fun other v own => ?_
      rcases View.own_set (c.view_set_some key set) own with rfl | before
      · exact new
      · exact (fits other v before).mono old grows (le_refl _)
    · exact ⟨old, sealed, grows, rfl, by rintro v ⟨⟩⟩

variable {i : ℕ} {p : Proxy} {data : Cell}

theorem Sealed.fits_data (h : Sealed F s) (there : s.proxies[i]? = some p)
    (found : s.store.plain p.target = some data) (key : Key) (v : Value)
    (own : data.own.get key = some v) : Fits true F s.store.roots 0 v := by
  obtain ⟨json, known, cell⟩ := h.data there found
  have below := h.fresh _ _ found
  rcases own_cellAt cell own with ⟨p, rfl⟩ | rfl
  · trivial
  · obtain ⟨_, inner, cell'⟩ := cellAt_child cell own
    exact ⟨below, json, known, by simp [cell']⟩

variable {target : Addr} {newData : Option Cell} {overlay : Overlay} {F' : Frozen}

theorem Sealed.array (h : Sealed F s) (there : s.proxies[i]? = some ⟨target, .array newData⟩)
    (found : s.store.plain target = some data) :
    (newData.getD data.spread).view = (newData.getD data).view ∧
      (newData.getD data).isArray = true ∧ (newData.getD data).view.Sized ∧
      ∀ key v, (newData.getD data).own.get key = some v → Fits true F s.store.roots s.proxies.length v := by
  cases newData with
  | some newData => exact ⟨rfl, h.overlay i _ there⟩
  | none =>
    obtain ⟨_, data', found', kind⟩ := h.target i _ there
    have same : data' = data := some.inj (found'.symm.trans found)
    subst same
    obtain ⟨json, known, cell⟩ := h.data there found
    obtain ⟨inner, _, _, rfl⟩ := cellAt_some cell
    refine ⟨view_spread _ _ kind.symm, kind.symm, sized_cell _ _, fun key v own => ?_⟩
    exact (h.fits_data there found key v own).mono (fun _ _ => rfl) (le_refl _) (zero_le _)

/-- What `augment` leaves behind. -/
structure Augments (F : Frozen) (s : Augmented) (v : Value) (s' : Augmented) : Prop where
  sealed : Sealed F s'
  store : s'.store = s.store
  handles : s'.handles = s.handles
  grows : s.proxies.length ≤ s'.proxies.length
  old : ∀ i < s.proxies.length, s'.proxies[i]? = s.proxies[i]?
  fits : ∀ frozen, Fits frozen F s.store.roots s'.proxies.length v

variable {v : Value}

theorem Sealed.augment (h : Sealed F s) (fits : Fits true F s.store.roots s.proxies.length v) :
    Augments F s (s.augment v).1 (s.augment v).2 := by
  cases v with
  | plain a =>
    obtain ⟨below, json, known, present⟩ := fits
    obtain ⟨c, cell⟩ := isSome_iff_exists.mp present
    have found : s.store.plain a = some c := ((h.frozen _ _ known).2 a rfl).trans cell
    simp only [Augmented.augment, found]
    refine ⟨h.wrap found (by simp [known]), rfl, rfl, by simp, fun i below => ?_, fun _ => ?_⟩
    · exact getElem?_append_left below
    · simp [Fits]
  | proxy i => exact ⟨h, rfl, rfl, le_refl _, fun _ _ => rfl, fun _ => fits⟩
  | undefined => exact ⟨h, rfl, rfl, le_refl _, fun _ _ => rfl, fun _ => trivial⟩
  | prim p => exact ⟨h, rfl, rfl, le_refl _, fun _ _ => rfl, fun _ => trivial⟩
  | builtin ofArray name => exact ⟨h, rfl, rfl, le_refl _, fun _ _ => rfl, fun _ => trivial⟩

theorem Keeps.setOverlay (h : Sealed F s) (there : s.proxies[i]? = some p)
    (fits : overlay.Fits F s.store.roots s.proxies.length)
    (kind : overlay.isArray = p.overlay.isArray) (result : Result)
    (handed : ∀ v, result = .value v → Fits false F s.store.roots s.proxies.length v) :
    Keeps F s result F (s.setOverlay i overlay) :=
  ⟨fun _ _ => rfl, h.setOverlay there fits kind, le_refl _, rfl, by
    simpa [Augmented.setOverlay] using handed⟩

variable {s' : Augmented}

theorem Keeps.after {s'' : Augmented} (keeps : Keeps F' s' result F' s'') (old : ∀ n < s.store.roots, F' n = F n)
    (grows : s.store.roots ≤ s'.store.roots) (handles : s'.handles = s.handles) : Keeps F s result F' s'' :=
  ⟨old, keeps.sealed, le_trans grows keeps.grows, keeps.handles.trans handles, keeps.result⟩

theorem Keeps.augment (augmented : Augments F s v s') (there : s.proxies[i]? = some p)
    (fits : overlay.Fits F s.store.roots s'.proxies.length) (kind : overlay.isArray = p.overlay.isArray)
    (result : Result) (handed : ∀ v, result = .value v → Fits false F s.store.roots s'.proxies.length v) :
    Keeps F s result F s' ∧ Keeps F s result F (s'.setOverlay i overlay) := by
  have grows : s.store.roots ≤ s'.store.roots := by rw [augmented.store]
  have there' := (augmented.old i (List.getElem?_eq_some_iff.mp there).1).trans there
  have handed' : ∀ v, result = .value v → Fits false F s'.store.roots s'.proxies.length v := by
    rw [augmented.store]
    exact handed
  have fits' : overlay.Fits F s'.store.roots s'.proxies.length := by
    rw [augmented.store]
    exact fits
  exact ⟨(Keeps.same augmented.sealed handed').after (fun _ _ => rfl) grows augmented.handles,
    (Keeps.setOverlay augmented.sealed there' fits' kind result handed').after (fun _ _ => rfl) grows augmented.handles⟩

theorem keeps_object (h : Sealed F s) {newData : OrderedMap Key Value} {deletedProperties : Finset Key}
    (there : s.proxies[i]? = some ⟨target, .object newData deletedProperties⟩)
    (found : s.store.plain target = some data) (action : Action) :
    Keeps F s (s.actObject i data newData deletedProperties action).2 (Frozen.after F s.store.roots false action)
      (s.actObject i data newData deletedProperties action).1 := by
  have fits : ∀ key v, newData.get key = some v → Fits false F s.store.roots s.proxies.length v :=
    h.overlay i _ there
  have cleared (key : Key) (deleted : Finset Key) :
      (Overlay.object (newData.delete key) deleted).Fits F s.store.roots s.proxies.length :=
    fun other v own => fits other v (OrderedMap.get_delete_some _ own)
  cases action with
  | get key =>
    simp only [Augmented.actObject]
    split
    · exact .same h (by rintro v ⟨⟩; trivial)
    split
    · exact .same h (by rintro v ⟨⟩; trivial)
    split
    · rename_i v own
      exact .same h (by rintro v ⟨⟩; exact fits key v own)
    · have pending : Fits true F s.store.roots s.proxies.length (data.get key) :=
        (fits_get (v := data.view) (h.fits_data there found) key).mono (fun _ _ => rfl) (le_refl _) (zero_le _)
      have augmented := h.augment pending
      generalize s.augment (data.get key) = pair at augmented ⊢
      obtain ⟨newValue, s'⟩ := pair
      simp only at augmented ⊢
      have taken : (Overlay.object (newData.set key newValue) deletedProperties).Fits F s.store.roots
          s'.proxies.length := by
        intro other v own
        rw [OrderedMap.get_set] at own
        split at own
        · cases own
          exact augmented.fits false
        · exact (fits other v own).mono (fun _ _ => rfl) (le_refl _) augmented.grows
      have keeps := Keeps.augment augmented there taken rfl (.value newValue)
        (by rintro v ⟨⟩; exact augmented.fits false)
      split
      · exact keeps.2
      · rename_i same
        exact not_not.mp same ▸ keeps.1
  | has key =>
    simp only [Augmented.actObject]
    split <;> exact .same h (by rintro v ⟨⟩)
  | ownKeys => exact .same h (by rintro v ⟨⟩)
  | delete key => exact .setOverlay h there (cleared key _) rfl _ (by rintro v ⟨⟩)
  | set key written =>
    cases written with
    | none => exact .setOverlay h there (cleared key _) rfl _ (by rintro v ⟨⟩)
    | some json =>
      obtain ⟨old, sealed, grows, _, new⟩ := h.write (some json) false
      have taken : (Overlay.object (newData.set key (s.store.write (some json)).1)
          (deletedProperties.erase key)).Fits (Frozen.bring F s.store.roots false (some json))
          (s.store.write (some json)).2.roots s.proxies.length := by
        intro other v own
        rw [OrderedMap.get_set] at own
        split at own
        · cases own
          exact new.mono (fun _ _ => rfl) (le_refl _) (zero_le _)
        · exact (fits other v own).mono old grows (le_refl _)
      have keeps := Keeps.setOverlay sealed there taken rfl .done (by rintro v ⟨⟩)
      exact keeps.after old grows rfl

theorem keeps_array (h : Sealed F s) (there : s.proxies[i]? = some ⟨target, .array newData⟩)
    (found : s.store.plain target = some data) (action : Action) :
    Keeps F s (s.actArray toLength i data newData action).2 (Frozen.after F s.store.roots true action)
      (s.actArray toLength i data newData action).1 := by
  obtain ⟨copied, isArray, sized, fits⟩ := h.array there found
  -- what is written into the copy of the array, which shows the same
  have isArray' : (newData.getD data.spread).isArray = true := (congrArg View.isArray copied).trans isArray
  have own' (key : Key) : (newData.getD data.spread).own.get key = (newData.getD data).own.get key :=
    congrFun (congrArg View.own copied) key
  cases action with
  | get key =>
    simp only [Augmented.actArray]
    split
    · exact .same h (by rintro v ⟨⟩; trivial)
    · have pending := fits_get (v := (newData.getD data).view) fits key
      have augmented := h.augment pending
      rw [Cell.get_view]
      generalize s.augment ((newData.getD data).view.get key) = pair at augmented ⊢
      obtain ⟨newValue, s'⟩ := pair
      simp only at augmented ⊢
      have taken : (Overlay.array (some ((newData.getD data.spread).put key newValue))).Fits F
          s.store.roots s'.proxies.length := by
        have view := (newData.getD data.spread).view_put key newValue
        rw [copied] at view
        refine ⟨(congrArg View.isArray view).trans isArray, view ▸ sized.put key newValue,
          fun other v own => ?_⟩
        rcases View.own_put ((congrFun (congrArg View.own view) other).symm.trans own) with rfl | before
        · exact augmented.fits true
        · exact (fits other v before).mono (fun _ _ => rfl) (le_refl _) augmented.grows
      have keeps := Keeps.augment augmented there taken rfl (.value newValue)
        (by rintro v ⟨⟩; exact augmented.fits false)
      split
      · exact keeps.2
      · rename_i same
        exact not_not.mp same ▸ keeps.1
  | has key => exact .same h (by rintro v ⟨⟩)
  | ownKeys => exact .same h (by rintro v ⟨⟩)
  | delete key =>
    have kept : (Overlay.array (some (newData.getD data.spread))).Fits F s.store.roots s.proxies.length :=
      ⟨isArray', copied ▸ sized, fun other v own => fits other v ((own' other).symm.trans own)⟩
    simp only [Augmented.actArray]
    cases deleted : (newData.getD data.spread).delete key with
    | none => exact .setOverlay h there kept rfl .refused (by rintro v ⟨⟩)
    | some newData' =>
      have view := ((newData.getD data.spread).view_delete_some key deleted).2
      rw [copied] at view
      have taken : (Overlay.array (some newData')).Fits F s.store.roots s.proxies.length := by
        refine ⟨(congrArg View.isArray view).trans isArray, view ▸ sized.delete key, fun other v own => ?_⟩
        exact fits other v (View.own_delete ((congrFun (congrArg View.own view) other).symm.trans own))
      exact .setOverlay h there taken rfl .done (by rintro v ⟨⟩)
  | set key written =>
    obtain ⟨old, sealed, grows, _, new⟩ := h.write written true
    have augmented := sealed.augment (new.mono (fun _ _ => rfl) (le_refl _) (zero_le _))
    have fits (key : Key) (v : Value) (own : (newData.getD data).view.own key = some v) :=
      (fits key v own).mono old grows augmented.grows
    simp only [Augmented.actArray]
    generalize Augmented.augment (s.store.write written).1 { s with store := (s.store.write written).2 } =
      pair at augmented fits ⊢
    obtain ⟨v, s'⟩ := pair
    simp only at augmented fits ⊢
    split
    · rename_i newData' set
      have set' := (newData.getD data.spread).view_set_some key set
      rw [copied] at set'
      have taken : (Overlay.array (some newData')).Fits
          (Frozen.bring F s.store.roots true written) (s.store.write written).2.roots
          s'.proxies.length := by
        refine ⟨(View.isArray_set set').trans isArray, sized.set set', fun other x own => ?_⟩
        rcases View.own_set set' own with rfl | before
        · exact augmented.fits true
        · exact fits other x before
      exact (Keeps.augment augmented there taken rfl .done (by rintro v ⟨⟩)).2.after old grows rfl
    · have kept : (Overlay.array (some (newData.getD data.spread))).Fits
          (Frozen.bring F s.store.roots true written) (s.store.write written).2.roots s'.proxies.length :=
        ⟨isArray', copied ▸ sized, fun other v own => fits other v ((own' other).symm.trans own)⟩
      exact (Keeps.augment augmented there kept rfl .threw (by rintro v ⟨⟩)).2.after old grows rfl

theorem keeps_act (h : Sealed F s) (member : v ∈ s.handles) {action : Action}
    (acted : s.act toLength v action = some (s', result)) : ∃ F', Keeps F s result F' s' := by
  have fits := h.handles v member
  cases v with
  | plain a =>
    simp only [Augmented.act, bind_eq_bind, Option.pure_def, bind_eq_some_iff,
      some.injEq, Prod.mk.injEq] at acted
    obtain ⟨c, found, rfl, rfl⟩ := acted
    exact ⟨_, keeps_plain h found fits.2 action⟩
  | proxy i =>
    simp only [Augmented.act, bind_eq_bind, Option.pure_def, bind_eq_some_iff, some.injEq] at acted
    obtain ⟨⟨target, overlay⟩, there, data, found, same⟩ := acted
    cases overlay with
    | object newData deletedProperties =>
      have same : s.actObject i data newData deletedProperties action = (s', result) := same
      have keeps := keeps_object h there found action
      rw [same] at keeps
      exact ⟨_, keeps⟩
    | array newData =>
      have same : s.actArray toLength i data newData action = (s', result) := same
      have keeps : Keeps F s (s.actArray toLength i data newData action).2 _ _ :=
        keeps_array h there found action
      rw [same] at keeps
      exact ⟨_, keeps⟩
  | undefined => cases acted
  | prim p => cases acted
  | builtin ofArray name => cases acted

theorem Keeps.handle (keeps : Keeps F s result F' s') :
    Sealed F' { s' with handles := s'.handles ++ result.handle } := by
  obtain ⟨_, sealed, _, _, handed⟩ := keeps
  refine ⟨sealed.fresh, sealed.frozen, sealed.raw, sealed.target, sealed.overlay, fun v member => ?_⟩
  rcases mem_append.mp member with old | new
  · exact sealed.handles v old
  · cases result with
    | value x =>
      have fits := handed x rfl
      cases x with
      | plain a =>
        obtain rfl := mem_singleton.mp new
        exact fits
      | proxy i =>
        obtain rfl := mem_singleton.mp new
        exact fits
      | _ => simp [Result.handle] at new
    | _ => simp [Result.handle] at new

theorem sealed_step (h : Sealed F s) {op : Op} {seen : Observation} (stepped : s.step toLength op = some (s', seen)) :
    ∃ F', Sealed F' s' ∧ (∀ n < s.store.roots, F' n = F n) ∧ s.store.roots ≤ s'.store.roots := by
  unfold Augmented.step at stepped
  split at stepped
  · cases stepped
  simp only [bind_eq_bind, Option.pure_def, bind_eq_some_iff, some.injEq,
    Prod.mk.injEq, Prod.exists] at stepped
  obtain ⟨v, there, after, result, acted, rfl, _⟩ := stepped
  obtain ⟨F', keeps⟩ := keeps_act h (mem_of_getElem? there) acted
  exact ⟨F', keeps.handle, keeps.old, keeps.grows⟩

variable (toLength) in
theorem frozen_run (h : Sealed F s) (ops : List Op) {n : ℕ} (frozen : (F n).isSome = true) (a : Addr)
    (inside : a.root = n) : (s.run toLength ops).store.plain a = s.store.plain a := by
  obtain ⟨json, known⟩ := isSome_iff_exists.mp frozen
  induction ops generalizing s F with
  | nil => rfl
  | cons op ops ih =>
    simp only [Augmented.run]
    split
    · rfl
    · rename_i s' seen stepped
      obtain ⟨F', sealed, old, _⟩ := sealed_step h stepped
      obtain ⟨below, cells⟩ := h.frozen n json known
      have known' := (old n below).trans known
      rw [ih sealed (by simp [known']) known', (sealed.frozen n json known').2 a inside, cells a inside]

end Keeps

def originalFrozen (entries : List (Key × Json)) : Frozen := Function.update (fun _ => none) 0 (some (.object entries))

theorem sealed_augmentObject (entries : List (Key × Json)) :
    Sealed (originalFrozen entries) (augmentObject entries) := by
  have holding {a : Addr} {c : Cell} (found : (augmentObject entries).store.plain a = some c) : a.root = 0 := by
    simp only [augmentObject, Store.holding] at found
    split at found
    · assumption
    · cases found
  refine ⟨fun a c found => ?_, fun n json known => ?_, fun a c found raw => ?_, fun i p there => ?_,
    fun i p there => ?_, fun v member => ?_⟩
  · rw [holding found]
    exact Nat.one_pos
  · by_cases original : n = 0
    · subst original
      rw [originalFrozen, update_self] at known
      cases known
      exact ⟨Nat.one_pos, fun a here => by simp [augmentObject, Store.holding, here]⟩
    · rw [originalFrozen, update_of_ne original] at known
      cases known
  · rw [holding found, originalFrozen, update_self] at raw
    cases raw
  · obtain ⟨rfl, rfl⟩ : i = 0 ∧ p = ⟨⟨0, []⟩, .object .empty ∅⟩ := by
      simpa [augmentObject, getElem?_singleton, eq_comm] using there
    exact ⟨by simp [originalFrozen], _, rfl, rfl⟩
  · obtain ⟨rfl, rfl⟩ : i = 0 ∧ p = ⟨⟨0, []⟩, .object .empty ∅⟩ := by
      simpa [augmentObject, getElem?_singleton, eq_comm] using there
    intro key v found
    simp at found
  · obtain rfl := mem_singleton.mp member
    exact Nat.one_pos

end N8n.AugmentObject
