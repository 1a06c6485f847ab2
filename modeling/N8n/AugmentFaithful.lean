import N8n.AugmentMirror

/-! An augmented object answers as a copy does, as long as the program does not read a
constructor that was put there, does not delete what would be inherited, and does not write
undefined into an object that it set itself. -/

namespace N8n.AugmentObject

open PlainData List Option Augmented

def Result.map (f : Value → Value) : Result → Result
  | .value v => .value (f v)
  | .done => .done
  | .refused => .refused
  | .threw => .threw
  | .present answer => .present answer
  | .keys found => .keys found

def Follows (F : Frozen) (s : Augmented) (result : Result) (copied : Option (Copied × Result)) : Prop :=
  ∃ t, copied = some (t, result.map (under s.proxies)) ∧ Mirrors none F s t

theorem Store.update_same {s : Store} {a : Addr} {c : Cell} (found : s.plain a = some c) : s.update a c = s := by
  obtain ⟨plain, roots⟩ := s
  simp only [Store.update, Store.mk.injEq, and_true]
  exact Function.update_eq_self_iff.mpr found.symm

section Object

variable {F : Frozen} {s : Augmented} {t : Copied} {toLength : Option Json → Option ℕ}

theorem under_write (proxies : List Proxy) (store : Store) (written : Option Json) :
    under proxies (store.write written).1 = (store.write written).1 := by
  cases written with
  | none => rfl
  | some json => cases json <;> rfl

theorem write_eq_plain {store : Store} {written : Option Json} {b : Addr}
    (value : (store.write written).1 = .plain b) : b = ⟨store.roots, []⟩ := by
  cases written with
  | none => cases value
  | some json =>
    cases json with
    | prim p => cases value
    | array items => exact (Value.plain.inj value).symm
    | object entries => exact (Value.plain.inj value).symm

variable {v : Value}

theorem augment_of_not_plain (other : ∀ b, v ≠ .plain b) : s.augment v = (v, s) := by
  cases v with
  | plain a => exact absurd rfl (other a)
  | _ => rfl

theorem under_augment (h : Sealed F s) (fits : Fits true F s.store.roots s.proxies.length v) :
    under (s.augment v).2.proxies (s.augment v).1 = under s.proxies v := by
  by_cases reference : ∃ b, v = .plain b
  · obtain ⟨b, rfl⟩ := reference
    obtain ⟨_, json, known, present⟩ := fits
    obtain ⟨c, cell⟩ := isSome_iff_exists.mp present
    have at_b : s.store.plain b = some c := ((h.frozen _ _ known).2 b rfl).trans cell
    simp [augment, at_b, under]
  · rw [augment_of_not_plain fun b same => reference ⟨b, same⟩]

theorem augment_ne (h : Sealed F s) (fits : Fits true F s.store.roots s.proxies.length v)
    (b : Addr) : (s.augment v).1 ≠ .plain b := by
  intro same
  by_cases reference : ∃ c, v = .plain c
  · obtain ⟨c, rfl⟩ := reference
    obtain ⟨_, json, known, present⟩ := fits
    obtain ⟨c', cell⟩ := isSome_iff_exists.mp present
    simp [augment, ((h.frozen _ _ known).2 c rfl).trans cell] at same
  · rw [augment_of_not_plain fun c same => reference ⟨c, same⟩] at same
    exact reference ⟨b, same⟩

variable {i : ℕ} {p : Proxy} {data : Cell}

theorem map_augment (h : Sealed F s) (there : s.proxies[i]? = some p)
    (found : s.store.plain p.target = some data)
    (fits : Fits true F s.store.roots s.proxies.length v) :
    (p.overlay.view data).map (under (s.augment v).2.proxies) = (p.overlay.view data).map (under s.proxies) := by
  have augmented := h.augment fits
  ext key x
  · rfl
  · rfl
  · simp only [View.map]
    cases own : (p.overlay.view data).own key with
    | none => rfl
    | some y =>
      obtain ⟨_, fits⟩ := h.slot there found own
      simp [under_eq fits fun j below => congrArg (Option.map Proxy.target) (augmented.old j below)]

variable {d : Cell}

section

variable (h : Sealed F s) (m : Mirrors none F s t) (there : s.proxies[i]? = some p) (found : s.store.plain p.target = some data)
  {overlay : Overlay}
include h m there found

theorem Mirrors.absorb (fits : Fits true F s.store.roots s.proxies.length v)
    (placed : ∀ b, v = .plain b → b ∉ s.targets ∧ ∀ a key, a.child key = b → a = p.target)
    (shows : d.view = (overlay.view data).map (under (s.augment v).2.proxies))
    (pending : Pending F s.targets p.target (overlay.view data))
    (absent : ∀ b, v = .plain b → ∀ key, (overlay.view data).own key ≠ some (.plain b))
    (kept : ∀ newData deleted, overlay = .object newData deleted → ∀ key ∈ deleted, inherited false key = none) :
    Mirrors none F ((s.augment v).2.setOverlay i overlay) { t with store := t.store.update p.target d } := by
  by_cases reference : ∃ b, v = .plain b
  · obtain ⟨b, rfl⟩ := reference
    have augmented := h.augment fits
    obtain ⟨new, owner⟩ := placed b rfl
    obtain ⟨_, json, known, present⟩ := fits
    obtain ⟨c, cell⟩ := isSome_iff_exists.mp present
    have at_b : s.store.plain b = some c := ((h.frozen _ _ known).2 b rfl).trans cell
    have targets : (s.augment (.plain b)).2.targets = s.targets ++ [b] := by
      simp [augment, at_b, targets]
    have wrapped := m.wrap h there at_b (by simp [known]) new owner
    have there' := (augmented.old i (List.getElem?_eq_some_iff.mp there).1).trans there
    have found' : (s.augment (.plain b)).2.store.plain p.target = some data := augmented.store ▸ found
    exact wrapped.replace there' found' shows (targets ▸ pending.extend (absent b rfl)) kept
  · rw [augment_of_not_plain fun b same => reference ⟨b, same⟩] at shows ⊢
    exact m.skipping.replace there found shows pending kept

theorem Mirrors.cache {key : Key} {b : Addr} (own : (p.overlay.view data).own key = some (.plain b))
    (fits : Fits true F s.store.roots s.proxies.length (.plain b)) (sized : (p.overlay.view data).Sized)
    (cached : overlay.view data = (p.overlay.view data).put key (s.augment (.plain b)).1)
    (kept : ∀ newData deleted, overlay = .object newData deleted → ∀ key ∈ deleted, inherited false key = none) :
    Mirrors none F ((s.augment (.plain b)).2.setOverlay i overlay) t := by
  have pending := m.pending i p there (by simp) data found
  obtain ⟨_, json, known, present⟩ := id fits
  have frozen : (F b.root).isSome = true := by simp [known]
  obtain ⟨place, new⟩ := pending key b own frozen
  obtain ⟨c, cell⟩ := isSome_iff_exists.mp present
  have value : (s.augment (.plain b)).1 = .proxy s.proxies.length := by
    simp [augment, ((h.frozen _ _ known).2 b rfl).trans cell]
  obtain ⟨d, there', shows, _⟩ := m.cell there found
  have same : ({ t with store := t.store.update p.target d } : Copied) = t := by
    rw [Store.update_same there']
  rw [← same]
  refine m.absorb h there found fits ?_ ?_ ?_ ?_ kept
  · rintro _ ⟨⟩
    exact ⟨new, fun a key' child => (child_inj (child.trans place)).1⟩
  · have old : ((p.overlay.view data).map (under s.proxies)).own key = some (.plain b) := by
      simp [View.map, own, under]
    rw [cached, View.put_map, under_augment h fits, map_augment h there found fits]
    exact shows.trans (View.put_same old (sized.map _)).symm
  · rw [cached, value]
    exact pending.put (fun c same => by cases same) key
  · rintro _ ⟨⟩ other slot
    rw [cached, value] at slot
    simp only [View.put, Function.update_apply] at slot
    split at slot
    · cases slot
    · rename_i different
      exact different (child_inj ((pending other b slot frozen).1.symm.trans place)).2

end

variable {a : Addr}

theorem Copied.act_of_object (there : t.store.plain a = some d) (object : d.isArray = false) (action : Action) :
    t.act toLength (.plain a) action = some (match action with
      | .get key => (t, .value (d.view.get key))
      | .set key none =>
        ({ t with store := t.store.update a { d with own := d.own.delete key } }, .done)
      | .set key (some json) =>
        let (v, store) := t.store.write (some json)
        ({ t with store := store.update a (d.put key v) }, .done)
      | .delete key => ({ t with store := t.store.update a { d with own := d.own.delete key } }, .done)
      | .has key => (t, .present (d.view.has key))
      | .ownKeys => (t, .keys d.ownKeys)) := by
  cases action with
  | set key written =>
    cases written <;> simp [Copied.act, there, object, Store.act, Cell.set, Cell.isLength]
  | _ => simp [Copied.act, there, object, Store.act, Cell.delete, Cell.isLength, Cell.get_view, Cell.has_view]

variable {target : Addr} {newData : Option Cell} {result : Result} {op : Op}

theorem follows_object (h : Sealed F s) (m : Mirrors none F s t)
    {newData : OrderedMap Key Value} {deletedProperties : Finset Key}
    (there : s.proxies[i]? = some ⟨target, .object newData deletedProperties⟩)
    (found : s.store.plain target = some data) (action : Action) (constructor : action = .get (.name "constructor") →
      ((Overlay.object newData deletedProperties).view data).own (.name "constructor") = none)
    (unset : ∀ key, action = .set key none → inherited false key = none)
    (removed : ∀ key, action = .delete key → data.own.get key ≠ none → inherited false key = none) :
    Follows (Frozen.after F s.store.roots false action) (s.actObject i data newData deletedProperties action).1
      (s.actObject i data newData deletedProperties action).2 (t.act toLength (.plain target) action) := by
  obtain ⟨_, data', found', kind⟩ := h.target i _ there
  obtain rfl := some.inj (found'.symm.trans found)
  have object : data'.isArray = false := kind.symm
  obtain ⟨d, at_target, shows, isArray⟩ : ∃ d, t.store.plain target = some d ∧
      d.view = ((Overlay.object newData deletedProperties).view data').map (under s.proxies) ∧
      d.isArray = false := m.cell there found
  have kept := m.kept _ (mem_of_getElem? there) newData deletedProperties rfl
  have pending := m.pending i _ there (by simp) data' found
  have renames := renaming_under s.proxies
  rw [Copied.act_of_object at_target isArray]
  -- a key is taken away, and marked where the target has it
  have taken (key : Key) {marked : Bool} (marks : marked = (data'.own.get key).isSome)
      (plain : marked = true → inherited false key = none) :
      Mirrors none F (s.setOverlay i (.object (newData.delete key)
          (if marked = true then insert key deletedProperties else deletedProperties)))
        { t with store := t.store.update target { d with own := d.own.delete key } } := by
    have shown := view_delete data' newData deletedProperties key marks
    refine m.skipping.replace there found ?_ ?_ ?_
    · rw [shown, Cell.view_delete, shows, View.delete_map]
    · rw [shown]
      exact pending.delete key
    · rintro _ _ ⟨⟩ other member
      split at member
      · rename_i marked
        rcases Finset.mem_insert.mp member with rfl | before
        · exact plain marked
        · exact kept other before
      · exact kept other member
  cases action with
  | get key =>
    simp only [actObject, shows, View.get_map _ key renames]
    split
    · rename_i same
      subst same
      exact ⟨t, by simp only [View.get_constructor (constructor rfl)]; rfl, m⟩
    rw [get_object newData key object kept]
    split
    · exact ⟨t, rfl, m⟩
    · rename_i present
      cases written : newData.get key with
      | some v => exact ⟨t, rfl, m⟩
      | none =>
        simp only [getD_none]
        have get_view : ((Overlay.object newData deletedProperties).view data').get key = data'.get key := by
          simp [get_object newData key object kept, present, written]
        by_cases reference : ∃ b, data'.get key = .plain b
        · obtain ⟨b, read⟩ := reference
          have own := View.own_of_get (get_view.trans read)
          have fits : Fits true F s.store.roots s.proxies.length (.plain b) :=
            (h.fits_data there found key _ (View.own_of_get (v := data'.view) read)).mono
              (fun _ _ => rfl) (Nat.le_refl _) (Nat.zero_le _)
          have augmented := h.augment fits
          have cached := m.cache h there found own fits (by intro array; cases array)
            (view_cache data' newData deletedProperties key (s.augment (.plain b)).1 present)
            (by rintro _ _ ⟨⟩; exact kept)
          have stands := under_augment h fits
          rw [read, if_pos (augment_ne h fits b)]
          refine ⟨t, ?_, cached⟩
          simp only [Result.map]
          rw [under_setOverlay, stands]
        · rw [augment_of_not_plain fun b read => reference ⟨b, read⟩]
          simp only [ne_eq, not_true_eq_false, if_false]
          exact ⟨t, rfl, m⟩
  | has key =>
    simp only [actObject, shows, View.has_map _ key renames, ← has_object newData key object kept]
    split <;> exact ⟨t, rfl, m⟩
  | ownKeys =>
    refine ⟨t, ?_, m⟩
    simp only [actObject, Result.map, some.injEq, Prod.mk.injEq, true_and, Result.keys.injEq]
    ext key
    rw [mem_keys_object newData key object, Cell.mem_ownKeys, shows, View.getOwn_map _ key renames, ne_eq,
      map_eq_none_iff]
  | delete key =>
    refine ⟨_, rfl, taken key (congrArg Option.isSome (getOwn_of_object key object)) fun marked => ?_⟩
    refine removed key rfl ?_
    rw [getOwn_of_object key object] at marked
    exact isSome_iff_ne_none.mp marked
  | set key written =>
    cases written with
    | none =>
      have plain := unset key rfl
      refine ⟨_, rfl, taken key ?_ fun _ => plain⟩
      simp [Cell.has, object, plain, getOwn_of_object key object]
    | some json =>
      obtain ⟨written, same⟩ := m.write h (some json) false
      obtain ⟨_, _, _, old, fits⟩ := h.write (some json) false
      have shown := view_put data' newData deletedProperties key (s.store.write (some json)).1
      have found := (old target (h.fresh _ _ found)).trans found
      have takes : (d.put key (t.store.write (some json)).1).view =
          ((Overlay.object (newData.set key (s.store.write (some json)).1)
            (deletedProperties.erase key)).view data').map (under s.proxies) := by
        rw [shown, Cell.view_put, shows, View.put_map, same, under_write]
      refine ⟨_, rfl, written.skipping.replace there found takes (shown ▸ Pending.put ?_ ?_ key) ?_⟩
      · exact written.pending i _ there (by simp) data' found
      · intro b reference
        exact (reference ▸ fits).raw
      · rintro _ _ ⟨⟩ other member
        exact kept other (Finset.mem_of_mem_erase member)

theorem Copied.act_of_plain (there : t.store.plain a = some d) {action : Action}
    (same : d.isArray = true ∨ ∀ key, action ≠ .set key none) :
    t.act toLength (.plain a) action =
      some ({ t with store := (t.store.act toLength a d action).1 }, (t.store.act toLength a d action).2) := by
  cases array : d.isArray with
  | true => simp [Copied.act, there, array]
  | false =>
    have other := same.resolve_left (by simp [array])
    cases action with
    | set key written =>
      cases written with
      | none => exact absurd rfl (other key)
      | some json => simp [Copied.act, there]
    | _ => simp [Copied.act, there]

theorem set_array (h : Sealed F s) (m : Mirrors none F s t) (there : s.proxies[i]? = some ⟨target, .array newData⟩)
    (found : s.store.plain target = some data)
    (fits : Fits true F s.store.roots s.proxies.length v) (no_proxy : under s.proxies v = v)
    (fresh : ∀ b, v = .plain b → b ∉ s.targets ∧ (∀ (a : Addr) (key : Key), a.child key ≠ b) ∧
      ∀ key, (newData.getD data).view.own key ≠ some (.plain b))
    (key : Key) (length : Option ℕ) (at_target : t.store.plain target = some d)
    (shows : d.view = (newData.getD data).view.map (under s.proxies)) :
    (∃ newData' d', (newData.getD data.spread).set key (s.augment v).1 length = some newData' ∧
      d.set key v length = some d' ∧
      Mirrors none F ((s.augment v).2.setOverlay i (.array (some newData')))
        { t with store := t.store.update target d' }) ∨
    ((newData.getD data.spread).set key (s.augment v).1 length = none ∧ d.set key v length = none ∧
      Mirrors none F ((s.augment v).2.setOverlay i (.array (some (newData.getD data.spread)))) t) := by
  obtain ⟨copied, _, _, _⟩ := h.array there found
  have pending : Pending F s.targets target (newData.getD data).view := m.pending i _ there (by simp) data found
  have stands : under (s.augment v).2.proxies (s.augment v).1 = v := (under_augment h fits).trans no_proxy
  have shows' : d.view = (newData.getD data.spread).view.map (under (s.augment v).2.proxies) := by
    rw [copied, shows]
    exact (map_augment h there found fits).symm
  have both : (d.set key v length).map Cell.view =
      (((newData.getD data.spread).set key (s.augment v).1 length).map Cell.view).map
        (View.map (under (s.augment v).2.proxies)) := by
    rw [Cell.view_set, Cell.view_set, View.set_map, stands, shows']
  have takes {newData' d' : Cell} (shown : d'.view = newData'.view.map (under (s.augment v).2.proxies))
      (from_old : ∀ other y, newData'.view.own other = some y →
        y = (s.augment v).1 ∨ (newData.getD data).view.own other = some y) :
      Mirrors none F ((s.augment v).2.setOverlay i (.array (some newData')))
        { t with store := t.store.update target d' } := by
    refine m.absorb h there found fits (fun b same => ?_) shown (fun other b own frozen => ?_)
      (fun b same other own => ?_) (by rintro _ _ ⟨⟩)
    · obtain ⟨new, root, _⟩ := fresh b same
      exact ⟨new, fun a key child => absurd child (root a key)⟩
    · rcases from_old other _ own with same | before
      · exact absurd same.symm (augment_ne h fits b)
      · exact pending other b before frozen
    · rcases from_old other _ own with same | before
      · exact absurd same.symm (augment_ne h fits b)
      · exact (fresh b same).2.2 other before
  cases result : (newData.getD data.spread).set key (s.augment v).1 length with
  | some newData' =>
    rw [result] at both
    obtain ⟨d', result', shown⟩ := map_eq_some_iff.mp both
    refine .inl ⟨newData', d', rfl, result', takes shown fun other y own => ?_⟩
    exact copied ▸ View.own_set (Cell.view_set_some _ key result) own
  | none =>
    rw [result] at both
    refine .inr ⟨rfl, map_eq_none_iff.mp both, ?_⟩
    have takes := takes shows' fun other y own => .inr (copied ▸ own)
    rwa [show ({ t with store := t.store.update target d } : Copied) = t by
      rw [Store.update_same at_target]] at takes

theorem follows_array (h : Sealed F s) (m : Mirrors none F s t) (there : s.proxies[i]? = some ⟨target, .array newData⟩)
    (found : s.store.plain target = some data) (action : Action) (constructor : action = .get (.name "constructor") →
      ((Overlay.array newData).view data).own (.name "constructor") = none) :
    Follows (Frozen.after F s.store.roots true action) (s.actArray toLength i data newData action).1
      (s.actArray toLength i data newData action).2 (t.act toLength (.plain target) action) := by
  obtain ⟨copied, isArray, sized, fits⟩ := h.array there found
  obtain ⟨d, at_target, shows, isArray'⟩ : ∃ d, t.store.plain target = some d ∧
      d.view = (newData.getD data).view.map (under s.proxies) ∧
      d.isArray = (newData.getD data).isArray := m.cell there found
  have pending : Pending F s.targets target (newData.getD data).view := m.pending i _ there (by simp) data found
  have renames := renaming_under s.proxies
  have none_kept {overlay : Option Cell} (newData' : OrderedMap Key Value) (deleted : Finset Key)
      (same : Overlay.array overlay = .object newData' deleted) :
      ∀ key ∈ deleted, inherited false key = none := by cases same
  have spread_isArray : (newData.getD data.spread).isArray = true :=
    (congrArg View.isArray copied).trans isArray
  -- where nothing is written, the copy stays as it is
  have unchanged : ({ t with store := t.store.update target d } : Copied) = t := by
    rw [Store.update_same at_target]
  rw [Copied.act_of_plain at_target (.inl (isArray'.trans isArray))]
  cases action with
  | get key =>
    have answer : d.get key = under s.proxies ((newData.getD data).get key) := by
      rw [Cell.get_view, shows, View.get_map _ key renames]
      rfl
    simp only [actArray, Store.act, answer]
    split
    · rename_i same
      subst same
      have read : (newData.getD data).get (.name "constructor") = .builtin true "constructor" := by
        rw [← isArray]
        exact View.get_constructor (v := (newData.getD data).view) (constructor rfl)
      exact ⟨t, by rw [read]; rfl, m⟩
    · by_cases reference : ∃ b, (newData.getD data).get key = .plain b
      · obtain ⟨b, read⟩ := reference
        have own := View.own_of_get (v := (newData.getD data).view) read
        have fits_b := fits key _ own
        have takes : (Overlay.array (some ((newData.getD data.spread).put key (s.augment (.plain b)).1))).view
            data = (newData.getD data).view.put key (s.augment (.plain b)).1 := by
          rw [← copied]
          exact Cell.view_put _ _ _
        have cached := m.cache h there found own fits_b sized takes none_kept
        rw [read, if_pos (augment_ne h fits_b b)]
        refine ⟨t, ?_, cached⟩
        simp only [Result.map]
        rw [under_setOverlay, under_augment h fits_b]
      · rw [augment_of_not_plain fun b read => reference ⟨b, read⟩]
        simp only [ne_eq, not_true_eq_false, if_false]
        exact ⟨t, rfl, m⟩
  | has key =>
    refine ⟨t, ?_, m⟩
    simp only [Store.act, actArray, Result.map, Cell.has_view, shows, View.has_map _ key renames]
  | ownKeys =>
    refine ⟨t, ?_, m⟩
    have same : d.ownKeys = (newData.getD data).ownKeys := by
      ext key
      rw [Cell.mem_ownKeys, Cell.mem_ownKeys, shows, View.getOwn_map _ key renames, ne_eq, map_eq_none_iff]
    simp only [Store.act, actArray, Result.map, same]
  | delete key =>
    have same : d.isLength key = (newData.getD data.spread).isLength key := by
      simp only [Cell.isLength, isArray'.trans isArray, spread_isArray]
    by_cases length : (newData.getD data.spread).isLength key = true
    · simp only [actArray, Store.act, Cell.delete, same, length, if_true]
      refine ⟨t, rfl, unchanged ▸ m.skipping.replace there found ?_ ?_ none_kept⟩
      · exact shows.trans (congrArg (View.map _) copied).symm
      · exact (congrArg (Pending F s.targets target) copied).mpr pending
    · simp only [actArray, Store.act, Cell.delete, same, length]
      refine ⟨_, rfl, m.skipping.replace there found ?_ ?_ none_kept⟩
      · refine (Cell.view_delete d key).trans ?_
        rw [shows, ← copied, ← View.delete_map, ← Cell.view_delete]
        rfl
      · refine (congrArg (Pending F s.targets target) ?_).mpr (pending.delete key)
        rw [← copied, ← Cell.view_delete]
        rfl
  | set key written =>
    obtain ⟨wrote, same⟩ := m.write h written true
    obtain ⟨_, sealed, _, old, fits_v⟩ := h.write written true
    have found' := (old target (h.fresh _ _ found)).trans found
    have fits_v := fits_v.mono (fun _ _ => rfl) (Nat.le_refl _) (Nat.zero_le s.proxies.length)
    have at_target' := (t.store.write_plain written (m.roots ▸ h.fresh _ _ found)).trans at_target
    have fresh (b : Addr) (value : (s.store.write written).1 = .plain b) : b ∉ s.targets ∧
        (∀ (a : Addr) (key : Key), a.child key ≠ b) ∧
        ∀ key, (newData.getD data).view.own key ≠ some (.plain b) := by
      obtain rfl := write_eq_plain value
      refine ⟨fun member => ?_, fun a key => child_ne_root a key _, fun other own => ?_⟩
      · exact Nat.lt_irrefl _ (h.target_below member)
      · exact Nat.lt_irrefl _ (fits other _ own).below
    rcases set_array sealed wrote there found' fits_v (under_write _ _ _) fresh key (toLength written)
      at_target' shows with ⟨newData', d', result, result', taken⟩ | ⟨result, result', taken⟩
    · simp only [actArray, Store.act, same, result, result']
      exact ⟨_, rfl, taken⟩
    · simp only [actArray, Store.act, same, result, result']
      exact ⟨_, rfl, taken⟩

/-! ## Values that were set on objects -/

theorem Mirrors.raw_apart (h : Sealed F s) (raw : F a.root = none) : a ∉ s.targets := by
  intro member
  obtain ⟨p, there, rfl⟩ := List.mem_map.mp member
  obtain ⟨i, there⟩ := mem_iff_getElem?.mp there
  have frozen := (h.target i p there).1
  rw [raw] at frozen
  cases frozen

theorem Mirrors.update (m : Mirrors none F s t) (apart : a ∉ s.targets) (c : Cell) :
    Mirrors none F { s with store := s.store.update a c } { t with store := t.store.update a c } := by
  have other {p : Proxy} {i : ℕ} (there : s.proxies[i]? = some p) : p.target ≠ a := fun same =>
    apart (same ▸ mem_map_of_mem (mem_of_getElem? there))
  refine ⟨m.roots, m.handles, fun b outside => ?_, fun i p there data found => ?_,
    fun i p there not_skipped data found => ?_, m.distinct, m.closed, m.kept⟩
  · by_cases here : b = a
    · simp [Store.update, here]
    · simpa only [Store.update, Function.update_of_ne here] using m.apart b outside
  · simp only [Store.update, Function.update_of_ne (other there)] at found ⊢
    exact m.live i p there data found
  · simp only [Store.update, Function.update_of_ne (other there)] at found
    exact m.pending i p there not_skipped data found

theorem follows_plain (h : Sealed F s) (m : Mirrors none F s t) {c : Cell}
    (found : s.store.plain a = some c) (raw : F a.root = none) (action : Action)
    (defined : c.isArray = true ∨ ∀ key, action ≠ .set key none) :
    Follows (Frozen.after F s.store.roots false action) { s with store := (s.store.act toLength a c action).1 }
      (s.store.act toLength a c action).2 (t.act toLength (.plain a) action) := by
  have apart := Mirrors.raw_apart h raw
  have found' : t.store.plain a = some c := (m.apart a apart).trans found
  rw [Copied.act_of_plain found' defined]
  cases action with
  | get key =>
    have fits : Fits false F s.store.roots 0 (c.get key) :=
      fits_get (v := c.view) (h.raw a c found raw) key
    exact ⟨t, by simp only [Store.act, Result.map, under_of_no_proxy fits], m⟩
  | has key => exact ⟨t, rfl, m⟩
  | ownKeys => exact ⟨t, rfl, m⟩
  | delete key =>
    simp only [Store.act]
    cases c.delete key with
    | none => exact ⟨t, rfl, m⟩
    | some c' => exact ⟨_, rfl, m.update apart c'⟩
  | set key written =>
    obtain ⟨wrote, same⟩ := m.write h written false
    simp only [Store.act, same]
    cases c.set key (s.store.write written).1 (toLength written) with
    | none => exact ⟨_, rfl, wrote⟩
    | some c' => exact ⟨_, rfl, wrote.update apart c'⟩

/-! ## Programs -/

theorem isArray_view (h : Sealed F s) (there : s.proxies[i]? = some p)
    (found : s.store.plain p.target = some data) : (p.overlay.view data).isArray = p.overlay.isArray := by
  obtain ⟨target, overlay⟩ := p
  cases overlay with
  | object newData deleted => rfl
  | array newData => exact (h.array there found).2.1

theorem isArray_under (h : Sealed F s) (m : Mirrors none F s t) (fits : Fits false F s.store.roots s.proxies.length v) :
    t.store.isArray (under s.proxies v) = s.isArray v := by
  cases v with
  | plain a => simp only [under, Store.isArray, isArray, m.apart a (Mirrors.raw_apart h fits.2)]
  | proxy i =>
    have there := getElem?_eq_getElem (show i < s.proxies.length from fits)
    obtain ⟨_, data, found, _⟩ := h.target i _ there
    obtain ⟨d, found', _, kind⟩ := m.cell there found
    simp [under, there, Store.isArray, isArray, found', kind, isArray_view h there found]
  | _ => rfl

theorem observe_map (h : Sealed F s) (m : Mirrors none F s t)
    (fits : ∀ v, result = .value v → Fits false F s.store.roots s.proxies.length v) :
    (result.map (under s.proxies)).observe t.store.isArray = result.observe s.isArray := by
  cases result with
  | value v =>
    have same := isArray_under h m (fits v rfl)
    cases v with
    | plain a => simp only [Result.map, under, Result.observe] at same ⊢; rw [same]
    | proxy i =>
      have there := getElem?_eq_getElem (show i < s.proxies.length from fits _ rfl)
      simp only [Result.map, under, there, Result.observe] at same ⊢
      rw [same]
    | _ => rfl
  | _ => rfl

theorem handle_map (fits : ∀ v, result = .value v → Fits false F s.store.roots s.proxies.length v) :
    (result.map (under s.proxies)).handle = result.handle.map (under s.proxies) := by
  cases result with
  | value v =>
    cases v with
    | proxy i =>
      have there := getElem?_eq_getElem (show i < s.proxies.length from fits _ rfl)
      simp [Result.map, under, there, Result.handle]
    | _ => rfl
  | _ => rfl

/-- The actions that an augmented object answers as a copy does: no own constructor is
read, no inherited name is taken away, and nothing is set to undefined in a plain object. -/
def Augmented.allows (s : Augmented) (op : Op) : Bool :=
  match s.handles[op.handle]? with
  | some (.plain a) => match op.action with
    | .set _ none => s.store.isArray (.plain a)
    | _ => true
  | some (.proxy i) =>
    (s.proxies[i]?).all fun p => (s.store.plain p.target).all fun data =>
      match op.action with
      | .get key => key ≠ .name "constructor" || ((p.overlay.view data).own key).isNone
      | .set key none => p.overlay.isArray || (inherited false key).isNone
      | .delete key => p.overlay.isArray || (data.own.get key).isNone || (inherited false key).isNone
      | _ => true
  | _ => true

variable (toLength)

theorem follows_act (h : Sealed F s) (m : Mirrors none F s t)
    (there : s.handles[op.handle]? = some v) (allowed : s.allows op = true) :
    (s.act toLength v op.action = none ∧ t.act toLength (under s.proxies v) op.action = none) ∨
    ∃ s' result F', s.act toLength v op.action = some (s', result) ∧ Keeps F s result F' s' ∧
      Follows F' s' result (t.act toLength (under s.proxies v) op.action) := by
  have fits := h.handles v (mem_of_getElem? there)
  obtain ⟨handle, action⟩ := op
  simp only [allows, there] at allowed ⊢
  cases v with
  | plain a =>
    have same := m.apart a (Mirrors.raw_apart h fits.2)
    cases found : s.store.plain a with
    | none => exact .inl ⟨by simp [act, found], by simp [under, Copied.act, same, found]⟩
    | some c =>
      refine .inr ⟨_, _, _, by simp [act, found], keeps_plain h found fits.2 action,
        follows_plain h m found fits.2 action ?_⟩
      by_cases unset : ∃ key, action = .set key none
      · obtain ⟨key, rfl⟩ := unset
        simp only [Store.isArray, found, any_some] at allowed
        exact .inl allowed
      · exact .inr fun key same => unset ⟨key, same⟩
  | proxy i =>
    have at_i := getElem?_eq_getElem (show i < s.proxies.length from fits)
    obtain ⟨_, data, found, _⟩ := h.target i _ at_i
    generalize s.proxies[i] = p at at_i found
    obtain ⟨target, overlay⟩ := p
    simp only [at_i, found, all_some] at allowed
    have under_i : under s.proxies (.proxy i) = .plain target := by simp [under, at_i]
    rw [under_i]
    right
    cases overlay with
    | object newData deletedProperties =>
      refine ⟨_, _, _, by simp [act, at_i, found], keeps_object h at_i found action,
        follows_object h m at_i found action ?_ ?_ ?_⟩
      · rintro rfl
        simpa using allowed
      · rintro key rfl
        simpa [Overlay.isArray] using allowed
      · rintro key rfl present
        simpa [Overlay.isArray, present] using allowed
    | array newData =>
      refine ⟨_, _, _, by simp [act, at_i, found], keeps_array h at_i found action,
        follows_array h m at_i found action ?_⟩
      rintro rfl
      simpa using allowed
  | undefined => exact .inl ⟨rfl, rfl⟩
  | prim p => exact .inl ⟨rfl, rfl⟩
  | builtin ofArray name => exact .inl ⟨rfl, rfl⟩

theorem mirrors_step (h : Sealed F s) (m : Mirrors none F s t) (allowed : s.allows op = true) :
    (s.step toLength op = none ∧ t.step toLength op = none) ∨
    ∃ F' s' t' seen, s.step toLength op = some (s', seen) ∧ t.step toLength op = some (t', seen) ∧
      Sealed F' s' ∧ Mirrors none F' s' t' := by
  by_cases proto : op.action.key? = some (.name "__proto__")
  · exact .inl ⟨by simp [step, proto], by simp [Copied.step, proto]⟩
  have handle : t.handles[op.handle]? = s.handles[op.handle]?.map (under s.proxies) := by
    rw [m.handles, getElem?_map]
  cases there : s.handles[op.handle]? with
  | none =>
    rw [there] at handle
    exact .inl ⟨by simp [step, proto, there], by simp [Copied.step, proto, handle]⟩
  | some v =>
    rw [there] at handle
    rcases follows_act toLength h m there allowed with ⟨none_s, none_t⟩ | ⟨s', result, F', acted, keeps, t', copied, m'⟩
    · exact .inl ⟨by simp [step, proto, there, none_s], by simp [Copied.step, proto, handle, none_t]⟩
    · have seen := observe_map keeps.sealed m' keeps.result
      have handed := handle_map keeps.result
      refine .inr ⟨F', { s' with handles := s'.handles ++ result.handle },
        { t' with handles := t'.handles ++ (result.map (under s'.proxies)).handle }, result.observe s'.isArray,
        by simp [step, proto, there, acted], by simp [Copied.step, proto, handle, copied, seen],
        keeps.handle, m'.roots, ?_, m'.apart, m'.live, m'.pending, m'.distinct, m'.closed, m'.kept⟩
      rw [m'.handles, handed, map_append]

/-- Every action of the program is one that is answered as by a copy. -/
def Augmented.allowsAll : Augmented → List Op → Bool
  | _, [] => true
  | s, op :: ops => s.allows op && match s.step toLength op with
    | none => true
    | some (s, _) => allowsAll s ops

theorem observations_eq (h : Sealed F s) (m : Mirrors none F s t) (ops : List Op)
    (allowed : s.allowsAll toLength ops = true) : s.observations toLength ops = t.observations toLength ops := by
  induction ops generalizing F s t with
  | nil => rfl
  | cons op ops ih =>
    simp only [allowsAll, Bool.and_eq_true] at allowed
    obtain ⟨first, rest⟩ := allowed
    rcases mirrors_step toLength h m first with ⟨none_s, none_t⟩ | ⟨F', s', t', seen, step_s, step_t, h', m'⟩
    · simp [observations, Copied.observations, none_s, none_t]
    · simp only [step_s] at rest
      simp only [observations, Copied.observations, step_s, step_t, ih h' m' rest]

end Object

theorem mirrors_augmentObject (entries : List (Key × Json)) :
    Mirrors none (originalFrozen entries) (augmentObject entries) (deepCopy entries) := by
  have only {i : ℕ} {p : Proxy} (there : (augmentObject entries).proxies[i]? = some p) :
      p = ⟨⟨0, []⟩, .object .empty ∅⟩ := by
    simp only [augmentObject, getElem?_singleton] at there
    split at there
    · exact (some.inj there).symm
    · cases there
  have cell {data : Cell} (found : (augmentObject entries).store.plain ⟨0, []⟩ = some data) :
      (Json.object entries).cellAt ⟨0, []⟩ = some data ∧ (Overlay.object .empty ∅).view data = data.view := by
    refine ⟨found, ?_⟩
    obtain rfl := some.inj found
    exact view_fresh ⟨0, []⟩ (.object entries)
  refine ⟨rfl, rfl, fun _ _ => rfl, fun i p there data found => ?_, fun i p there _ data found => ?_,
    nodup_singleton _, fun a key inside => ?_, fun p inside => ?_⟩
  · obtain rfl := only there
    obtain ⟨original, shown⟩ := cell found
    exact ⟨data, found, by rw [shown, view_map_cellAt original]⟩
  · obtain rfl := only there
    obtain ⟨original, shown⟩ := cell found
    intro key b own _
    obtain ⟨rfl, _⟩ := cellAt_child original ((congrFun (congrArg View.own shown) key).symm.trans own)
    exact ⟨rfl, fun inside => child_ne_root _ key 0 (mem_singleton.mp inside)⟩
  · exact absurd (mem_singleton.mp inside) (child_ne_root a key 0)
  · obtain rfl := mem_singleton.mp inside
    rintro newData deleted ⟨⟩
    simp

/-- An augmented object answers like a copy of the object, and leaves the object alone. -/
theorem augmentObject_faithful (toLength : Option Json → Option ℕ) (entries : List (Key × Json)) (ops : List Op) :
    (∀ a : Addr, a.root = 0 →
      ((augmentObject entries).run toLength ops).store.plain a = (Json.object entries).cellAt a) ∧
    ((augmentObject entries).allowsAll toLength ops = true →
      (augmentObject entries).observations toLength ops = (deepCopy entries).observations toLength ops) := by
  refine ⟨fun a inside => ?_,
    observations_eq toLength (sealed_augmentObject entries) (mirrors_augmentObject entries) ops⟩
  have frozen : (originalFrozen entries 0).isSome = true := by simp [originalFrozen]
  have kept := frozen_run toLength (sealed_augmentObject entries) ops frozen a inside
  simpa [augmentObject, Store.holding, inside] using kept

/-- A nested object is read, written through its proxy, and taken away. -/
theorem augmentObject_faithful_nested :
    (augmentObject [(.name "a", .object [(.name "b", .prim (.number 1))])]).observations (fun _ => none)
        [⟨0, .get (.name "a")⟩, ⟨1, .set (.name "b") none⟩, ⟨1, .has (.name "b")⟩, ⟨0, .delete (.name "a")⟩,
          ⟨0, .has (.name "a")⟩] =
      (deepCopy [(.name "a", .object [(.name "b", .prim (.number 1))])]).observations (fun _ => none)
        [⟨0, .get (.name "a")⟩, ⟨1, .set (.name "b") none⟩, ⟨1, .has (.name "b")⟩, ⟨0, .delete (.name "a")⟩,
          ⟨0, .has (.name "a")⟩] :=
  (augmentObject_faithful (fun _ => none) _ _).2 (by decide)

/-- An own constructor is not read, what was deleted is not inherited, and an object that
was set keeps a property that is set to undefined. -/
theorem augmentObject_differs : (augmentObject [(.name "constructor", .prim (.number 5))]).observations (fun _ => none)
        [⟨0, .get (.name "constructor")⟩] ≠
      (deepCopy [(.name "constructor", .prim (.number 5))]).observations (fun _ => none)
        [⟨0, .get (.name "constructor")⟩] ∧
    (augmentObject [(.name "toString", .prim (.number 5))]).observations (fun _ => none)
        [⟨0, .delete (.name "toString")⟩, ⟨0, .get (.name "toString")⟩] ≠
      (deepCopy [(.name "toString", .prim (.number 5))]).observations (fun _ => none)
        [⟨0, .delete (.name "toString")⟩, ⟨0, .get (.name "toString")⟩] ∧
    (augmentObject []).observations (fun _ => none)
        [⟨0, .set (.name "a") (some (.object [(.name "b", .prim (.number 1))]))⟩, ⟨0, .get (.name "a")⟩,
          ⟨1, .set (.name "b") none⟩, ⟨1, .has (.name "b")⟩] ≠
      (deepCopy []).observations (fun _ => none)
        [⟨0, .set (.name "a") (some (.object [(.name "b", .prim (.number 1))]))⟩, ⟨0, .get (.name "a")⟩,
          ⟨1, .set (.name "b") none⟩, ⟨1, .has (.name "b")⟩] := by
  decide

end N8n.AugmentObject
