import N8n.AugmentSealed

/-! What an augmented object shows and what a copy of it shows. The copy has the same cells,
except where a proxy stands before a cell: there it has one that shows what the overlay of
the proxy shows. -/

namespace N8n.AugmentObject

open PlainData List Option

def Augmented.targets (s : Augmented) : List Addr := s.proxies.map Proxy.target

/-- The reference of the copy that a reference stands for. -/
def under (proxies : List Proxy) : Value → Value
  | .proxy i => match proxies[i]? with
    | some p => .plain p.target
    | none => .proxy i
  | v => v

/-- What is still to be augmented stands in its old place, with no proxy before it. -/
def Pending (F : Frozen) (targets : List Addr) (target : Addr) (v : View) : Prop :=
  ∀ key b, v.own key = some (.plain b) → (F b.root).isSome = true → b = target.child key ∧ b ∉ targets

/-- The proxy `skip` is about to take in a value that was just augmented. -/
structure Mirrors (skip : Option ℕ) (F : Frozen) (s : Augmented) (t : Copied) : Prop where
  roots : t.store.roots = s.store.roots
  handles : t.handles = s.handles.map (under s.proxies)
  apart : ∀ a, a ∉ s.targets → t.store.plain a = s.store.plain a
  live : ∀ (i : ℕ) (p : Proxy), s.proxies[i]? = some p → ∀ data, s.store.plain p.target = some data →
    ∃ d, t.store.plain p.target = some d ∧ d.view = (p.overlay.view data).map (under s.proxies)
  pending : ∀ (i : ℕ) (p : Proxy), s.proxies[i]? = some p → some i ≠ skip →
    ∀ data, s.store.plain p.target = some data → Pending F s.targets p.target (p.overlay.view data)
  distinct : s.targets.Nodup
  closed : ∀ a key, a.child key ∈ s.targets → a ∈ s.targets
  kept : ∀ p ∈ s.proxies, ∀ newData deleted, p.overlay = .object newData deleted →
    ∀ key ∈ deleted, inherited false key = none

/-! ## References -/

theorem renaming_under (proxies : List Proxy) : Renaming (under proxies) :=
  ⟨rfl, fun _ => rfl, fun _ _ => rfl⟩

theorem child_inj {a b : Addr} {key key' : Key} (same : a.child key = b.child key') : a = b ∧ key = key' := by
  obtain ⟨root, path⟩ := a
  obtain ⟨root', path'⟩ := b
  simp only [Addr.child, Addr.mk.injEq, cons.injEq] at same ⊢
  exact ⟨⟨same.1, same.2.2⟩, same.2.1⟩

theorem child_ne_self (a : Addr) (key : Key) : a.child key ≠ a := by
  intro same
  have := congrArg (fun a : Addr => a.path.length) same
  simp [Addr.child] at this

theorem child_ne_root (a : Addr) (key : Key) (root : ℕ) : a.child key ≠ ⟨root, []⟩ := by
  simp [Addr.child]
variable {F : Frozen} {frozen : Bool} {roots : ℕ} {v : Value} {proxies : List Proxy}

theorem under_eq {proxies' : List Proxy} (fits : Fits frozen F roots proxies.length v)
    (same : ∀ i < proxies.length, proxies'[i]?.map Proxy.target = proxies[i]?.map Proxy.target) :
    under proxies' v = under proxies v := by
  cases v with
  | proxy i =>
    have here := same i fits
    simp only [under]
    cases before : proxies[i]? <;> cases after : proxies'[i]? <;> simp_all
  | _ => rfl

theorem under_of_no_proxy (fits : Fits frozen F roots 0 v) : under proxies v = v := by
  cases v with
  | proxy i => exact absurd fits (Nat.not_lt_zero i)
  | _ => rfl

theorem under_modify (proxies : List Proxy) (i : ℕ) (overlay : Overlay) :
    under (proxies.modify i fun p => { p with overlay }) = under proxies := by
  funext v
  cases v with
  | proxy j =>
    simp only [under, getElem?_modify]
    cases proxies[j]? with
    | none => rfl
    | some p => by_cases here : i = j <;> simp [here]
  | _ => rfl

theorem under_setOverlay (s : Augmented) (i : ℕ) (overlay : Overlay) :
    under (s.setOverlay i overlay).proxies = under s.proxies := under_modify s.proxies i overlay

theorem targets_modify (s : Augmented) (i : ℕ) (overlay : Overlay) : (s.setOverlay i overlay).targets = s.targets := by
  apply ext_getElem?
  intro j
  simp only [Augmented.targets, Augmented.setOverlay, getElem?_map, getElem?_modify]
  cases s.proxies[j]? with
  | none => rfl
  | some p => by_cases here : i = j <;> simp [here]

namespace Pending

variable {F : Frozen} {targets : List Addr} {target : Addr} {v : View}

theorem put (h : Pending F targets target v) {x : Value}
    (harmless : ∀ b, x = .plain b → (F b.root).isSome = false) (key : Key) :
    Pending F targets target (v.put key x) := by
  intro other b own frozen
  rcases View.own_put own with rfl | before
  · rw [harmless b rfl] at frozen
    cases frozen
  · exact h other b before frozen

theorem delete (h : Pending F targets target v) (key : Key) : Pending F targets target (v.delete key) :=
  fun other b own frozen => h other b (View.own_delete own) frozen

/-- A proxy comes before a cell that is not among what is still to be augmented. -/
theorem extend (h : Pending F targets target v) {b : Addr} (absent : ∀ key, v.own key ≠ some (.plain b)) :
    Pending F (targets ++ [b]) target v := by
  intro key c own frozen
  obtain ⟨place, new⟩ := h key c own frozen
  refine ⟨place, fun member => ?_⟩
  rcases mem_append.mp member with old | here
  · exact new old
  · obtain rfl := mem_singleton.mp here
    exact absent key own

end Pending

section Mirrors

variable {F : Frozen} {s : Augmented} {t : Copied} {data c : Cell} {i : ℕ} {p : Proxy} {b a : Addr}

theorem Sealed.slot (h : Sealed F s) (there : s.proxies[i]? = some p)
    (found : s.store.plain p.target = some data) {key : Key} (own : (p.overlay.view data).own key = some v) :
    ∃ frozen, Fits frozen F s.store.roots s.proxies.length v := by
  obtain ⟨target, overlay⟩ := p
  cases overlay with
  | object newData deleted =>
    simp only [Overlay.view] at own
    split at own
    · cases own
    · cases written : newData.get key with
      | some x =>
        rw [written] at own
        cases own
        exact ⟨false, h.overlay i _ there key _ written⟩
      | none =>
        rw [written] at own
        exact ⟨true, (h.fits_data there found key v own).mono (fun _ _ => rfl) (Nat.le_refl _) (Nat.zero_le _)⟩
  | array newData => exact ⟨true, (h.array there found).2.2.2 key v own⟩

theorem Fits.below {count : ℕ} (fits : Fits frozen F roots count (.plain b)) : b.root < roots := fits.1

theorem Fits.raw {count : ℕ} (fits : Fits false F roots count (.plain b)) : (F b.root).isSome = false := by
  have unknown : F b.root = none := fits.2
  rw [unknown]
  rfl

theorem Mirrors.skipping (m : Mirrors none F s t) : Mirrors (some i) F s t :=
  ⟨m.roots, m.handles, m.apart, m.live, fun j p there _ => m.pending j p there (by simp), m.distinct, m.closed, m.kept⟩

theorem Mirrors.cell {skip : Option ℕ} (m : Mirrors skip F s t)
    (there : s.proxies[i]? = some p) (found : s.store.plain p.target = some data) :
    ∃ d, t.store.plain p.target = some d ∧ d.view = (p.overlay.view data).map (under s.proxies) ∧
      d.isArray = (p.overlay.view data).isArray := by
  obtain ⟨d, there', same⟩ := m.live i p there data found
  exact ⟨d, there', same, congrArg View.isArray same⟩

theorem Sealed.target_below (h : Sealed F s) (member : a ∈ s.targets) : a.root < s.store.roots := by
  obtain ⟨p, there, rfl⟩ := List.mem_map.mp member
  obtain ⟨i, there⟩ := mem_iff_getElem?.mp there
  obtain ⟨_, data, found, _⟩ := h.target i p there
  exact h.fresh _ _ found

theorem Mirrors.write (h : Sealed F s) (m : Mirrors none F s t) (written : Option Json) (freeze : Bool) :
    Mirrors none (Frozen.bring F s.store.roots freeze written)
        { s with store := (s.store.write written).2 } { t with store := (t.store.write written).2 } ∧
      (t.store.write written).1 = (s.store.write written).1 := by
  cases written with
  | none => exact ⟨m, rfl⟩
  | some json =>
    have kept {a : Addr} (member : a ∈ s.targets) : (s.store.write (some json)).2.plain a = s.store.plain a :=
      s.store.write_plain (some json) (h.target_below member)
    have kept' {a : Addr} (member : a ∈ s.targets) : (t.store.write (some json)).2.plain a = t.store.plain a :=
      t.store.write_plain (some json) (m.roots ▸ h.target_below member)
    have member {i : ℕ} {p : Proxy} (there : s.proxies[i]? = some p) : p.target ∈ s.targets :=
      mem_map_of_mem (mem_of_getElem? there)
    refine ⟨⟨?_, m.handles, fun a new => ?_, fun i p there data found => ?_,
      fun i p there other data found => ?_, m.distinct, m.closed, m.kept⟩, ?_⟩
    · simp only [Store.write, m.roots]
    · have same := m.apart a new
      simp only [Store.write, m.roots, same]
    · obtain ⟨d, there', same⟩ := m.live i p there data (kept (member there) ▸ found)
      exact ⟨d, (kept' (member there)).trans there', same⟩
    · have found := kept (member there) ▸ found
      intro key b own frozen
      obtain ⟨_, fits⟩ := h.slot there found own
      have below := Fits.below fits
      rw [(h.write (some json) freeze).1 _ below] at frozen
      exact m.pending i p there other data found key b own frozen
    · simp only [Store.write, m.roots]

theorem view_fresh (a : Addr) (json : Json) :
    (if (json.cell a).isArray then Overlay.array none else .object .empty ∅).view (json.cell a) =
      (json.cell a).view := by
  cases json <;> rfl

theorem view_map_cellAt {json : Json} (found : json.cellAt a = some c) (proxies : List Proxy) :
    c.view.map (under proxies) = c.view := by
  ext key v
  · rfl
  · rfl
  · simp only [View.map, Cell.view]
    cases own : c.own.get key with
    | none => rfl
    | some x => rcases own_cellAt found own with ⟨p, rfl⟩ | rfl <;> rfl

theorem Mirrors.wrap (h : Sealed F s) (m : Mirrors none F s t)
    (there : s.proxies[i]? = some p) (found : s.store.plain b = some c)
    (frozen : (F b.root).isSome = true) (new : b ∉ s.targets) (owner : ∀ a key, a.child key = b → a = p.target) :
    Mirrors (some i) F (s.augment (.plain b)).2 t := by
  obtain ⟨json, known⟩ := isSome_iff_exists.mp frozen
  have cell : json.cellAt b = some c := ((h.frozen _ _ known).2 b rfl).symm.trans found
  obtain ⟨inner, _, _, rfl⟩ := cellAt_some cell
  simp only [Augmented.augment, found]
  generalize fresh : (if (inner.cell b).isArray then Overlay.array none else .object .empty ∅) = overlay
  have shown : overlay.view (inner.cell b) = (inner.cell b).view := fresh ▸ view_fresh b inner
  have targets : ({ s with proxies := s.proxies ++ [⟨b, overlay⟩] } : Augmented).targets =
      s.targets ++ [b] := by simp [Augmented.targets]
  have old : ∀ j < s.proxies.length, (s.proxies ++ [⟨b, overlay⟩])[j]?.map Proxy.target =
      s.proxies[j]?.map Proxy.target := by
    intro j below
    rw [getElem?_append_left below]
  -- a proxy is one of the old ones or the new one
  have either {j : ℕ} {q : Proxy} (at_j : (s.proxies ++ [⟨b, overlay⟩])[j]? = some q) :
      s.proxies[j]? = some q ∨ q = ⟨b, overlay⟩ := by
    by_cases before : j < s.proxies.length
    · exact .inl ((getElem?_append_left before).symm.trans at_j)
    · rw [getElem?_append_right (by omega), getElem?_singleton] at at_j
      split at at_j
      · exact .inr (some.inj at_j).symm
      · cases at_j
  refine ⟨m.roots, ?_, fun a outside => ?_, fun j q at_j data there' => ?_,
    fun j q at_j other data there' => ?_, ?_, fun a key inside => ?_, fun q member => ?_⟩
  · rw [m.handles]
    exact map_congr_left fun v member => (under_eq (h.handles v member) old).symm
  · exact m.apart a fun member => outside (targets ▸ mem_append_left _ member)
  · rcases either at_j with before | rfl
    · obtain ⟨d, found', same⟩ := m.live j q before data there'
      refine ⟨d, found', same.trans ?_⟩
      ext key v
      · rfl
      · rfl
      · simp only [View.map]
        cases own : (q.overlay.view data).own key with
        | none => rfl
        | some x =>
          obtain ⟨_, fits⟩ := h.slot before there' own
          simp [under_eq fits old]
    · obtain rfl := some.inj (found.symm.trans there')
      exact ⟨_, (m.apart b new).trans found, by rw [shown, view_map_cellAt cell]⟩
  · rw [targets]
    rcases either at_j with before | rfl
    · have different : i ≠ j := fun same => other (by rw [same])
      refine (m.pending j q before (by simp) data there').extend fun key own => ?_
      have place := (m.pending j q before (by simp) data there' key b own frozen).1
      have same := owner q.target key place.symm
      refine different ((getElem?_inj (by simpa [Augmented.targets] using
        (List.getElem?_eq_some_iff.mp there).1) m.distinct).mp ?_)
      simp [Augmented.targets, there, before, same]
    · obtain rfl := some.inj (found.symm.trans there')
      intro key c own _
      simp only [shown] at own
      obtain ⟨rfl, _⟩ := cellAt_child cell own
      refine ⟨rfl, fun member => ?_⟩
      rcases mem_append.mp member with inside | here
      · exact new (m.closed b key inside)
      · exact child_ne_self b key (mem_singleton.mp here)
  · rw [targets]
    exact Nodup.append m.distinct (nodup_singleton b) (by simpa using new)
  · rw [targets] at inside ⊢
    rcases mem_append.mp inside with before | here
    · exact mem_append_left _ (m.closed a key before)
    · rw [owner a key (mem_singleton.mp here)]
      exact mem_append_left _ (mem_map_of_mem (mem_of_getElem? there))
  · rcases mem_append.mp member with before | here
    · exact m.kept q before
    · obtain rfl := mem_singleton.mp here
      rintro newData deleted same
      rw [← fresh] at same
      split at same
      · cases same
      · cases same
        simp

theorem Mirrors.replace (m : Mirrors (some i) F s t) (there : s.proxies[i]? = some p)
    (found : s.store.plain p.target = some data) {overlay : Overlay} {d : Cell}
    (shows : d.view = (overlay.view data).map (under s.proxies))
    (pending : Pending F s.targets p.target (overlay.view data))
    (kept : ∀ newData deleted, overlay = .object newData deleted → ∀ key ∈ deleted, inherited false key = none) :
    Mirrors none F (s.setOverlay i overlay) { t with store := t.store.update p.target d } := by
  have targets := targets_modify s i overlay
  have member : p.target ∈ s.targets := mem_map_of_mem (mem_of_getElem? there)
  have under_same := under_setOverlay s i overlay
  -- the proxies after the step
  have either {j : ℕ} {q : Proxy} (at_j : (s.setOverlay i overlay).proxies[j]? = some q) :
      (j = i ∧ q = { p with overlay }) ∨ (j ≠ i ∧ s.proxies[j]? = some q ∧ q.target ≠ p.target) := by
    simp only [Augmented.setOverlay, getElem?_modify] at at_j
    obtain ⟨old, before, rfl⟩ := map_eq_some_iff.mp at_j
    by_cases here : i = j
    · subst here
      obtain rfl := some.inj (there.symm.trans before)
      exact .inl ⟨rfl, by simp⟩
    · refine .inr ⟨Ne.symm here, by simp [here, before], fun same => here ?_⟩
      refine (getElem?_inj (by simpa [Augmented.targets] using
        (List.getElem?_eq_some_iff.mp there).1) m.distinct).mp ?_
      simpa [Augmented.targets, there, before, here] using same.symm
  refine ⟨m.roots, ?_, fun a outside => ?_, fun j q at_j data' there' => ?_,
    fun j q at_j _ data' there' => ?_, targets ▸ m.distinct, fun a key inside => ?_, fun q inside => ?_⟩
  · rw [under_same]
    exact m.handles
  · rw [targets] at outside
    have different : a ≠ p.target := fun same => outside (same ▸ member)
    simp only [Store.update, Function.update_of_ne different]
    exact m.apart a outside
  · rw [under_same]
    rcases either at_j with ⟨rfl, rfl⟩ | ⟨other, before, different⟩
    · obtain rfl := some.inj (found.symm.trans there')
      exact ⟨d, by simp [Store.update], shows⟩
    · obtain ⟨d', found', same⟩ := m.live j q before data' there'
      exact ⟨d', by simp [Store.update, Function.update_of_ne different, found'], same⟩
  · rw [targets]
    rcases either at_j with ⟨rfl, rfl⟩ | ⟨other, before, different⟩
    · obtain rfl := some.inj (found.symm.trans there')
      exact pending
    · exact m.pending j q before (by simp [other]) data' there'
  · rw [targets] at inside ⊢
    exact m.closed a key inside
  · obtain ⟨j, at_j⟩ := mem_iff_getElem?.mp inside
    rcases either at_j with ⟨rfl, rfl⟩ | ⟨other, before, different⟩
    · exact kept
    · exact m.kept q (mem_of_getElem? before)

end Mirrors

end N8n.AugmentObject
