import Mathlib.Order.Lattice

/-! Documents whose states are joined by updates. Applying an update joins its
content, and the encoded state of a document is an update that carries all of it.
A queue of updates is read as the document it will lead to. -/

namespace N8n

structure UpdateEngine (Doc Update : Type*) [SemilatticeSup Doc] where
  /-- the part of a document that an update carries -/
  content : Update → Doc
  encodeState : Doc → Update
  applyUpdate : Doc → Update → Doc
  /-- what a document emits in turn while the update of another one is applied -/
  relayed : Doc → Update → List Update
  applyUpdate_eq : ∀ doc update, applyUpdate doc update = doc ⊔ content update
  content_encodeState : ∀ doc, content (encodeState doc) = doc
  relayed_le : ∀ doc update, ∀ relay ∈ relayed doc update, content relay ≤ doc ⊔ content update

namespace UpdateEngine

variable {Doc Update : Type*} [SemilatticeSup Doc] (engine : UpdateEngine Doc Update) {doc : Doc} {update : Update}

def merged (doc : Doc) (updates : List Update) : Doc := updates.foldl engine.applyUpdate doc

@[simp] theorem merged_nil (doc : Doc) : engine.merged doc [] = doc := rfl

@[simp] theorem merged_cons (doc : Doc) (update : Update) (updates : List Update) :
    engine.merged doc (update :: updates) = engine.merged (engine.applyUpdate doc update) updates := rfl

theorem merged_append (doc : Doc) (front back : List Update) :
    engine.merged doc (front ++ back) = engine.merged (engine.merged doc front) back :=
  List.foldl_append

theorem le_applyUpdate (doc : Doc) (update : Update) : doc ≤ engine.applyUpdate doc update := by
  rw [engine.applyUpdate_eq]
  exact le_sup_left

theorem content_le_applyUpdate (doc : Doc) (update : Update) :
    engine.content update ≤ engine.applyUpdate doc update := by
  rw [engine.applyUpdate_eq]
  exact le_sup_right

/-- An update that carries nothing new changes nothing. -/
theorem applyUpdate_of_le (known : engine.content update ≤ doc) : engine.applyUpdate doc update = doc := by
  rw [engine.applyUpdate_eq, sup_eq_left]
  exact known

theorem applyUpdate_le {bound : Doc} (below : doc ≤ bound) (carried : engine.content update ≤ bound) :
    engine.applyUpdate doc update ≤ bound := by
  rw [engine.applyUpdate_eq]
  exact sup_le below carried

theorem le_merged (doc : Doc) (updates : List Update) : doc ≤ engine.merged doc updates := by
  induction updates generalizing doc with
  | nil => exact le_rfl
  | cons update updates ih => exact (engine.le_applyUpdate doc update).trans (ih _)

theorem merged_mono {doc' : Doc} (grown : doc ≤ doc') (updates : List Update) :
    engine.merged doc updates ≤ engine.merged doc' updates := by
  induction updates generalizing doc doc' with
  | nil => exact grown
  | cons update updates ih =>
    refine ih (engine.applyUpdate_le ?_ (engine.content_le_applyUpdate doc' update))
    exact grown.trans (engine.le_applyUpdate doc' update)

theorem merged_le_append (doc : Doc) (front back : List Update) :
    engine.merged doc front ≤ engine.merged doc (front ++ back) := by
  rw [merged_append]
  exact engine.le_merged _ back

theorem content_le_merged_append (doc : Doc) (updates : List Update) (update : Update) :
    engine.content update ≤ engine.merged doc (updates ++ [update]) := by
  rw [merged_append]
  exact engine.content_le_applyUpdate _ update

end UpdateEngine

end N8n
