import N8n.ExceptFold
import N8n.JsonReader

/-! Form fields from a text. The fields are changed in place: a value of a field becomes a string, or is
escaped if it is one, and the options of a dropdown are looked at but left as they are. -/

namespace N8n.FormFields

open JsonReader List Option

variable {ν : Type} (N : Numerals ν)

def allowedFormFieldsKeys : List (List Char) :=
  ["fieldLabel", "fieldType", "placeholder", "defaultValue", "fieldOptions", "multiselect", "multipleFiles",
    "acceptFileTypes", "formatDate", "requiredField", "fieldValue", "elementName", "html", "fieldName",
    "limitSelection", "numberOfSelections", "minSelections", "maxSelections"].map String.toList

def allowedFieldTypes : List (List Char) :=
  ["date", "dropdown", "email", "file", "number", "password", "text", "textarea", "checkbox", "radio", "html",
    "hiddenField"].map String.toList

def fieldType : List Char := "fieldType".toList

def fieldOptions : List Char := "fieldOptions".toList

def html : List Char := "html".toList

def invalidJson : List Char := "Value is not valid JSON".toList

mutual

/-- `String(value)`. It throws for an object with a member `toString`, which is no function. -/
def toText : Json ν → Option (List Char)
  | .null => some "null".toList
  | .boolean value => some (if value then "true".toList else "false".toList)
  | .number value => some (N.toText value)
  | .infinity negative => some (if negative then "-Infinity".toList else "Infinity".toList)
  | .string value => some value
  | .array items => (joined items).map separated
  | .object members =>
    if members.any (·.1 == "toString".toList) then none else some "[object Object]".toList

/-- The texts that `join` puts together. -/
def joined : List (Json ν) → Option (List (List Char))
  | [] => some []
  | .null :: items => (joined items).map ([] :: ·)
  | item :: items => (toText item).bind fun text => (joined items).map (text :: ·)

end

def escape (text : List Char) : List Char :=
  (text.flatMap fun char => if char = '<' then "&lt;".toList else [char]).flatMap fun char =>
    if char = '>' then "&gt;".toList else [char]

def convert (key : List Char) (value : Json ν) : Option (Json ν) :=
  match value with
  | .boolean _ | .number _ | .infinity _ => some value
  | .string text => some (if key = html then value else .string (escape text))
  | _ => if key = fieldOptions then some value else (toText N value).map .string

/-- The keys of `null` throw. -/
def checkOption (index optionIndex : ℕ) : Json ν → Except (List Char) Unit
  | .null => .error invalidJson
  | .object [(key, .string _)] =>
    if key = "option".toList then .ok ()
    else .error s!"Field dropdown in field {index} has an invalid option {optionIndex}".toList
  | _ => .error s!"Field dropdown in field {index} has an invalid option {optionIndex}".toList

def isFalsy : Json ν → Bool
  | .null => true
  | .boolean value => !value
  | .number value => N.toText value == ['0']
  | .string value => value.isEmpty
  | _ => false

def wrapped : Json ν → Json ν
  | .array items => .object [("values".toList, .array items)]
  | value => value

def noValues (index : ℕ) : List Char :=
  s!"Field dropdown in field {index} does has no 'values' property that contain an array of options".toList

def checkFieldOptions (index : ℕ) (value : Json ν) : Except (List Char) Unit :=
  match value with
  | .null => .error invalidJson
  | .object members =>
    match members.lookup "values".toList with
    | none => .error (noValues index)
    | some values =>
      if isFalsy N values then .error (noValues index)
      else
        match values with
        | .array options => options.zipIdx.forM fun option => checkOption index option.2 option.1
        | _ => .error invalidJson
  | _ => .error (noValues index)

def invalidKey (key : List Char) (index : ℕ) : List Char :=
  "Key '".toList ++ key ++ s!"' in field {index} is not valid for form fields".toList

def invalidType (text : List Char) (index : ℕ) : List Char :=
  "Field type '".toList ++ text ++ s!"' in field {index} is not valid for form fields".toList

local instance lawfulText : LawfulBEq (List Char) := inferInstance

def isAllowedType : Json ν → Bool
  | .string text => text ∈ allowedFieldTypes
  | _ => false

def formField (index : ℕ) (entry : List Char × Json ν) : Except (List Char) (List Char × Json ν) :=
  if entry.1 ∉ allowedFormFieldsKeys then .error (invalidKey entry.1 index)
  else
    match convert N entry.1 entry.2 with
    | none => .error invalidJson
    | some value =>
      if entry.1 = fieldType ∧ isAllowedType value = false then
        .error (invalidType ((toText N value).getD []) index)
      else if entry.1 = fieldOptions then
        (checkFieldOptions N index (wrapped value)).map fun _ => (entry.1, wrapped value)
      else .ok (entry.1, value)

/-- The keys of a string or an array are its indices, and those of a number or boolean are none. -/
def formFields (index : ℕ) : Json ν → Except (List Char) (Json ν)
  | .null => .error invalidJson
  | .boolean value => .ok (.boolean value)
  | .number value => .ok (.number value)
  | .infinity negative => .ok (.infinity negative)
  | .string value => if value = [] then .ok (.string value) else .error (invalidKey ['0'] index)
  | .array items => if items.isEmpty then .ok (.array items) else .error (invalidKey ['0'] index)
  | .object members => (members.mapM (formField N index)).map .object

/-- Where the text is no JSON it may be the expression of an object, which has no method `entries`. -/
def tryToParseJsonToFormFields (text : List Char) : Except (List Char) (List (Json ν)) :=
  match parseJson N text with
  | some (.array rawFields) => rawFields.zipIdx.mapM fun field => formFields N field.2 field.1
  | _ => .error invalidJson

/-! ## What is claimed -/

def Free (text : List Char) : Prop := '<' ∉ text ∧ '>' ∉ text

/-- No string in the value has an angle bracket, but for those under a key `html`. -/
inductive Clean : Json ν → Prop where
  | null : Clean .null
  | boolean (value : Bool) : Clean (.boolean value)
  | number (value : ν) : Clean (.number value)
  | infinity (negative : Bool) : Clean (.infinity negative)
  | string {text : List Char} (free : Free text) : Clean (.string text)
  | array {items : List (Json ν)} (each : ∀ item ∈ items, Clean item) : Clean (.array items)
  | object {members : List (List Char × Json ν)} (keys : ∀ entry ∈ members, Free entry.1)
      (values : ∀ entry ∈ members, entry.1 ≠ html → Clean entry.2) : Clean (.object members)

inductive AllowedKeys : Json ν → Prop where
  | boolean (value : Bool) : AllowedKeys (.boolean value)
  | number (value : ν) : AllowedKeys (.number value)
  | infinity (negative : Bool) : AllowedKeys (.infinity negative)
  | string : AllowedKeys (.string [])
  | array : AllowedKeys (.array [])
  | object {members : List (List Char × Json ν)} (each : ∀ entry ∈ members, entry.1 ∈ allowedFormFieldsKeys) :
      AllowedKeys (.object members)

def HasEntry (field : Json ν) (entry : List Char × Json ν) : Prop :=
  ∃ members, field = .object members ∧ entry ∈ members

def HasType (field : Json ν) : Prop := ∃ entry, HasEntry field entry ∧ entry.1 = fieldType

structure Sanitised (fields : List (Json ν)) : Prop where
  clean : ∀ field ∈ fields, Clean field
  keys : ∀ field ∈ fields, AllowedKeys field
  types : ∀ field ∈ fields, ∀ entry, HasEntry field entry → entry.1 = fieldType →
    ∃ type ∈ allowedFieldTypes, entry.2 = .string type

/-- No string that goes into `String(value)` has an angle bracket; objects go into it without theirs. -/
inductive Plain : Json ν → Prop where
  | null : Plain .null
  | boolean (value : Bool) : Plain (.boolean value)
  | number (value : ν) : Plain (.number value)
  | infinity (negative : Bool) : Plain (.infinity negative)
  | string {text : List Char} (free : Free text) : Plain (.string text)
  | array {items : List (Json ν)} (each : ∀ item ∈ items, Plain item) : Plain (.array items)
  | object (members : List (List Char × Json ν)) : Plain (.object members)

/-- The options are clean, and so are the strings of an array under another key than `html`. -/
structure CleanEntry (entry : List Char × Json ν) : Prop where
  options : entry.1 = fieldOptions → Clean entry.2
  array : entry.1 ≠ fieldOptions → entry.1 ≠ html → ∀ items, entry.2 = .array items → Plain entry.2

def CleanInput (rawFields : List (Json ν)) : Prop :=
  ∀ field ∈ rawFields, ∀ entry, HasEntry field entry → CleanEntry entry

/-! ## Texts -/

section Texts

variable {text more : List Char}

theorem free_iff : Free text ↔ ∀ char ∈ text, char ≠ '<' ∧ char ≠ '>' := by
  refine ⟨fun free char member => ⟨fun same => free.1 (same ▸ member), fun same => free.2 (same ▸ member)⟩, ?_⟩
  intro each
  exact ⟨fun member => (each '<' member).1 rfl, fun member => (each '>' member).2 rfl⟩

theorem free_append : Free (text ++ more) ↔ Free text ∧ Free more := by
  rw [free_iff, free_iff, free_iff]
  exact forall_mem_append

theorem free_separated {texts : List (List Char)} : Free (separated texts) ↔ ∀ text ∈ texts, Free text := by
  cases texts with
  | nil => exact iff_of_true ⟨not_mem_nil, not_mem_nil⟩ nofun
  | cons text texts =>
    have comma : ∀ text, Free (',' :: text) ↔ Free text := fun text => by simp [Free]
    have rest : Free (texts.flatMap fun text => ',' :: text) ↔ ∀ text ∈ texts, Free text := by
      simp only [free_iff, mem_flatMap]
      constructor
      · intro each text member
        exact free_iff.mp ((comma text).mp (free_iff.mpr fun char inside => each char ⟨text, member, inside⟩))
      · rintro each char ⟨text, member, inside⟩
        exact free_iff.mp ((comma text).mpr (free_iff.mpr (each text member))) char inside
    rw [separated, free_append, rest, forall_mem_cons]

theorem free_escape (text : List Char) : Free (escape text) := by
  refine free_iff.mpr fun char member => ?_
  obtain ⟨mid, before, last⟩ := mem_flatMap.mp member
  obtain ⟨first, -, inside⟩ := mem_flatMap.mp before
  have kept : mid ≠ '<' := by
    rintro rfl
    split_ifs at inside with bracket
    · exact absurd inside (by decide)
    · exact bracket (mem_singleton.mp inside).symm
  split_ifs at last with bracket
  · have known : ∀ char ∈ "&gt;".toList, char ≠ '<' ∧ char ≠ '>' := by simp
    exact known char last
  · obtain rfl := mem_singleton.mp last
    exact ⟨kept, bracket⟩

theorem free_numeral (numeral : ∀ char ∈ text, isNumeral char = true) : Free text := by
  refine free_iff.mpr fun char member => ⟨?_, ?_⟩
  · rintro rfl
    cases numeral _ member
  · rintro rfl
    cases numeral _ member

end Texts

variable {N} {value made : Json ν} {text : List Char} {items : List (Json ν)}

theorem joined_eq {texts : List (List Char)} (done : joined N items = some texts) :
    Forall₂ (fun item text => toText N item = some text ∨ item = .null ∧ text = []) items texts := by
  induction items generalizing texts with
  | nil =>
    cases done
    exact .nil
  | cons item items ih =>
    cases item with
    | null =>
      obtain ⟨rest, known, rfl⟩ := map_eq_some_iff.mp done
      exact .cons (.inr ⟨rfl, rfl⟩) (ih known)
    | _ =>
      obtain ⟨text, first, later⟩ := bind_eq_some_iff.mp done
      obtain ⟨rest, known, rfl⟩ := map_eq_some_iff.mp later
      exact .cons (.inl first) (ih known)

/-- The text has an angle bracket exactly where a string has one that goes into it. -/
theorem free_toText_iff (done : toText N value = some text) : Free text ↔ Plain value := by
  induction value generalizing text with
  | null =>
    cases done
    exact iff_of_true (by unfold Free; decide) .null
  | boolean value =>
    cases done
    exact iff_of_true (by cases value <;> (unfold Free; decide)) (.boolean value)
  | number value =>
    cases done
    exact iff_of_true (free_numeral (N.numeral value)) (.number value)
  | infinity negative =>
    cases done
    exact iff_of_true (by cases negative <;> (unfold Free; decide)) (.infinity negative)
  | string value =>
    cases done
    exact ⟨.string, fun plain => by cases plain with | string free => exact free⟩
  | array items ih =>
    obtain ⟨texts, known, rfl⟩ := map_eq_some_iff.mp done
    have each := joined_eq known
    rw [free_separated]
    have all : (∀ text ∈ texts, Free text) ↔ ∀ item ∈ items, Plain item := by
      clear known done
      induction each with
      | nil => exact iff_of_true nofun nofun
      | @cons item text items texts first _ rest =>
        rw [forall_mem_cons, forall_mem_cons, rest fun item member => ih item (mem_cons_of_mem _ member)]
        refine and_congr_left fun _ => ?_
        rcases first with done | ⟨rfl, rfl⟩
        · exact ih item mem_cons_self done
        · exact iff_of_true ⟨not_mem_nil, not_mem_nil⟩ .null
    exact all.trans ⟨.array, fun plain => by cases plain with | array each => exact each⟩
  | object members ih =>
    obtain ⟨-, same⟩ := ite_none_left_eq_some.mp done
    cases same
    exact iff_of_true (by unfold Free; decide) (.object members)

/-! ## One entry of a field -/

variable {key : List Char} {index : ℕ} {entry result : List Char × Json ν}

theorem clean_wrapped_iff (value : Json ν) : Clean (wrapped value) ↔ Clean value := by
  cases value with
  | array items =>
    have free : Free "values".toList := by unfold Free; decide
    have other : "values".toList ≠ html := by decide
    refine ⟨fun clean => ?_, fun clean => .object ?_ ?_⟩
    · cases clean with
      | object keys values => exact values _ (mem_singleton_self _) other
    · intro entry member
      rw [mem_singleton.mp member]
      exact free
    · intro entry member _
      rw [mem_singleton.mp member]
      exact clean
  | _ => rfl

theorem clean_convert_iff (options : key ≠ fieldOptions) (other : key ≠ html) (done : convert N key value = some made) :
    Clean made ↔ ∀ items, value = .array items → Plain value := by
  have text : ∀ {value made : Json ν}, (toText N value).map .string = some made → (Clean made ↔ Plain value) := by
    intro value made done
    obtain ⟨text, known, rfl⟩ := map_eq_some_iff.mp done
    refine Iff.trans ⟨fun clean => ?_, .string⟩ (free_toText_iff known)
    cases clean with
    | string free => exact free
  cases value with
  | boolean value =>
    cases done
    exact iff_of_true (.boolean value) nofun
  | number value =>
    cases done
    exact iff_of_true (.number value) nofun
  | infinity negative =>
    cases done
    exact iff_of_true (.infinity negative) nofun
  | string value =>
    rw [convert, if_neg other] at done
    cases done
    exact iff_of_true (.string (free_escape value)) nofun
  | null =>
    simp only [convert, if_neg options] at done
    exact (text done).trans (iff_of_true .null nofun)
  | array items =>
    simp only [convert, if_neg options] at done
    exact (text done).trans ⟨fun plain _ _ => plain, fun plain => plain items rfl⟩
  | object members =>
    simp only [convert, if_neg options] at done
    exact (text done).trans (iff_of_true (.object members) nofun)

theorem convert_options (done : convert N fieldOptions value = some made)
    (checked : checkFieldOptions N index (wrapped made) = .ok ()) : made = value := by
  cases value with
  | boolean value => exact (some.inj done).symm
  | number value => exact (some.inj done).symm
  | infinity negative => exact (some.inj done).symm
  | string value =>
    have other : fieldOptions ≠ html := by decide
    rw [convert, if_neg other] at done
    cases done
    cases checked
  | _ =>
    simp only [convert, if_pos] at done
    exact (some.inj done).symm

theorem isAllowedType_iff : isAllowedType value = true ↔ ∃ type ∈ allowedFieldTypes, value = .string type := by
  cases value with
  | string text => simp [isAllowedType]
  | _ => exact iff_of_false nofun fun ⟨_, _, same⟩ => nomatch same

theorem formField_cases (done : formField N index entry = .ok result) : entry.1 ∈ allowedFormFieldsKeys ∧
    ∃ value, convert N entry.1 entry.2 = some value ∧ (entry.1 = fieldType → isAllowedType value = true) ∧
      (entry.1 = fieldOptions ∧ checkFieldOptions N index (wrapped value) = .ok () ∧ result = (entry.1, wrapped value) ∨
        entry.1 ≠ fieldOptions ∧ result = (entry.1, value)) := by
  rw [formField, ite_not] at done
  split at done
  · rename_i allowed
    refine ⟨allowed, ?_⟩
    cases converted : convert N entry.1 entry.2 with
    | none =>
      rw [converted] at done
      cases done
    | some value =>
      simp only [converted] at done
      obtain ⟨right, done⟩ := ite_error_eq_ok.mp done
      refine ⟨value, rfl, fun type => Bool.eq_true_of_not_eq_false fun no => right ⟨type, no⟩, ?_⟩
      split at done
      · rename_i options
        obtain ⟨_, checked, same⟩ := map_eq_ok.mp done
        exact .inl ⟨options, checked, same.symm⟩
      · rename_i other
        exact .inr ⟨other, (Except.ok.inj done).symm⟩
  · cases done

structure Accepted (entry result : List Char × Json ν) : Prop where
  key : result.1 = entry.1
  allowed : entry.1 ∈ allowedFormFieldsKeys
  type : entry.1 = fieldType → ∃ type ∈ allowedFieldTypes, result.2 = .string type
  clean : (entry.1 ≠ html → Clean result.2) ↔ CleanEntry entry

theorem formField_accepted (done : formField N index entry = .ok result) : Accepted entry result := by
  obtain ⟨allowed, value, converted, type, ⟨options, checked, rfl⟩ | ⟨other, rfl⟩⟩ := formField_cases done
  · have same := convert_options (options ▸ converted) checked
    have notType : entry.1 ≠ fieldType := options ▸ by decide
    have notHtml : entry.1 ≠ html := options ▸ by decide
    refine ⟨rfl, allowed, fun yes => (notType yes).elim, ?_⟩
    rw [same, clean_wrapped_iff]
    exact ⟨fun clean => ⟨fun _ => clean notHtml, fun no => (no options).elim⟩, fun clean _ => clean.options options⟩
  · refine ⟨rfl, allowed, fun yes => isAllowedType_iff.mp (type yes), ⟨fun clean => ?_, fun clean notHtml => ?_⟩⟩
    · refine ⟨fun yes => (other yes).elim, fun _ notHtml => ?_⟩
      exact (clean_convert_iff other notHtml converted).mp (clean notHtml)
    · exact (clean_convert_iff other notHtml converted).mpr (clean.array other notHtml)

/-! ## All fields -/

theorem free_of_allowed : ∀ key ∈ allowedFormFieldsKeys, Free key := by
  unfold Free
  decide

structure AcceptedField (field result : Json ν) : Prop where
  keys : AllowedKeys result
  types : ∀ entry, HasEntry result entry → entry.1 = fieldType → ∃ type ∈ allowedFieldTypes, entry.2 = .string type
  clean : Clean result ↔ ∀ entry, HasEntry field entry → CleanEntry entry
  hasType : HasType result ↔ HasType field

theorem hasEntry_object {members : List (List Char × Json ν)} : HasEntry (.object members) entry ↔ entry ∈ members :=
  ⟨fun ⟨_, same, member⟩ => Json.object.inj same ▸ member, fun member => ⟨members, rfl, member⟩⟩

theorem accepted_object {members results : List (List Char × Json ν)} (each : Forall₂ Accepted members results) :
    AcceptedField (.object members) (.object results) := by
  have from_ : ∀ result ∈ results, ∃ entry ∈ members, Accepted entry result := fun _ member =>
    exists_of_forall₂ (Forall₂.flip each) member
  have into : ∀ entry ∈ members, ∃ result ∈ results, Accepted entry result := fun _ member =>
    exists_of_forall₂ each member
  refine ⟨.object fun result member => ?_, fun result member same => ?_,
    ⟨fun clean entry member => ?_, fun clean => ?_⟩, ⟨fun ⟨result, member, same⟩ => ?_, fun ⟨entry, member, same⟩ => ?_⟩⟩
  · obtain ⟨entry, -, accepted⟩ := from_ result member
    exact accepted.key ▸ accepted.allowed
  · obtain ⟨entry, -, accepted⟩ := from_ result (hasEntry_object.mp member)
    exact accepted.type (accepted.key.symm.trans same)
  · obtain ⟨result, listed, accepted⟩ := into entry (hasEntry_object.mp member)
    cases clean with
    | object keys values => exact accepted.clean.mp fun other => values result listed (accepted.key ▸ other)
  · refine .object (fun result member => ?_) fun result member other => ?_
    · obtain ⟨entry, -, accepted⟩ := from_ result member
      exact free_of_allowed _ (accepted.key ▸ accepted.allowed)
    · obtain ⟨entry, listed, accepted⟩ := from_ result member
      exact accepted.clean.mpr (clean entry (hasEntry_object.mpr listed)) (accepted.key ▸ other)
  · obtain ⟨entry, listed, accepted⟩ := from_ result (hasEntry_object.mp member)
    exact ⟨entry, hasEntry_object.mpr listed, accepted.key ▸ same⟩
  · obtain ⟨result, listed, accepted⟩ := into entry (hasEntry_object.mp member)
    exact ⟨result, hasEntry_object.mpr listed, accepted.key.trans same⟩

theorem formFields_accepted {field result : Json ν} (done : formFields N index field = .ok result) :
    AcceptedField field result := by
  -- values without keys are taken as they are
  have keyless : ∀ {value : Json ν}, (∀ members, value ≠ .object members) → AllowedKeys value → Clean value →
      AcceptedField value value := fun none keys clean =>
    ⟨keys, fun entry ⟨members, same, _⟩ => (none members same).elim,
      iff_of_true clean fun entry ⟨members, same, _⟩ => (none members same).elim, .rfl⟩
  cases field with
  | null => cases done
  | boolean value =>
    cases done
    exact keyless nofun (.boolean value) (.boolean value)
  | number value =>
    cases done
    exact keyless nofun (.number value) (.number value)
  | infinity negative =>
    cases done
    exact keyless nofun (.infinity negative) (.infinity negative)
  | string value =>
    rw [formFields] at done
    split_ifs at done with empty
    cases done
    subst empty
    exact keyless nofun .string (.string ⟨not_mem_nil, not_mem_nil⟩)
  | array items =>
    rw [formFields] at done
    split_ifs at done with empty
    cases done
    obtain rfl := List.isEmpty_iff.mp empty
    exact keyless nofun .array (.array nofun)
  | object members =>
    obtain ⟨results, all, rfl⟩ := map_eq_ok.mp done
    exact accepted_object ((mapM_eq_ok.mp all).imp fun _ _ done => formField_accepted done)

theorem tryToParseJsonToFormFields_accepted {fields : List (Json ν)}
    (done : tryToParseJsonToFormFields N text = .ok fields) :
    ∃ rawFields, parseJson N text = some (.array rawFields) ∧ Forall₂ AcceptedField rawFields fields := by
  rw [tryToParseJsonToFormFields] at done
  split at done
  · rename_i rawFields parsed
    refine ⟨rawFields, parsed, ?_⟩
    have each : Forall₂ (fun field result => AcceptedField field.1 result) rawFields.zipIdx fields :=
      (mapM_eq_ok.mp done).imp fun _ _ done => formFields_accepted done
    have all := forall₂_map_left_iff.mpr each
    rwa [zipIdx_map_fst] at all
  · cases done

/-- Accepted fields are sanitised exactly when no string that is taken as it is has an angle bracket; and all
of them have a type exactly when all of the input have one. -/
theorem sanitised_iff (N : Numerals ν) {text : List Char} {fields : List (Json ν)}
    (accepted : tryToParseJsonToFormFields N text = .ok fields) :
    ∃ rawFields, parseJson N text = some (.array rawFields) ∧ (Sanitised fields ↔ CleanInput rawFields) ∧
      ((Sanitised fields ∧ ∀ field ∈ fields, HasType field) ↔
        CleanInput rawFields ∧ ∀ field ∈ rawFields, HasType field) := by
  obtain ⟨rawFields, parsed, each⟩ := tryToParseJsonToFormFields_accepted accepted
  have from_ : ∀ result ∈ fields, ∃ field ∈ rawFields, AcceptedField field result := fun _ member =>
    exists_of_forall₂ (Forall₂.flip each) member
  have into : ∀ field ∈ rawFields, ∃ result ∈ fields, AcceptedField field result := fun _ member =>
    exists_of_forall₂ each member
  have clean : Sanitised fields ↔ CleanInput rawFields := by
    refine ⟨fun sanitised field member => ?_, fun clean => ⟨fun result member => ?_, fun result member => ?_,
      fun result member => ?_⟩⟩
    · obtain ⟨result, listed, taken⟩ := into field member
      exact taken.clean.mp (sanitised.clean result listed)
    · obtain ⟨field, listed, taken⟩ := from_ result member
      exact taken.clean.mpr (clean field listed)
    · obtain ⟨field, listed, taken⟩ := from_ result member
      exact taken.keys
    · obtain ⟨field, listed, taken⟩ := from_ result member
      exact taken.types
  refine ⟨rawFields, parsed, clean, and_congr clean ⟨fun typed field member => ?_, fun typed result member => ?_⟩⟩
  · obtain ⟨result, listed, taken⟩ := into field member
    exact taken.hasType.mp (typed result listed)
  · obtain ⟨field, listed, taken⟩ := from_ result member
    exact taken.hasType.mpr (typed field listed)

theorem tryToParseJsonToFormFields_text (proper : ∀ item ∈ items, Proper item) :
    tryToParseJsonToFormFields N ((Json.array items).text N) =
      items.zipIdx.mapM fun field => formFields N field.2 field.1 := by
  rw [tryToParseJsonToFormFields, parseJson_text (.array proper)]

theorem proper_single (proper : Proper value) : Proper (.object [(key, value)]) := by
  refine .object (nodup_singleton key) fun member listed => ?_
  rw [mem_singleton.mp listed]
  exact proper

def labelled (label : List Char) : Json {x // IsSafeInteger x} := .object [("fieldLabel".toList, .string label)]

/-- A label is escaped. -/
theorem escaped_label :
    ∃ rawFields, parseJson safeIntegers ((Json.array [labelled ['<']]).text safeIntegers) = some (.array rawFields) ∧
      (Sanitised [labelled "&lt;".toList] ↔ CleanInput rawFields) ∧
      ((Sanitised [labelled "&lt;".toList] ∧ ∀ field ∈ [labelled "&lt;".toList], HasType field) ↔
        CleanInput rawFields ∧ ∀ field ∈ rawFields, HasType field) := by
  refine sanitised_iff safeIntegers ?_
  rw [tryToParseJsonToFormFields_text]
  · rfl
  · intro item member
    rw [mem_singleton.mp member]
    exact proper_single (.string _)

def options (option : List Char) : Json {x // IsSafeInteger x} := .array [.object [("option".toList, .string option)]]

/-- An option is accepted with its angle bracket. -/
theorem bracket_in_option : ∃ fields, tryToParseJsonToFormFields safeIntegers
    ((Json.array [.object [(fieldOptions, options ['<'])]]).text safeIntegers) = .ok fields ∧ ¬Sanitised fields := by
  refine ⟨[.object [(fieldOptions, wrapped (options ['<']))]], ?_, fun sanitised => ?_⟩
  · rw [tryToParseJsonToFormFields_text]
    · rfl
    · intro item member
      rw [mem_singleton.mp member]
      refine proper_single (.array fun option listed => ?_)
      rw [mem_singleton.mp listed]
      exact proper_single (.string _)
  · have single : ∀ {key : List Char} {value : Json {x // IsSafeInteger x}}, key ≠ html →
      Clean (.object [(key, value)]) → Clean value :=
      fun other clean => by cases clean with | object keys values => exact values _ (mem_singleton_self _) other
    have kept := single (by decide) (sanitised.clean _ (mem_singleton_self _))
    have option : Clean (.object [("option".toList, (.string ['<'] : Json {x // IsSafeInteger x}))]) := by
      cases (clean_wrapped_iff _).mp kept with
      | array each => exact each _ (mem_singleton_self _)
    cases single (by decide) option with
    | string free => exact free.1 (mem_singleton_self _)

end N8n.FormFields
