import N8n.NodeReferences

/-! What the access patterns match, and what the replacement templates expand to. A match
begins with a `$`. -/

namespace N8n.NodeReferences

open ReplaceAll List Option

/-! ## Templates -/

variable {groups : List (List Char)} {c : Char} {s : List Char}

theorem readGroup_other (other : c ≠ '$') : readGroup groups (c :: s) = none := by
  unfold readGroup
  split <;> simp_all

theorem expand_plain (other : c ≠ '$') :
    expand groups (c :: s) = c :: expand groups s := replaceAll_plain (readGroup_other other)

theorem prepareNewNodeName_cons (c : Char) (name : List Char) :
    prepareNewNodeName (c :: name) = quoteEscape (dollarEscape [c]) ++ prepareNewNodeName name := by
  simp only [prepareNewNodeName, dollarEscape, quoteEscape, flatMap_cons, flatMap_nil,
    append_nil, flatMap_append]

theorem quoteEscape_cons (c : Char) (name : List Char) :
    quoteEscape (c :: name) = quoteEscape [c] ++ quoteEscape name := by
  simp only [quoteEscape, flatMap_cons, flatMap_nil, append_nil]

theorem expand_name (groups : List (List Char)) (name rest : List Char) :
    expand groups (prepareNewNodeName name ++ rest) = quoteEscape name ++ expand groups rest := by
  induction name with
  | nil => rfl
  | cons c name ih =>
    rw [prepareNewNodeName_cons, quoteEscape_cons, append_assoc, append_assoc, ← ih]
    generalize prepareNewNodeName name ++ rest = s
    by_cases dollar : c = '$'
    · subst dollar
      have reads : readGroup groups (['$', '$'] ++ s) = some (['$'], 2) := rfl
      exact replaceAll_taken reads rfl (by simp)
    · by_cases special : c = '\\' ∨ c = '"' ∨ c = '\''
      · simp [dollarEscape, quoteEscape, dollar, special, expand_plain]
      · simp [dollarEscape, quoteEscape, dollar, special, expand_plain]

variable {text : List Char} {alternatives : List (List Char)} {r : Reference}

theorem expand_last {d : Char} (group : groupOf groups [d] = some text) : expand groups ['$', d] = text := by
  have digit : d ≠ '$' := by
    rintro rfl
    cases group
  have reads : readGroup groups (['$', d] ++ []) = some (text, 2) := by
    rw [append_nil]
    unfold readGroup
    split <;> simp_all
  exact (replaceAll_taken reads rfl (by simp)).trans (by simp)

theorem expand_first (first second s : List Char) :
    expand [first, second] ('$' :: '1' :: s) = first ++ expand [first, second] s := by
  have one : groupOf [first, second] ['1'] = some first := rfl
  have reads : readGroup [first, second] (['$', '1'] ++ s) = some (first, 2) := by
    cases s with
    | nil => simp [readGroup, one]
    | cons e s =>
      have two : groupOf [first, second] ['1', e] = none := by
        simp only [groupOf, foldl_cons, foldl_nil]
        split
        · have value : 10 * (10 * 0 + ('1'.toNat - '0'.toNat)) + (e.toNat - '0'.toNat) =
              (e.toNat - '0'.toNat) + 9 + 1 := by
            have : '1'.toNat - '0'.toNat = 1 := rfl
            omega
          rw [value]
          simp
        · rfl
      simp [readGroup, one, two]
  exact replaceAll_taken reads rfl (by simp)

theorem expand_reference (opening closing name : List Char) :
    expand [opening, closing] (['$', '1'] ++ prepareNewNodeName name ++ ['$', '2']) =
      opening ++ quoteEscape name ++ closing := by
  have second : groupOf [opening, closing] ['2'] = some closing := rfl
  rw [append_assoc, cons_append, cons_append, nil_append, expand_first, expand_name,
    expand_last second, append_assoc]

theorem expand_member (t : Char) (name : List Char) :
    expand [[t]] (['[', '"'] ++ prepareNewNodeName name ++ ['"', ']', '$', '1']) =
      ['[', '"'] ++ quoteEscape name ++ ['"', ']', t] := by
  have first : groupOf [[t]] ['1'] = some [t] := rfl
  rw [append_assoc, cons_append, cons_append, nil_append, expand_plain (by decide),
    expand_plain (by decide), expand_name, expand_plain (by decide), expand_plain (by decide),
    expand_last first]
  rfl

/-! ## Readers -/

theorem readFirst_some (reads : readFirst alternatives s = some text) :
    text ∈ alternatives ∧ ∃ rest, s = text ++ rest := by
  refine ⟨mem_of_find?_eq_some reads, ?_⟩
  have front : text.isPrefixOf s = true := by
    exact find?_some (p := fun text => List.isPrefixOf text s) reads
  obtain ⟨rest, same⟩ := isPrefixOf_iff_prefix.mp front
  exact ⟨rest, same.symm⟩

variable {name : List Char}

theorem readName_some {written : List Char} (reads : readName name s = some written) :
    Spelled name written ∧ ∃ rest, s = written ++ rest := by
  induction name generalizing s written with
  | nil =>
    cases reads
    exact ⟨.nil, s, rfl⟩
  | cons c name ih =>
    simp only [readName, bind_eq_bind, Option.pure_def, bind_eq_some_iff, some.injEq] at reads
    obtain ⟨piece, first, more, later, rfl⟩ := reads
    obtain ⟨member, rest, rfl⟩ := readFirst_some first
    rw [drop_left] at later
    obtain ⟨spelled, rest, rfl⟩ := ih later
    exact ⟨.cons member spelled, rest, by rw [append_assoc]⟩

variable {access : AccessPattern}

theorem readReference_some (reads : readReference name access s = some r) :
    r.opening ∈ access.openings ∧ Spelled name r.written ∧
      ∃ rest, s = r.text ++ rest ∧ readFirst access.closings (r.closing ++ rest) = some r.closing := by
  simp only [readReference, bind_eq_bind, Option.pure_def, bind_eq_some_iff, some.injEq] at reads
  obtain ⟨opening, first, written, second, closing, third, rfl⟩ := reads
  obtain ⟨member, rest, rfl⟩ := readFirst_some first
  rw [drop_left] at second
  obtain ⟨spelled, rest, rfl⟩ := readName_some second
  rw [← append_assoc, drop_left] at third
  obtain ⟨_, rest, rfl⟩ := readFirst_some third
  exact ⟨member, spelled, rest, by simp [Reference.text], third⟩

theorem readReference_append {rest : List Char} (reads : readReference name access (r.text ++ rest) = some r) :
    r.opening ∈ access.openings ∧ Spelled name r.written ∧
      readFirst access.closings (r.closing ++ rest) = some r.closing := by
  obtain ⟨member, spelled, rest', same, closing⟩ := readReference_some reads
  obtain rfl := append_cancel_left same
  exact ⟨member, spelled, closing⟩

theorem AccessPattern.openings_marked (access : AccessPattern) :
    ∀ opening ∈ access.openings, ∃ tail, opening = '$' :: tail := by
  cases access <;> simp [openings, checkPattern]

theorem readReference_other (other : c ≠ '$') : readReference name access (c :: s) = none := by
  rw [eq_none_iff_forall_not_mem]
  intro r reads
  obtain ⟨member, _, rest, same, _⟩ := readReference_some reads
  obtain ⟨tail, opening⟩ := access.openings_marked _ member
  rw [Reference.text, opening] at same
  exact other (List.cons.inj same).1

end N8n.NodeReferences
