import Mathlib.Data.List.Chain

/-! Lines of a text as Python's `str.splitlines` cuts them, and `textwrap.indent`. -/

namespace N8n.Python

open List

/-- `str.isspace` of one character. -/
def isSpace (char : Char) : Bool :=
  let code := char.toNat
  (0x09 ≤ code && code ≤ 0x0d) || (0x1c ≤ code && code ≤ 0x20) || code == 0x85 || code == 0xa0 || code == 0x1680 ||
    (0x2000 ≤ code && code ≤ 0x200a) || code == 0x2028 || code == 0x2029 || code == 0x202f || code == 0x205f ||
    code == 0x3000

/-- The characters at which `str.splitlines` ends a line. -/
def breaksLine (char : Char) : Bool :=
  let code := char.toNat
  (0x0a ≤ code && code ≤ 0x0d) || (0x1c ≤ code && code ≤ 0x1e) || code == 0x85 || code == 0x2028 || code == 0x2029

theorem isSpace_of_breaksLine {char : Char} (breaks : breaksLine char = true) : isSpace char = true := by
  simp only [breaksLine, isSpace, Bool.or_eq_true, Bool.and_eq_true, decide_eq_true_eq, beq_iff_eq] at breaks ⊢
  omega

/-- `text.splitlines(True)`. -/
def splitLines : List Char → List (List Char)
  | [] => []
  | '\r' :: '\n' :: rest => ['\r', '\n'] :: splitLines rest
  | char :: rest =>
    if breaksLine char then [char] :: splitLines rest
    else
      match splitLines rest with
      | [] => [[char]]
      | line :: lines => (char :: line) :: lines

example : splitLines ['a', '\r', '\n', 'b'] = [['a', '\r', '\n'], ['b']] := by simp [splitLines, breaksLine]

def isBlank (line : List Char) : Bool := line.all isSpace

def indentLine (margin line : List Char) : List Char := if isBlank line then line else margin ++ line

/-- `textwrap.indent(text, margin)`. -/
def indent (text margin : List Char) : List Char := (splitLines text).flatMap (indentLine margin)

/-- Line ends as the tokenizer sees them. -/
def translateNewlines : List Char → List Char
  | [] => []
  | '\r' :: '\n' :: rest => '\n' :: translateNewlines rest
  | '\r' :: rest => '\n' :: translateNewlines rest
  | char :: rest => char :: translateNewlines rest

example : translateNewlines ['\r', '\n', '\r', 'a'] = ['\n', '\n', 'a'] := by simp [translateNewlines]

/-- The tokenizer's text ends in a line feed. One is added also behind a carriage return with its line feed. -/
def terminated (text : List Char) : List Char :=
  let translated := translateNewlines text
  if translated.getLast? = some '\n' ∧ ¬['\r', '\n'] <:+ text then translated else translated ++ ['\n']

/-- A line with its end, which the tokenizer sees as one character. -/
inductive IsLine : List Char → Prop
  | ended (body : List Char) (char : Char) (unbroken : ∀ inside ∈ body, breaksLine inside = false)
      (breaks : breaksLine char = true) : IsLine (body ++ [char])
  | carriage (body : List Char) (unbroken : ∀ inside ∈ body, breaksLine inside = false) : IsLine (body ++ ['\r', '\n'])

section Splitting
variable {char : Char} {rest : List Char}

theorem splitLines_break (breaks : breaksLine char = true) (single : char = '\r' → ∀ more, rest ≠ '\n' :: more) :
    splitLines (char :: rest) = [char] :: splitLines rest := by
  rw [splitLines, if_pos breaks]
  rintro more rfl rfl
  exact single rfl more rfl

theorem splitLines_unbroken (unbroken : breaksLine char = false) :
    splitLines (char :: rest) = match splitLines rest with
      | [] => [[char]]
      | line :: lines => (char :: line) :: lines := by
  rw [splitLines, if_neg (by rw [unbroken]; decide)]
  rintro more rfl rfl
  exact absurd unbroken (by decide)

theorem splitLines_eq_nil {text : List Char} : splitLines text = [] ↔ text = [] := by
  refine ⟨fun none => ?_, fun empty => empty ▸ rfl⟩
  match text with
  | [] => rfl
  | char :: rest =>
    unfold splitLines at none
    split at none
    · assumption
    · cases none
    · split at none
      · cases none
      · split at none <;> cases none

theorem splitLines_ne_nil_cons (text : List Char) (lines : List (List Char)) : splitLines text ≠ [] :: lines := by
  intro same
  unfold splitLines at same
  split at same
  · cases same
  · cases same
  · split at same
    · cases same
    · split at same <;> cases same

theorem flatten_splitLines (text : List Char) : (splitLines text).flatten = text := by
  fun_induction splitLines text with
  | case1 => rfl
  | case2 rest ih => rw [flatten_cons, ih]; rfl
  | case3 char rest _ _ ih => rw [flatten_cons, ih]; rfl
  | case4 char rest _ _ none => rw [splitLines_eq_nil.mp none]; rfl
  | case5 char rest _ _ line lines found ih =>
    rw [found] at ih
    rw [flatten_cons, cons_append, ← flatten_cons, ih]

theorem isLine_of_mem (text : List Char) : ∀ line ∈ splitLines (text ++ ['\n']), IsLine line := by
  generalize same : text ++ ['\n'] = whole
  fun_induction splitLines whole generalizing text with
  | case1 => intro line member; cases member
  | case2 rest ih =>
    rintro line (_ | ⟨_, later⟩)
    · exact .carriage [] (by simp)
    · rcases text with _ | ⟨first, _ | ⟨second, text⟩⟩
      · cases same
      · cases same
        cases later
      · exact ih text (List.cons.inj (List.cons.inj same).2).2 line later
  | case3 char rest _ breaks ih =>
    rintro line (_ | ⟨_, later⟩)
    · exact .ended [] char (by simp) breaks
    · cases text with
      | nil => cases same; cases later
      | cons first text => exact ih text (List.cons.inj same).2 line later
  | case4 char rest _ unbroken none =>
    cases text with
    | nil => cases same; exact absurd rfl unbroken
    | cons first text =>
      have empty := splitLines_eq_nil.mp none
      rw [← (List.cons.inj same).2] at empty
      simp at empty
  | case5 char rest _ unbroken line lines found ih =>
    cases text with
    | nil => cases same; exact absurd rfl unbroken
    | cons first text =>
      have each := ih text (List.cons.inj same).2
      rw [found] at each
      rintro _ (_ | ⟨_, later⟩)
      · have whole : ∀ (body : List Char), (∀ inside ∈ body, breaksLine inside = false) →
            ∀ inside ∈ char :: body, breaksLine inside = false := by
          intro body free inside member
          rcases mem_cons.mp member with rfl | member
          · exact eq_false_of_ne_true unbroken
          · exact free inside member
        cases each line mem_cons_self with
        | ended body last free breaks => exact .ended (char :: body) last (whole body free) breaks
        | carriage body free => exact .carriage (char :: body) (whole body free)
      · exact each _ (mem_cons_of_mem _ later)

end Splitting

section Ending

def endsLine (line : List Char) : Bool := line.getLast?.any fun char => breaksLine char && char != '\r'

/-- The lines of a text when a line feed is put after it. -/
def endLine : List (List Char) → List (List Char)
  | [] => [['\n']]
  | [line] => if endsLine line then [line, ['\n']] else [line ++ ['\n']]
  | line :: next :: rest => line :: endLine (next :: rest)
variable {line : List Char}

theorem endLine_cons (ends : endsLine line = true) (lines : List (List Char)) :
    endLine (line :: lines) = line :: endLine lines := by
  cases lines with
  | nil => simp only [endLine, ends, if_true]
  | cons => rfl

theorem endsLine_cons (char : Char) (nonempty : line ≠ []) : endsLine (char :: line) = endsLine line := by
  rw [endsLine, endsLine, getLast?_cons, getLast?_eq_some_getLast nonempty]
  rfl

theorem splitLines_newline (text : List Char) : splitLines (text ++ ['\n']) = endLine (splitLines text) := by
  fun_induction splitLines text with
  | case1 => rfl
  | case2 rest ih => rw [endLine_cons (by decide), ← ih]; rfl
  | case3 char rest single breaks ih =>
    by_cases carriage : char = '\r'
    · subst carriage
      cases rest with
      | nil => rfl
      | cons next rest =>
        rw [cons_append, splitLines_break breaks, ih]
        · cases found : splitLines (next :: rest) with
          | nil => exact absurd (splitLines_eq_nil.mp found) (cons_ne_nil _ _)
          | cons line lines => rfl
        · rintro - more same
          obtain ⟨rfl, -⟩ := List.cons.inj same
          exact single rest rfl rfl
    · have ends : endsLine [char] = true := by simp [endsLine, breaks, carriage]
      rw [cons_append, splitLines_break breaks (fun same => absurd same carriage), ih, endLine_cons ends]
  | case4 char rest _ unbroken none =>
    rw [splitLines_eq_nil.mp none, cons_append, splitLines_unbroken (eq_false_of_ne_true unbroken)]
    have unended : endsLine [char] = false := by simp [endsLine, eq_false_of_ne_true unbroken]
    rw [endLine, unended]
    rfl
  | case5 char rest _ unbroken line lines found ih =>
    rw [cons_append, splitLines_unbroken (eq_false_of_ne_true unbroken), ih, found]
    cases lines with
    | cons => rfl
    | nil =>
      have nonempty : line ≠ [] := by
        rintro rfl
        have whole := flatten_splitLines rest
        rw [found] at whole
        subst whole
        cases found
      simp only [endLine, endsLine_cons char nonempty]
      by_cases ends : endsLine line = true
      · simp only [ends, if_true]
      · simp only [ends, Bool.false_eq_true, if_false, cons_append]

theorem isBlank_newline (line : List Char) : isBlank (line ++ ['\n']) = isBlank line := by
  rw [isBlank, all_append]
  exact Bool.and_true _

theorem indentLine_newline (margin line : List Char) :
    indentLine margin (line ++ ['\n']) = indentLine margin line ++ ['\n'] := by
  rw [indentLine, isBlank_newline, indentLine]
  split <;> simp

theorem indent_newline (text margin : List Char) : indent (text ++ ['\n']) margin = indent text margin ++ ['\n'] := by
  rw [indent, splitLines_newline, indent]
  generalize splitLines text = lines
  fun_induction endLine lines with
  | case1 => rfl
  | case2 line ends => simp [indentLine, isBlank, isSpace]
  | case3 line unended => simp [indentLine_newline]
  | case4 line next rest ih => rw [flatMap_cons, ih, ← append_assoc, ← flatMap_cons]

end Ending

section Translating
variable {char : Char} {rest text : List Char} {margin line : List Char}

theorem translateNewlines_cons (plain : char ≠ '\r') (rest : List Char) :
    translateNewlines (char :: rest) = char :: translateNewlines rest := by
  rw [translateNewlines]
  · rintro more rfl -
    exact plain rfl
  · rintro rfl
    exact plain rfl

theorem translateNewlines_carriage (single : ∀ more, rest ≠ '\n' :: more) :
    translateNewlines ('\r' :: rest) = '\n' :: translateNewlines rest := by
  rw [translateNewlines]
  exact single

/-- A text is translated piece by piece, unless a carriage return and its line feed come apart. -/
theorem translateNewlines_append (whole : text.getLast? = some '\r' → ∀ more, rest ≠ '\n' :: more) :
    translateNewlines (text ++ rest) = translateNewlines text ++ translateNewlines rest := by
  have later : ∀ {char : Char} {text : List Char}, ((char :: text).getLast? = some '\r' → ∀ more, rest ≠ '\n' :: more) →
        text.getLast? = some '\r' → ∀ more, rest ≠ '\n' :: more := by
    intro char text whole last
    exact whole (by rw [getLast?_cons, last]; rfl)
  fun_induction translateNewlines text with
  | case1 => rfl
  | case2 text ih => simp only [cons_append, translateNewlines, ih (later (later whole))]
  | case3 text single ih =>
    rw [cons_append, translateNewlines_carriage, ih (later whole), cons_append]
    intro more same
    cases text with
    | nil => exact whole rfl more same
    | cons next text =>
      obtain ⟨rfl, -⟩ := List.cons.inj same
      exact single text rfl
  | case4 char text _ plain ih =>
    rw [cons_append, translateNewlines_cons plain, ih (later whole), cons_append]

theorem translateNewlines_plain (plain : '\r' ∉ text) (rest : List Char) :
    translateNewlines (text ++ rest) = text ++ translateNewlines rest := by
  induction text with
  | nil => rfl
  | cons char text ih =>
    rw [cons_append, translateNewlines_cons (fun same => plain (same ▸ mem_cons_self)),
      ih (fun member => plain (mem_cons_of_mem _ member)), cons_append]

/-- What `splitLines` cuts apart does not belong together. -/
def Apart (line next : List Char) : Prop :=
  line.getLast? = some '\r' → ∃ char more, next = char :: more ∧ char ≠ '\n'

theorem isChain_splitLines (text : List Char) : (splitLines text).IsChain Apart := by
  fun_induction splitLines text with
  | case1 => exact .nil
  | case2 rest ih => exact ih.cons fun next _ last => by simp at last
  | case3 char rest single breaks ih =>
    refine ih.cons fun next head last => ?_
    obtain rfl : char = '\r' := by simpa using last
    match found : splitLines rest, head with
    | next :: lines, rfl =>
      have whole := flatten_splitLines rest
      rw [found] at whole
      match next with
      | [] => exact absurd found (splitLines_ne_nil_cons rest lines)
      | first :: more =>
        refine ⟨first, more, rfl, fun same => single (more ++ lines.flatten) rfl ?_⟩
        rw [← whole, same]
        rfl
  | case4 char rest _ unbroken none => exact .singleton _
  | case5 char rest _ unbroken line lines found ih =>
    rw [found, isChain_cons] at ih
    refine ih.2.cons fun next head last => ih.1 next head ?_
    cases line with
    | nil =>
      obtain rfl : char = '\r' := by simpa using last
      exact absurd rfl unbroken
    | cons first line => rwa [getLast?_cons_cons] at last

theorem translateNewlines_indent (text : List Char) (blank : '\n' ∉ margin) :
    translateNewlines (indent text margin) =
      (splitLines text).flatMap fun line => translateNewlines (indentLine margin line) := by
  rw [indent]
  have chain := isChain_splitLines text
  generalize splitLines text = lines at chain
  induction lines with
  | nil => rfl
  | cons line lines ih =>
    obtain ⟨apart, rest⟩ := isChain_cons.mp chain
    rw [flatMap_cons, flatMap_cons, translateNewlines_append, ih rest]
    intro last more same
    have ends : line.getLast? = some '\r' := by
      rw [indentLine] at last
      split at last
      · exact last
      · rename_i filled
        rwa [getLast?_append_of_ne_nil] at last
        rintro rfl
        exact filled rfl
    cases lines with
    | nil => cases same
    | cons next lines =>
      obtain ⟨char, after, rfl, other⟩ := apart next rfl ends
      rw [flatMap_cons, indentLine] at same
      split at same
      · exact other (List.cons.inj same).1
      · cases margin with
        | nil => exact other (List.cons.inj same).1
        | cons first margin => exact blank ((List.cons.inj same).1 ▸ mem_cons_self)

theorem isBlank_append (ended : isBlank rest = true) : isBlank (line ++ rest) = isBlank line := by
  rw [isBlank, all_append, ← isBlank, ← isBlank, ended, Bool.and_true]

theorem IsLine.translated (whole : IsLine line) (margin : List Char) (plain : '\r' ∉ margin) :
    ∃ inner char, (∀ inside ∈ inner, breaksLine inside = false) ∧ breaksLine char = true ∧
      translateNewlines line = inner ++ [char] ∧
      translateNewlines (indentLine margin line) = (if isBlank inner then [] else margin) ++ (inner ++ [char]) := by
  have ends : ∀ {inner rest : List Char} {char : Char}, (∀ inside ∈ inner, breaksLine inside = false) →
      isBlank rest = true → translateNewlines rest = [char] → translateNewlines (inner ++ rest) = inner ++ [char] ∧
        translateNewlines (indentLine margin (inner ++ rest)) =
          (if isBlank inner then [] else margin) ++ (inner ++ [char]) := by
    intro inner rest char unbroken ended same
    have carriage : '\r' ∉ inner := fun member => absurd (unbroken _ member) (by decide)
    refine ⟨by rw [translateNewlines_plain carriage, same], ?_⟩
    rw [indentLine, isBlank_append ended]
    split
    · rw [translateNewlines_plain carriage, same, nil_append]
    · rw [translateNewlines_plain plain, translateNewlines_plain carriage, same]
  cases whole with
  | ended inner char unbroken breaks =>
    have blank : isBlank [char] = true := by
      rw [isBlank, all_cons, isSpace_of_breaksLine breaks]
      rfl
    by_cases carriage : char = '\r'
    · subst carriage
      exact ⟨inner, '\n', unbroken, by decide, ends unbroken blank rfl⟩
    · exact ⟨inner, char, unbroken, breaks, ends unbroken blank (by rw [translateNewlines_cons carriage]; rfl)⟩
  | carriage inner unbroken => exact ⟨inner, '\n', unbroken, by decide, ends unbroken (by decide) rfl⟩

theorem indent_nil (text : List Char) : indent text [] = text := by
  have same : ∀ line, indentLine [] line = line := by
    intro line
    rw [indentLine, nil_append, ite_self]
  rw [indent, flatMap_congr (g := id) fun line _ => same line, flatMap_id, flatten_splitLines]

theorem translateNewlines_lines (text : List Char) :
    translateNewlines text = (splitLines text).flatMap translateNewlines := by
  have same : translateNewlines (indent text []) = _ := translateNewlines_indent text not_mem_nil
  rw [indent_nil] at same
  refine same.trans (flatMap_congr fun line _ => ?_)
  rw [indentLine, nil_append, ite_self]

theorem translateNewlines_newline (text : List Char) : translateNewlines (text ++ ['\n']) = terminated text ∨
      translateNewlines (text ++ ['\n']) = terminated text ++ ['\n'] := by
  by_cases carriage : text.getLast? = some '\r'
  · obtain ⟨before, rfl⟩ := getLast?_eq_some_iff.mp carriage
    have ends : ∀ more, translateNewlines (before ++ '\r' :: more) =
        translateNewlines before ++ translateNewlines ('\r' :: more) := fun more =>
      translateNewlines_append fun _ _ same => absurd (List.cons.inj same).1 (by decide)
    have complete : terminated (before ++ ['\r']) = translateNewlines (before ++ ['\r']) := by
      refine if_pos ⟨by rw [ends []]; simp [translateNewlines], fun same => ?_⟩
      obtain ⟨rest, same⟩ := same
      simpa using congrArg List.getLast? same
    left
    rw [append_assoc, complete]
    exact (ends ['\n']).trans (ends []).symm
  · rw [translateNewlines_append fun last => absurd last carriage, terminated]
    split
    · exact .inr rfl
    · exact .inl rfl

theorem mem_indent (member : char ∈ indent text margin) : char ∈ text ∨ char ∈ margin := by
  obtain ⟨line, cut, inside⟩ := mem_flatMap.mp member
  rw [indentLine] at inside
  have whole : char ∈ line → char ∈ text := fun inside => by
    rw [← flatten_splitLines text]
    exact mem_flatten.mpr ⟨line, cut, inside⟩
  split at inside
  · exact .inl (whole inside)
  · exact (mem_append.mp inside).symm.imp_left whole

end Translating

end N8n.Python
