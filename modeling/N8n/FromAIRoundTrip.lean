import N8n.FromAICalls

/-! What `extractFromAICalls` reads from the expressions that `createFromAIExpression` writes. -/

namespace N8n.FromAI

open JsText JsonReader List

variable {ν : Type}

section Escapes

def escapeChar (quote char : Char) : List Char :=
  if char = '\\' ∨ char = quote then ['\\', char] else [char]
variable {quote : Char} {text : List Char}

theorem quote_ne_backslash (quotes : isQuote quote = true) : quote ≠ '\\' := by
  rintro rfl
  cases quotes

theorem escapeForQuote_eq (quotes : isQuote quote = true) (str : List Char) :
    escapeForQuote str quote = str.flatMap (escapeChar quote) := by
  have other := quote_ne_backslash quotes
  rw [escapeForQuote, flatMap_assoc]
  apply flatMap_congr
  intro char _
  rw [escapeChar]
  by_cases escaped : char = '\\'
  · simp [escaped, Ne.symm other]
  · by_cases same : char = quote <;> simp [escaped, same, other]

theorem getBestQuoteChar_quote (str : List Char) : isQuote (getBestQuoteChar str) = true := by
  rw [getBestQuoteChar]
  split_ifs <;> rfl

def quoted (str : List Char) : List Char := getBestQuoteChar str :: str ++ [getBestQuoteChar str]

theorem escapeArg_eq (str : List Char) : escapeArg str =
    getBestQuoteChar str :: str.flatMap (escapeChar (getBestQuoteChar str)) ++ [getBestQuoteChar str] := by
  rw [escapeArg, escapeForQuote_eq (getBestQuoteChar_quote str)]

theorem replaceEscaped_sublist (mark : Char) (text : List Char) : (replaceEscaped mark text).Sublist text := by
  induction text using replaceEscaped.induct mark with
  | case1 => exact Sublist.refl _
  | case2 char => exact Sublist.refl _
  | case3 char next rest escaped ih =>
    rw [replaceEscaped, if_pos escaped, escaped.2]
    exact (ih.cons_cons _).cons _
  | case4 char next rest plain ih =>
    rw [replaceEscaped, if_neg plain]
    exact ih.cons_cons _

theorem replaceEscaped_eq_self {mark : Char} : replaceEscaped mark text = text ↔ ¬ ['\\', mark] <:+: text := by
  induction text using replaceEscaped.induct mark with
  | case1 => simp [replaceEscaped]
  | case2 char => simp [replaceEscaped, infix_cons_iff]
  | case3 char next rest escaped ih =>
    obtain ⟨rfl, rfl⟩ := escaped
    refine iff_of_false (fun same => ?_) (not_not.mpr ⟨[], rest, rfl⟩)
    have shorter := (replaceEscaped_sublist next rest).length_le
    have length := congrArg List.length same
    rw [replaceEscaped, if_pos ⟨rfl, rfl⟩] at length
    simp only [length_cons] at length
    omega
  | case4 char next rest plain ih =>
    have apart : ¬ ['\\', mark] <+: char :: next :: rest := by
      rw [cons_prefix_cons, cons_prefix_cons]
      exact fun both => plain ⟨both.1.symm, both.2.1.symm⟩
    rw [replaceEscaped, if_neg plain, cons_inj_right, ih, infix_cons_iff (a := char), or_iff_right apart]

/-- No backslash stands before a quote or a backslash. -/
def Unescaped (text : List Char) : Prop :=
  ∀ mark ∈ ['\'', '`', '"', '\\'], ¬ ['\\', mark] <:+: text

theorem unescape_sublist (text : List Char) : (unescape text).Sublist text :=
  (replaceEscaped_sublist _ _).trans ((replaceEscaped_sublist _ _).trans
    ((replaceEscaped_sublist _ _).trans (replaceEscaped_sublist _ _)))

theorem unescape_eq_self : unescape text = text ↔ Unescaped text := by
  simp only [Unescaped, forall_mem_cons, not_mem_nil, false_implies, implies_true,
    and_true, ← replaceEscaped_eq_self]
  constructor
  · intro same
    have single := replaceEscaped_sublist '\'' text
    have grave := replaceEscaped_sublist '`' (replaceEscaped '\'' text)
    have double := replaceEscaped_sublist '"' (replaceEscaped '`' (replaceEscaped '\'' text))
    have last := replaceEscaped_sublist '\\' (replaceEscaped '"' (replaceEscaped '`' (replaceEscaped '\'' text)))
    rw [← unescape, same] at last
    have first : replaceEscaped '\'' text = text :=
      single.antisymm (last.trans (double.trans grave))
    rw [first] at last double grave
    have second : replaceEscaped '`' text = text := grave.antisymm (last.trans double)
    rw [second] at last double
    have third : replaceEscaped '"' text = text := double.antisymm last
    rw [unescape, first, second, third] at same
    exact ⟨first, second, third, same⟩
  · rintro ⟨first, second, third, fourth⟩
    rw [unescape, first, second, third, fourth]

end Escapes

section Scanning

def Passes (state : Option Char) (text : List Char) : Prop :=
  ∀ depth rest, scanCall state depth (text ++ rest) = (scanCall state depth rest).map (text ++ ·)

variable {state : Option Char} {text more : List Char} {quote : Char}

theorem Passes.nil : Passes state [] := by
  intro depth rest
  simp

theorem Passes.append (front : Passes state text) (back : Passes state more) : Passes state (text ++ more) := by
  intro depth rest
  rw [append_assoc, front, back, Option.map_map]
  congr 1
  funext args
  simp

theorem Passes.flatMap {α : Type} {xs : List α} {f : α → List Char}
    (each : ∀ x ∈ xs, Passes state (f x)) : Passes state (xs.flatMap f) := by
  induction xs with
  | nil => exact .nil
  | cons x xs ih =>
    rw [forall_mem_cons] at each
    rw [flatMap_cons]
    exact each.1.append (ih each.2)

theorem Passes.escape (quote char : Char) : Passes (some quote) ['\\', char] :=
  fun _ _ => rfl

theorem Passes.inside {char : Char} (other : char ≠ quote) (escaped : char ≠ '\\') : Passes (some quote) [char] := by
  intro depth rest
  rw [singleton_append, scanCall, if_neg other]
  · rfl
  · exact fun _ _ same _ => escaped same

theorem Passes.outside {char : Char} (plain : isQuote char = false ∧ char ≠ '(' ∧ char ≠ ')') : Passes none [char] := by
  intro depth rest
  rw [singleton_append, scanCall, plain.1]
  simp [plain.2.1, plain.2.2]

theorem Passes.plain (plain : ∀ char ∈ text, isQuote char = false ∧ char ≠ '(' ∧ char ≠ ')') : Passes none text := by
  rw [← flatMap_singleton' text]
  exact .flatMap fun char member => .outside (plain char member)

theorem Passes.word (plain : (text.all fun char => !isQuote char && char != '(' && char != ')') = true) :
    Passes none text := by
  apply Passes.plain
  intro char member
  simpa [and_assoc] using List.all_eq_true.mp plain char member

theorem Passes.quoted (quotes : isQuote quote = true) (inside : Passes (some quote) text) :
    Passes none (quote :: text ++ [quote]) := by
  intro depth rest
  have closing : scanCall (some quote) depth (quote :: rest) = (scanCall none depth rest).map (quote :: ·) := by
    rw [scanCall, if_pos rfl]
    exact fun _ _ same _ => quote_ne_backslash quotes same
  rw [append_assoc, cons_append, scanCall, if_pos quotes, inside, singleton_append,
    closing, Option.map_map, Option.map_map]
  congr 1
  funext args
  simp

theorem passes_escapeArg (str : List Char) : Passes none (escapeArg str) := by
  rw [escapeArg_eq]
  refine .quoted (getBestQuoteChar_quote str) (.flatMap fun char _ => ?_)
  rw [escapeChar]
  split_ifs with escaped
  · exact .escape _ _
  · rw [not_or] at escaped
    exact .inside escaped.2 escaped.1

end Scanning

section Texts

variable (N : Numerals ν)

theorem passes_writeChar (char : Char) : Passes (some '"') (writeChar char) := by
  rw [writeChar]
  cases short : shortEscapes.lookup char with
  | some escape => exact .escape _ _
  | none =>
    have unquoted : char ≠ '"' := by rintro rfl; cases short
    have unescaped : char ≠ '\\' := by rintro rfl; cases short
    simp only
    split_ifs with control
    · have digit (n : ℕ) : Passes (some '"') [Nat.digitChar n] := .inside (by simp) (by simp)
      have zero : Passes (some '"') ['0'] := digit 0
      exact (Passes.escape _ _).append (zero.append (zero.append ((digit _).append (digit _))))
    · exact .inside unquoted unescaped

theorem passes_quote (text : List Char) : Passes none (quote text) :=
  .quoted rfl (.flatMap fun char _ => passes_writeChar char)

theorem numeral_plain {text : List Char} (numeral : ∀ char ∈ text, isNumeral char = true) :
    ∀ char ∈ text, isQuote char = false ∧ char ≠ '(' ∧ char ≠ ')' := by
  intro char member
  have other (mark : Char) (h : isNumeral mark = false) : char ≠ mark := by
    rintro rfl
    rw [numeral char member] at h
    cases h
  exact ⟨isQuote_eq_false.mpr ⟨other _ rfl, other _ rfl, other _ rfl⟩, other _ rfl, other _ rfl⟩

theorem passes_separated {texts : List (List Char)} (each : ∀ text ∈ texts, Passes none text) :
    Passes none (separated texts) := by
  cases texts with
  | nil => exact .nil
  | cons text texts =>
    rw [forall_mem_cons] at each
    exact each.1.append (.flatMap fun text member =>
      (Passes.outside (by decide)).append (each.2 text member))

theorem passes_text (value : Json ν) : Passes none (value.text N) := by
  induction value with
  | null => exact .word rfl
  | boolean value => cases value <;> exact .word rfl
  | number value => exact .plain (numeral_plain (N.numeral value))
  | infinity negative => exact .word rfl
  | string value => exact passes_quote value
  | array items ih =>
    rw [Json.text, itemTexts_eq]
    refine ((Passes.outside (by decide)).append (passes_separated ?_)).append (.outside (by decide))
    intro text member
    obtain ⟨item, listed, rfl⟩ := List.mem_map.mp member
    exact ih item listed
  | object members ih =>
    rw [Json.text, memberTexts_eq]
    refine ((Passes.outside (by decide)).append (passes_separated ?_)).append (.outside (by decide))
    intro text member
    obtain ⟨entry, listed, rfl⟩ := List.mem_map.mp member
    exact (passes_quote entry.1).append ((Passes.outside (by decide)).append (ih entry listed))

theorem passes_number (number : JsNumber ν) : Passes none (number.text N) := by
  cases number with
  | nan => exact .word rfl
  | infinity negative => cases negative <;> exact .word rfl
  | finite value => exact .plain (numeral_plain (N.numeral value))

theorem passes_default (N : Numbers ν) (value : DefaultValue ν) : Passes none (serializeDefaultValue N value) := by
  cases value with
  | string value => exact passes_escapeArg value
  | number value => exact passes_number _ value
  | boolean value => cases value <;> exact .word rfl
  | object members proper => exact passes_text _ _

theorem passes_arguments {args : List (List Char)} (each : ∀ arg ∈ args, Passes none arg) :
    Passes none ([',', ' '].intercalate args) := by
  induction args with
  | nil => exact .nil
  | cons arg args ih =>
    rw [forall_mem_cons] at each
    cases args with
    | nil => simpa [List.intercalate] using each.1
    | cons next args =>
      rw [intercalate_cons_cons]
      have comma : Passes none [',', ' '] := .word (by decide)
      exact (each.1.append comma).append (ih each.2)

def callStrings (spec : CallSpec ν) : List (List Char) :=
  sanitizeFromAIKey spec.key :: ((if spec.description.isSome || spec.type ≠ .string || spec.defaultValue.isSome then
      [spec.description.getD []] else []) ++
      if spec.type ≠ .string || spec.defaultValue.isSome then [spec.type.name] else [])

theorem callArguments_eq (N : Numbers ν) (spec : CallSpec ν) :
    callArguments N spec = (callStrings spec).map escapeArg ++
      (spec.defaultValue.map (serializeDefaultValue N)).toList := by
  rw [callArguments, callStrings]
  cases spec.defaultValue <;> by_cases typed : spec.type = .string <;>
    cases spec.description <;> simp [typed]

theorem scanCall_written (N : Numbers ν) (spec : CallSpec ν) (rest : List Char) :
    scanCall none 1 ([',', ' '].intercalate (callArguments N spec) ++ ')' :: rest) =
      some ([',', ' '].intercalate (callArguments N spec)) := by
  have passes : Passes none ([',', ' '].intercalate (callArguments N spec)) := by
    apply passes_arguments
    intro arg member
    rw [callArguments_eq, mem_append, mem_map] at member
    rcases member with ⟨str, -, rfl⟩ | last
    · exact passes_escapeArg str
    · cases given : spec.defaultValue with
      | none => simp [given] at last
      | some value =>
        obtain rfl : arg = serializeDefaultValue N value := by simpa [given] using last
        exact passes_default N value
  have closed : scanCall none 1 (')' :: rest) = some [] := rfl
  rw [passes, closed, Option.map_some, append_nil]

end Texts

section Splitting

/-- The splitting reads `text` as `left` and ends as it has begun. -/
def Yields (state : Option Char) (text left : List Char) : Prop :=
  ∀ currentArg rest,
    splitArguments state currentArg (text ++ rest) = splitArguments state (currentArg ++ left) rest

variable {state : Option Char} {text left : List Char} {quote : Char}

theorem yields_escapes (str : List Char) : Yields (some quote) (str.flatMap (escapeChar quote)) str := by
  induction str with
  | nil => exact fun currentArg rest => by simp
  | cons char str ih =>
    intro currentArg rest
    rw [flatMap_cons, escapeChar]
    split_ifs with escaped
    · rw [append_assoc, cons_append, singleton_append, splitArguments, ih,
        append_assoc, singleton_append]
    · rw [not_or] at escaped
      rw [append_assoc, singleton_append, splitArguments, if_neg escaped.2, ih,
        append_assoc, singleton_append]
      · exact fun same _ => escaped.1 same
      · exact fun _ _ same _ => escaped.1 same

theorem yields_escapeArg (str : List Char) : Yields none (escapeArg str) (quoted str) := by
  intro currentArg rest
  have quotes := getBestQuoteChar_quote str
  have other := quote_ne_backslash quotes
  have opening (currentArg rest : List Char) :
      splitArguments none currentArg (getBestQuoteChar str :: rest) =
        splitArguments (some (getBestQuoteChar str)) (currentArg ++ [getBestQuoteChar str])
          rest := by
    rw [splitArguments, if_pos quotes]
    · exact fun same => absurd same other
    · exact fun _ _ same => absurd same other
  have closing (currentArg rest : List Char) :
      splitArguments (some (getBestQuoteChar str)) currentArg (getBestQuoteChar str :: rest) =
        splitArguments none (currentArg ++ [getBestQuoteChar str]) rest := by
    rw [splitArguments, if_pos rfl]
    · exact fun same => absurd same other
    · exact fun _ _ same => absurd same other
  rw [escapeArg_eq, append_assoc, cons_append, opening, yields_escapes,
    singleton_append, closing, quoted]
  congr 1
  simp

theorem blank_nil : Blank [] := fun _ member => absurd member not_mem_nil

def Solid (text : List Char) : Prop :=
  text ≠ [] ∧ (∀ char ∈ text.head?, isWhiteSpace char = false) ∧ ∀ char ∈ text.getLast?, isWhiteSpace char = false

theorem trim_solid {blank : List Char} (white : Blank blank) (solid : Solid text) : trim (blank ++ text) = text := by
  have between := drop_between white solid.2.1 solid.2.2 solid.1 blank_nil
  rwa [append_nil] at between

theorem quote_solid (quotes : isQuote quote = true) : isWhiteSpace quote = false := by
  simp only [isQuote, Bool.or_eq_true, beq_iff_eq] at quotes
  rcases quotes with (rfl | rfl) | rfl <;> rfl

theorem getLast_quoted (str : List Char) : (quoted str).getLast? = some (getBestQuoteChar str) := by
  rw [quoted, getLast?_append, getLast?_singleton]
  rfl

theorem solid_quoted (str : List Char) : Solid (quoted str) := by
  have solid := quote_solid (getBestQuoteChar_quote str)
  refine ⟨cons_ne_nil _ _, fun char first => ?_, fun char last => ?_⟩
  · obtain rfl := Option.some.inj first
    exact solid
  · rw [getLast_quoted] at last
    obtain rfl := Option.some.inj last
    exact solid

theorem cleanArgument_quoted (str : List Char) : cleanArgument (quoted str) = unescape str := by
  have trimmed : trim (quoted str) = quoted str :=
    trim_solid blank_nil (solid_quoted str)
  have first : (quoted str).head? = some (getBestQuoteChar str) := rfl
  have listed : getBestQuoteChar str ∈ ['\'', '`', '"'] := by
    rw [getBestQuoteChar]
    split_ifs <;> simp
  rw [cleanArgument, trimmed, if_pos]
  · rw [quoted, cons_append, drop_one, tail_cons, dropLast_concat]
  · rw [any_eq_true]
    exact ⟨_, listed, by simp [first, getLast_quoted]⟩

variable {blank rest : List Char}

theorem split_more (white : Blank blank) (str : List Char) :
    splitArguments none blank (escapeArg str ++ ',' :: rest) = quoted str :: splitArguments none [] rest := by
  rw [yields_escapeArg, splitArguments, trim_solid white (solid_quoted str)]
  · rfl
  · rintro ⟨⟩
  · rintro _ _ ⟨⟩

theorem split_last (white : Blank blank) (str : List Char) :
    splitArguments none blank (escapeArg str) = [quoted str] := by
  have yields := yields_escapeArg str blank []
  rw [append_nil] at yields
  rw [yields, splitArguments, if_neg (by simp [quoted]), trim_solid white (solid_quoted str)]

theorem split_space (text : List Char) :
    splitArguments none [] (' ' :: text) = splitArguments none [' '] text := rfl

theorem blank_space : Blank [' '] := by
  intro char member
  rw [List.mem_singleton.mp member]
  rfl

theorem split_strings (white : Blank blank) (str : List Char) (strs : List (List Char)) :
    splitArguments none blank ([',', ' '].intercalate ((str :: strs).map escapeArg)) = (str :: strs).map quoted := by
  induction strs generalizing str blank with
  | nil => simpa using split_last white str
  | cons next strs ih =>
    rw [map_cons, map_cons, intercalate_cons_cons, append_assoc,
      cons_append, split_more white, cons_append, nil_append, split_space,
      ← map_cons, ih blank_space]
    rfl

theorem split_strings_last (white : Blank blank) (str : List Char) (strs : List (List Char)) (last : List Char) :
    splitArguments none blank ([',', ' '].intercalate ((str :: strs).map escapeArg ++ [last])) =
      (str :: strs).map quoted ++ splitArguments none [' '] last := by
  induction strs generalizing str blank with
  | nil =>
    rw [map_cons, map_nil, cons_append, nil_append,
      intercalate_cons_cons, append_assoc, cons_append, split_more white,
      cons_append, nil_append, split_space, intercalate_singleton]
    rfl
  | cons next strs ih =>
    rw [map_cons, map_cons, cons_append, cons_append, intercalate_cons_cons, append_assoc,
      cons_append, split_more white, cons_append, nil_append, split_space,
      ← cons_append, ← map_cons, ih blank_space]
    rfl

end Splitting

section Defaults

/-- The text up to the first comma outside quotes, without backslashes that escape. -/
def firstArgument : Option Char → List Char → List Char
  | _, [] | _, ['\\'] => []
  | quote, '\\' :: char :: rest => char :: firstArgument quote rest
  | some quote, char :: rest =>
    char :: firstArgument (if char = quote then none else some quote) rest
  | none, char :: rest =>
    if isQuote char then char :: firstArgument (some char) rest
    else if char = ',' then []
    else char :: firstArgument none rest

/-- The text has no backslash and no comma outside quotes. -/
def isWhole : Option Char → List Char → Bool
  | _, [] => true
  | some quote, char :: rest =>
    char != '\\' && isWhole (if char = quote then none else some quote) rest
  | none, char :: rest =>
    char != '\\' &&
      if isQuote char then isWhole (some char) rest else char != ',' && isWhole none rest

example : firstArgument none ['a', ',', 'b'] = ['a'] := by simp [firstArgument, isQuote]

example : isWhole none ['a', ','] = false := by simp [isWhole, isQuote]

theorem head_splitArguments (state : Option Char) {currentArg : List Char}
    (filled : currentArg ≠ []) (text : List Char) :
    (splitArguments state currentArg text).head? = some (trim (currentArg ++ firstArgument state text)) := by
  induction state, text using firstArgument.induct generalizing currentArg with
  | case1 state => simp [splitArguments, firstArgument, filled]
  | case2 state => simp [splitArguments, firstArgument, filled]
  | case3 state char rest ih =>
    rw [splitArguments, firstArgument, ih (by simp), append_assoc, singleton_append]
  | case4 quote char rest single escaped ih =>
    rw [splitArguments, firstArgument, ih (by simp), append_assoc, singleton_append] <;> assumption
  | case5 char rest single escaped quotes ih =>
    rw [splitArguments, firstArgument, if_pos quotes, if_pos quotes, ih (by simp),
      append_assoc, singleton_append] <;> assumption
  | case6 rest single escaped quotes =>
    rw [splitArguments, firstArgument, if_neg quotes, if_neg quotes, if_pos rfl, if_pos rfl,
      append_nil, List.head?_cons] <;> assumption
  | case7 char rest single escaped quotes other ih =>
    rw [splitArguments, firstArgument, if_neg quotes, if_neg quotes, if_neg other, if_neg other,
      ih (by simp), append_assoc, singleton_append] <;> assumption

theorem firstArgument_sublist (state : Option Char) (text : List Char) : (firstArgument state text).Sublist text := by
  induction state, text using firstArgument.induct with
  | case1 state => exact List.Sublist.refl _
  | case2 state => exact nil_sublist _
  | case3 state char rest ih => exact (ih.cons_cons _).cons _
  | case4 quote char rest single escaped ih =>
    rw [firstArgument]
    · exact ih.cons_cons _
    · exact single
    · exact escaped
  | case5 char rest single escaped quotes ih =>
    rw [firstArgument, if_pos quotes]
    · exact ih.cons_cons _
    · exact single
    · exact escaped
  | case6 rest single escaped quotes =>
    rw [firstArgument, if_neg quotes, if_pos rfl]
    · exact nil_sublist _
    · exact single
    · exact escaped
  | case7 char rest single escaped quotes other ih =>
    rw [firstArgument, if_neg quotes, if_neg other]
    · exact ih.cons_cons _
    · exact single
    · exact escaped
variable {state : Option Char} {text : List Char}

theorem firstArgument_whole (whole : isWhole state text = true) : firstArgument state text = text := by
  induction text generalizing state with
  | nil => cases state <;> rfl
  | cons char rest ih =>
    cases state with
    | some quote =>
      rw [isWhole, Bool.and_eq_true, bne_iff_ne] at whole
      rw [firstArgument, ih whole.2]
      · exact fun same _ => whole.1 same
      · exact fun _ _ same _ => whole.1 same
    | none =>
      rw [isWhole, Bool.and_eq_true, bne_iff_ne] at whole
      rw [firstArgument]
      · split_ifs with quotes comma
        · rw [if_pos quotes] at whole
          rw [ih whole.2]
        · subst comma
          simp [isQuote] at whole
        · rw [if_neg quotes, Bool.and_eq_true] at whole
          rw [ih whole.2.2]
      · exact fun same _ => whole.1 same
      · exact fun _ _ same _ => whole.1 same

theorem weight_firstArgument_le (state : Option Char) (text : List Char) :
    weight (firstArgument state text) ≤ weight text :=
  (firstArgument_sublist state text).countP_le

theorem ne_backslash {char : Char} {rest : List Char} (single : char = '\\' → rest = [] → False)
    (escaped : ∀ (next : Char) (more : List Char), char = '\\' → rest = next :: more → False) : char ≠ '\\' := by
  intro same
  cases rest with
  | nil => exact single same rfl
  | cons next more => exact escaped next more same rfl

theorem firstArgument_lighter (cut : isWhole state text = false) : weight (firstArgument state text) < weight text := by
  induction state, text using firstArgument.induct with
  | case1 state => simp [isWhole] at cut
  | case2 state => exact Nat.one_pos
  | case3 state char rest ih =>
    have bound := weight_firstArgument_le state rest
    rw [firstArgument, weight_backslash, weight_cons, weight_cons char rest]
    omega
  | case4 quote char rest single escaped ih =>
    rw [isWhole, Bool.and_eq_false_iff] at cut
    have more := ih (cut.resolve_left (by simp [ne_backslash single escaped]))
    rw [firstArgument, weight_cons, weight_cons char rest]
    · omega
    · exact single
    · exact escaped
  | case5 char rest single escaped quotes ih =>
    rw [isWhole, if_pos quotes, Bool.and_eq_false_iff] at cut
    have more := ih (cut.resolve_left (by simp [ne_backslash single escaped]))
    rw [firstArgument, if_pos quotes, weight_cons, weight_cons char rest]
    · omega
    · exact single
    · exact escaped
  | case6 rest single escaped quotes =>
    have comma : weight [','] = 1 := rfl
    rw [firstArgument, if_neg quotes, if_pos rfl, weight_cons ',' rest, weight_nil]
    · omega
    · exact single
    · exact escaped
  | case7 char rest single escaped quotes other ih =>
    rw [isWhole, if_neg quotes, Bool.and_eq_false_iff, Bool.and_eq_false_iff] at cut
    have more := ih ((cut.resolve_left (by simp [ne_backslash single escaped])).resolve_left (by simp [other]))
    rw [firstArgument, if_neg quotes, if_neg other, weight_cons, weight_cons char rest]
    · omega
    · exact single
    · exact escaped

end Defaults

section Calls

/-- The text holds `$fromAI`, white space and an opening parenthesis. -/
def HasCall (text : List Char) : Prop :=
  ∃ name gap, name.map Char.toLower = callName ∧ Blank gap ∧ name ++ gap ++ ['('] <:+: text
variable {char : Char} {α : Type} {key : List Char} {c : α}

theorem toLower_dollar (lower : char.toLower = '$') : char = '$' := by
  delta Char.toLower at lower
  split_ifs at lower with upper
  · have same := congrArg (fun char => char.val.toNat) lower
    have bound : 65 ≤ char.val.toNat := upper.1
    have top : char.val.toNat ≤ 90 := upper.2
    have dollar : '$'.val.toNat = 36 := rfl
    have shift : ('a'.val - 'A'.val).toNat = 32 := rfl
    simp only [UInt32.toNat_add, dollar, shift] at same
    omega
  · exact lower

theorem dollar_of_name {name : List Char} (named : name.map Char.toLower = callName) : name.head? = some '$' := by
  have first := congrArg List.head? named
  rw [List.head?_map] at first
  obtain ⟨char, head, lower⟩ := Option.map_eq_some_iff.mp first
  rw [head, toLower_dollar lower]

theorem HasCall.dollar {text : List Char} (call : HasCall text) : '$' ∈ text := by
  obtain ⟨name, gap, named, -, found⟩ := call
  apply found.mem
  exact mem_append_left _ (mem_append_left _ (mem_of_head? (dollar_of_name named)))

theorem not_hasCall {text : List Char} (free : '$' ∉ text) : ¬ HasCall text :=
  fun call => free call.dollar

theorem hasCall_cons {text : List Char} :
    HasCall (char :: text) ↔ (readCallHead (char :: text)).isSome = true ∨ HasCall text := by
  constructor
  · rintro ⟨name, gap, named, blank, found⟩
    cases List.infix_cons_iff.mp found with
    | inl front =>
      obtain ⟨rest, same⟩ := front
      left
      rw [← same, append_assoc, singleton_append, readCallHead_call named blank]
      rfl
    | inr later => exact .inr ⟨name, gap, named, blank, later⟩
  · rintro (read | ⟨name, gap, named, blank, found⟩)
    · obtain ⟨rest, read⟩ := Option.isSome_iff_exists.mp read
      obtain ⟨name, gap, same, named, blank⟩ := readCallHead_some read
      exact ⟨name, gap, named, blank, [], rest, by simp [same]⟩
    · exact ⟨name, gap, named, blank, found.trans (suffix_cons _ _).isInfix⟩

theorem readCallStart_eq_none {text : List Char} : readCallStart text = none ↔ readCallHead text = none := by
  rw [readCallStart, Option.map_eq_none_iff]

theorem callTexts_cons {text : List Char} (unread : readCallHead (char :: text) = none) :
    callTexts (char :: text) = callTexts text := by
  rw [callTexts, ReplaceAll.pieces_plain (readCallStart_eq_none.mpr unread)]
  rfl

theorem callTexts_eq_nil {text : List Char} : callTexts text = [] ↔ ¬ HasCall text := by
  induction text with
  | nil => exact iff_of_true rfl (not_hasCall not_mem_nil)
  | cons char text ih =>
    rw [hasCall_cons]
    cases read : readCallHead (char :: text) with
    | none => simp [callTexts_cons read, ih]
    | some rest =>
      have start : readCallStart (char :: text) =
        some ((char :: text).length - (rest.dropWhile isWhiteSpace).length) := by
        rw [readCallStart, read, Option.map_some]
      rw [callTexts, ReplaceAll.pieces, start]
      simp

theorem unread_of_ne {text : List Char} (other : char ≠ '$') : readCallHead (char :: text) = none := by
  by_contra read
  obtain ⟨rest, read⟩ := Option.ne_none_iff_exists'.mp read
  obtain ⟨name, gap, same, named, -⟩ := readCallHead_some read
  have head := congrArg List.head? same
  rw [append_assoc, List.head?_append, dollar_of_name named] at head
  exact other (Option.some.inj head)

theorem callTexts_through {front : List Char} (free : '$' ∉ front) (text : List Char) :
    callTexts (front ++ text) = callTexts text := by
  induction front with
  | nil => rfl
  | cons char front ih =>
    rw [mem_cons, not_or] at free
    have unread : readCallHead (char :: (front ++ text)) = none := unread_of_ne (Ne.symm free.1)
    rw [cons_append, callTexts_cons unread, ih free.2]

/-- The characters that stand in no `$fromAI(`. -/
def isSeparator (char : Char) : Bool := isQuote char || char == '\\' || char == ',' || char == ')'

theorem separator_free (separates : isSeparator char = true) {name gap : List Char}
    (named : name.map Char.toLower = callName) (blank : Blank gap) :
    char ∉ name ++ gap ++ ['('] := by
  have listed : char ∈ ['"', '\'', '`', '\\', ',', ')'] := by
    simpa [isSeparator, isQuote, or_assoc] using separates
  have table : (['"', '\'', '`', '\\', ',', ')'].all fun char =>
      !callName.contains char.toLower && !isWhiteSpace char && char != '(') = true := by
    decide
  have entry := List.all_eq_true.mp table char listed
  simp only [Bool.and_eq_true, Bool.not_eq_true', bne_iff_ne, contains_eq_mem,
    decide_eq_false_iff_not] at entry
  rw [mem_append, mem_append, mem_singleton]
  rintro ((member | member) | same)
  · exact entry.1.1 (named ▸ mem_map_of_mem member)
  · rw [blank char member] at entry
    cases entry.1.2
  · exact entry.2 same

theorem prefix_of_append_cons {u a b : List α} (free : c ∉ u) (start : u <+: a ++ c :: b) : u <+: a := by
  cases prefix_or_prefix_of_prefix start (prefix_append a (c :: b)) with
  | inl inside => exact inside
  | inr beyond =>
    obtain ⟨more, rfl⟩ := beyond
    cases more with
    | nil => simp
    | cons first more =>
      obtain ⟨rest, same⟩ := start
      rw [append_assoc, append_cancel_left_eq, cons_append] at same
      obtain rfl := (List.cons.inj same).1
      exact absurd (mem_append_right a mem_cons_self) free

theorem infix_append_cons {u a b : List α} (filled : u ≠ []) (free : c ∉ u) :
    u <:+: a ++ c :: b ↔ u <:+: a ∨ u <:+: b := by
  constructor
  · intro found
    induction a with
    | nil =>
      cases List.infix_cons_iff.mp found with
      | inl front => exact absurd (List.prefix_nil.mp (prefix_of_append_cons free front)) filled
      | inr later => exact .inr later
    | cons x a ih =>
      cases List.infix_cons_iff.mp found with
      | inl front => exact .inl (prefix_of_append_cons (a := x :: a) free front).isInfix
      | inr later =>
        exact (ih later).imp_left fun inside => inside.trans (suffix_cons x a).isInfix
  · rintro (inside | inside)
    · exact inside.trans (prefix_append _ _).isInfix
    · exact inside.trans ((suffix_cons c b).trans (suffix_append a _)).isInfix

theorem hasCall_separated (separates : isSeparator char = true) (a b : List Char) :
    HasCall (a ++ char :: b) ↔ HasCall a ∨ HasCall b := by
  have apart {name gap : List Char} (named : name.map Char.toLower = callName) (blank : Blank gap) :
      name ++ gap ++ ['('] <:+: a ++ char :: b ↔ name ++ gap ++ ['('] <:+: a ∨ name ++ gap ++ ['('] <:+: b :=
    infix_append_cons (by simp) (separator_free separates named blank)
  constructor
  · rintro ⟨name, gap, named, blank, found⟩
    exact ((apart named blank).mp found).imp (fun inside => ⟨name, gap, named, blank, inside⟩)
      fun inside => ⟨name, gap, named, blank, inside⟩
  · rintro (⟨name, gap, named, blank, found⟩ | ⟨name, gap, named, blank, found⟩)
    · exact ⟨name, gap, named, blank, (apart named blank).mpr (.inl found)⟩
    · exact ⟨name, gap, named, blank, (apart named blank).mpr (.inr found)⟩

theorem not_hasCall_nil : ¬ HasCall [] := not_hasCall not_mem_nil

theorem hasCall_escapes {quote : Char} (quotes : isQuote quote = true) (front str : List Char) :
    HasCall (front ++ str.flatMap (escapeChar quote)) ↔ HasCall (front ++ str) := by
  induction str generalizing front with
  | nil => rfl
  | cons char str ih =>
    rw [flatMap_cons, escapeChar]
    split_ifs with escaped
    · have backslash : isSeparator '\\' = true := rfl
      have separates : isSeparator char = true := by
        cases escaped with
        | inl same => rw [same]; rfl
        | inr same => rw [same, isSeparator, quotes]; rfl
      have inner := hasCall_separated separates [] (str.flatMap (escapeChar quote))
      have rest := ih []
      rw [nil_append] at inner rest
      rw [cons_append, singleton_append, hasCall_separated backslash,
        inner, hasCall_separated separates, rest, or_iff_right not_hasCall_nil, nil_append]
    · rw [← append_assoc, ih, append_assoc, singleton_append]

theorem hasCall_escapeArg (str : List Char) : HasCall (escapeArg str) ↔ HasCall str := by
  have quotes := getBestQuoteChar_quote str
  have separates : isSeparator (getBestQuoteChar str) = true := by
    rw [isSeparator, quotes]
    rfl
  have inside := hasCall_escapes quotes [] str
  have front := hasCall_separated separates []
    (str.flatMap (escapeChar (getBestQuoteChar str)) ++ [getBestQuoteChar str])
  rw [nil_append] at front inside
  rw [escapeArg_eq, cons_append, front, or_iff_right not_hasCall_nil,
    hasCall_separated separates, or_iff_left not_hasCall_nil, inside, nil_append]

theorem hasCall_space (text : List Char) : HasCall (' ' :: text) ↔ HasCall text := by
  have unread : readCallHead (' ' :: text) = none := unread_of_ne (by decide)
  rw [hasCall_cons, unread]
  simp

theorem hasCall_arguments (args : List (List Char)) :
    HasCall ([',', ' '].intercalate args) ↔ ∃ arg ∈ args, HasCall arg := by
  induction args with
  | nil => exact iff_of_false not_hasCall_nil (by simp)
  | cons arg args ih =>
    cases args with
    | nil => simp
    | cons next args =>
      rw [intercalate_cons_cons, append_assoc, cons_append, singleton_append,
        hasCall_separated rfl, hasCall_space, ih]
      simp

theorem collapseUnderscores_sublist (text : List Char) : (collapseUnderscores text).Sublist text := by
  induction text with
  | nil => exact List.Sublist.refl _
  | cons char rest ih =>
    rw [collapseUnderscores]
    split_ifs
    · exact ih.cons _
    · exact ih.cons_cons _

theorem sanitizeFromAIKey_chars (member : char ∈ sanitizeFromAIKey key) : isKeyChar char = true := by
  rw [sanitizeFromAIKey] at member
  split_ifs at member with empty
  · exact List.all_eq_true.mp (by decide : "param".toList.all isKeyChar = true) char member
  · have kept := (collapseUnderscores_sublist _).mem ((dropWhile_sublist _).mem
      ((List.rdropWhile_prefix _ _).sublist.mem ((take_sublist _ _).mem member)))
    obtain ⟨original, -, rfl⟩ := List.mem_map.mp kept
    split_ifs with plain
    · exact plain
    · rfl

theorem sanitizeFromAIKey_free (other : isKeyChar char = false) : char ∉ sanitizeFromAIKey key := by
  intro member
  rw [sanitizeFromAIKey_chars member] at other
  cases other

theorem type_free (type : FromAIArgumentType) : '$' ∉ type.name ∧ '\\' ∉ type.name := by
  cases type <;> decide

theorem unescaped_of_free {text : List Char} (free : '\\' ∉ text) : Unescaped text :=
  fun _ _ found => free (found.mem mem_cons_self)

variable (N : Numbers ν)

def DefaultValue.text : DefaultValue ν → List Char
  | string value => value
  | number value => value.text N.toNumerals
  | boolean value => if value then "true".toList else "false".toList
  | object members _ => (Json.object members).text N.toNumerals

theorem hasCall_default (value : DefaultValue ν) :
    HasCall (serializeDefaultValue N value) ↔ HasCall (value.text N) := by
  cases value with
  | string value => exact hasCall_escapeArg value
  | number value => rfl
  | boolean value => rfl
  | object members proper => rfl

theorem hasCall_strings (spec : CallSpec ν) :
    (∃ str ∈ callStrings spec, HasCall str) ↔ ∃ str, spec.description = some str ∧ HasCall str := by
  have key : ¬ HasCall (sanitizeFromAIKey spec.key) :=
    not_hasCall (sanitizeFromAIKey_free (by decide))
  have type (name : FromAIArgumentType) : ¬ HasCall name.name := not_hasCall (type_free name).1
  rw [callStrings]
  by_cases typed : spec.type = .string <;> cases spec.description <;> cases spec.defaultValue <;>
    simp [typed, key, type, not_hasCall_nil]

theorem hasCall_written (spec : CallSpec ν) :
    HasCall ([',', ' '].intercalate (callArguments N spec) ++ ") \x7d\x7d".toList) ↔
      (∃ str, spec.description = some str ∧ HasCall str) ∨
        ∃ value, spec.defaultValue = some value ∧ HasCall (value.text N) := by
  have closing : ") \x7d\x7d".toList = ')' :: [' ', '\x7d', '\x7d'] := rfl
  have after : ¬ HasCall [' ', '\x7d', '\x7d'] := not_hasCall (by decide)
  rw [closing, hasCall_separated rfl, or_iff_left after, hasCall_arguments, callArguments_eq, ← hasCall_strings]
  simp only [mem_append, or_and_right, exists_or, mem_map, Option.mem_toList, Option.map_eq_some_iff]
  refine or_congr ?_ ?_
  · constructor
    · rintro ⟨_, ⟨str, listed, rfl⟩, call⟩
      exact ⟨str, listed, (hasCall_escapeArg str).mp call⟩
    · rintro ⟨str, listed, call⟩
      exact ⟨_, ⟨str, listed, rfl⟩, (hasCall_escapeArg str).mpr call⟩
  · constructor
    · rintro ⟨_, ⟨value, given, rfl⟩, call⟩
      exact ⟨value, given, (hasCall_default N value).mp call⟩
    · rintro ⟨value, given, call⟩
      exact ⟨_, ⟨value, given, rfl⟩, (hasCall_default N value).mpr call⟩

theorem readCallStart_call {text : List Char} (first : ∀ char ∈ text.head?, isWhiteSpace char = false) :
    readCallStart ("$fromAI(".toList ++ text) = some "$fromAI(".toList.length := by
  have named : "$fromAI".toList.map Char.toLower = callName := by decide
  have read : readCallHead ("$fromAI(".toList ++ text) = some text :=
    readCallHead_call named blank_nil text
  have kept : text.dropWhile isWhiteSpace = text := by
    cases text with
    | nil => rfl
    | cons char rest => exact dropWhile_cons_of_neg (by simp [first char rfl])
  rw [readCallStart, read, Option.map_some, kept, length_append, Nat.add_sub_cancel]

theorem callTexts_written (spec : CallSpec ν) : callTexts (createFromAIExpression N spec) =
      ([',', ' '].intercalate (callArguments N spec) ++ ") \x7d\x7d".toList) ::
        callTexts ([',', ' '].intercalate (callArguments N spec) ++ ") \x7d\x7d".toList) := by
  obtain ⟨after, first⟩ : ∃ after, [',', ' '].intercalate (callArguments N spec) ++
      ") \x7d\x7d".toList = getBestQuoteChar (sanitizeFromAIKey spec.key) :: after := by
    rw [callArguments_eq, callStrings, map_cons, cons_append, escapeArg_eq,
      cons_append, intercalate_cons_cons_left, cons_append]
    exact ⟨_, rfl⟩
  have solid := quote_solid (getBestQuoteChar_quote (sanitizeFromAIKey spec.key))
  have front : '$' ∉ "=\x7b\x7b ".toList ++ autoGeneratedMarker ++ [' '] := by decide
  have start : " $fromAI(".toList = [' '] ++ "$fromAI(".toList := rfl
  delta createFromAIExpression
  rw [start, append_assoc _ (List.intercalate _ _),
    ← append_assoc _ [' '], append_assoc, callTexts_through front, callTexts,
    ReplaceAll.pieces_taken (readCallStart_call (by rw [first]; simpa using solid)) rfl (by simp)]
  rfl

end Calls

section RoundTrip

variable (N : Numbers ν)

def readDefault (value : DefaultValue ν) : Option (List Char) :=
  (splitArguments none [' '] (serializeDefaultValue N value)).head?.map cleanArgument

def writtenCall (spec : CallSpec ν) : FromAIArgument ν where
  key := sanitizeFromAIKey spec.key
  description :=
    if spec.description.isSome || spec.type ≠ .string || spec.defaultValue.isSome then
      some (unescape (spec.description.getD []))
    else none
  type := spec.type.name
  defaultValue := parseDefaultValue N (spec.defaultValue.bind (readDefault N)) spec.type.name

theorem isFromAIArgumentType_name (type : FromAIArgumentType) : isFromAIArgumentType type.name = true := by
  cases type <;> decide

theorem cleanArguments_written (spec : CallSpec ν) :
    (splitArguments none [] ([',', ' '].intercalate (callArguments N spec))).map cleanArgument =
      (callStrings spec).map unescape ++ (spec.defaultValue.elim [] fun value =>
          splitArguments none [' '] (serializeDefaultValue N value)).map cleanArgument := by
  have clean : cleanArgument ∘ quoted = unescape := funext cleanArgument_quoted
  rw [callArguments_eq, callStrings]
  cases spec.defaultValue with
  | none =>
    rw [Option.map_none, Option.toList_none, append_nil, split_strings blank_nil, List.map_map, clean]
    exact (append_nil _).symm
  | some value =>
    rw [Option.map_some, Option.toList_some, split_strings_last blank_nil, map_append, List.map_map, clean]
    rfl

theorem parseArguments_written (spec : CallSpec ν) : parseArguments N ([',', ' '].intercalate (callArguments N spec)) =
      .ok (writtenCall N spec) := by
  have key : unescape (sanitizeFromAIKey spec.key) = sanitizeFromAIKey spec.key :=
    unescape_eq_self.mpr (unescaped_of_free (sanitizeFromAIKey_free (by decide)))
  have type (name : FromAIArgumentType) : unescape name.name = name.name :=
    unescape_eq_self.mpr (unescaped_of_free (type_free name).2)
  have string : "string".toList = FromAIArgumentType.string.name := rfl
  rw [parseArguments, cleanArguments_written, writtenCall, callStrings, string]
  by_cases typed : spec.type = .string <;> cases spec.description <;> cases spec.defaultValue <;>
    simp [typed, key, type, isFromAIArgumentType_name, readDefault, List.head?_eq_getElem?]

def ReadsBack (spec : CallSpec ν) : Prop :=
  ∃ call, extractFromAICalls N (createFromAIExpression N spec) = .ok [call] ∧
    call.key = sanitizeFromAIKey spec.key ∧ call.description = spec.description ∧
    call.type = spec.type.name ∧
    ∀ value, spec.defaultValue = some value → value.type = spec.type → call.defaultValue = some value.value

def Kept : DefaultValue ν → Prop
  | .string value => Unescaped value
  | .number value => value ≠ .nan
  | .boolean _ => True
  | .object members _ => isWhole none ((Json.object members).text N.toNumerals) = true

section Words

variable {text : List Char}

theorem solid_word (filled : text ≠ []) (word : ∀ char ∈ text, isNumberChar char = true) : Solid text := by
  refine ⟨filled, fun char first => ?_, fun char last => ?_⟩
  · exact (isNumberChar_solid (word char (mem_of_mem_head? first))).2.2.2
  · exact (isNumberChar_solid (word char (mem_of_mem_getLast? last))).2.2.2

theorem whole_word (word : ∀ char ∈ text, isNumberChar char = true) : isWhole none text = true := by
  induction text with
  | nil => rfl
  | cons char rest ih =>
    rw [forall_mem_cons] at word
    obtain ⟨unquoted, -, other, -⟩ := isNumberChar_solid word.1
    have plain : char ≠ '\\' := by
      rintro rfl
      exact absurd word.1 (by decide)
    rw [isWhole, unquoted, ih word.2]
    simp [plain, other]

theorem cleanArgument_plain (solid : Solid text) (plain : ∀ char ∈ text.head?, isQuote char = false) :
    cleanArgument text = text := by
  have trimmed : trim text = text :=
    trim_solid blank_nil solid
  rw [cleanArgument, trimmed, if_neg]
  rw [any_eq_true]
  rintro ⟨quote, listed, ends⟩
  rw [Bool.and_eq_true, beq_iff_eq] at ends
  have quotes : isQuote quote = true := by
    simp only [mem_cons, not_mem_nil, or_false] at listed
    rcases listed with rfl | rfl | rfl <;> rfl
  rw [plain quote ends.1] at quotes
  cases quotes

theorem head_split_whole (solid : Solid text) (plain : ∀ char ∈ text.head?, isQuote char = false)
    (whole : isWhole none text = true) : (splitArguments none [' '] text).head?.map cleanArgument = some text := by
  rw [head_splitArguments none (by simp), firstArgument_whole whole, trim_solid blank_space solid,
    Option.map_some, cleanArgument_plain solid plain]

theorem head_split_word (filled : text ≠ []) (word : ∀ char ∈ text, isNumberChar char = true) :
    (splitArguments none [' '] text).head?.map cleanArgument = some text := by
  refine head_split_whole (solid_word filled word) (fun char first => ?_) (whole_word word)
  exact (isNumberChar_solid (word char (mem_of_mem_head? first))).1

theorem isNumberChar_numeral {char : Char} (numeral : isNumeral char = true) : isNumberChar char = true := by
  simp only [isNumeral, Bool.or_eq_true, beq_iff_eq] at numeral
  obtain ((((digit | rfl) | rfl) | rfl) | rfl) | rfl := numeral
  · simp [isNumberChar, Char.isAlphanum, digit]
  all_goals decide

theorem number_word (number : JsNumber ν) : number.text N.toNumerals ≠ [] ∧
    ∀ char ∈ number.text N.toNumerals, isNumberChar char = true := by
  have words : ("NaN".toList ≠ [] ∧ "NaN".toList.all isNumberChar = true) ∧
      ("Infinity".toList ≠ [] ∧ "Infinity".toList.all isNumberChar = true) ∧
      "-Infinity".toList ≠ [] ∧ "-Infinity".toList.all isNumberChar = true := by decide
  simp only [all_eq_true] at words
  cases number with
  | nan =>
    have text : JsNumber.nan.text N.toNumerals = "NaN".toList := rfl
    rw [text]
    exact words.1
  | infinity negative =>
    have text : (JsNumber.infinity negative).text N.toNumerals =
      if negative then "-Infinity".toList else "Infinity".toList := by cases negative <;> rfl
    rw [text]
    split_ifs
    · exact words.2.2
    · exact words.2.1
  | finite value =>
    exact ⟨N.filled value, fun char member => isNumberChar_numeral (N.numeral value char member)⟩

end Words

section Objects

variable {members : List (List Char × Json ν)}

theorem solid_object (members : List (List Char × Json ν)) : Solid ((Json.object members).text N.toNumerals) := by
  rw [Json.text]
  refine ⟨cons_ne_nil _ _, fun char first => ?_, fun char last => ?_⟩
  · obtain rfl := Option.some.inj first
    rfl
  · rw [List.getLast?_concat] at last
    obtain rfl := Option.some.inj last
    rfl

theorem cleanArgument_sublist (arg : List Char) : (cleanArgument arg).Sublist arg := by
  have trimmed : (trim arg).Sublist arg :=
    ((List.rdropWhile_prefix _ _).sublist).trans (dropWhile_sublist _)
  rw [cleanArgument]
  split_ifs
  · exact (unescape_sublist _).trans (((dropLast_sublist _).trans (drop_sublist _ _)).trans trimmed)
  · exact trimmed

theorem weight_readDefault {text : List Char} (cut : isWhole none text = false) :
    ∃ left, (splitArguments none [' '] text).head?.map cleanArgument = some left ∧ weight left < weight text := by
  have lighter := firstArgument_lighter cut
  refine ⟨_, by rw [head_splitArguments none (by simp), Option.map_some], ?_⟩
  have trimmed : trim ([' '] ++ firstArgument none text) = trim (firstArgument none text) := rfl
  have kept : (cleanArgument (trim (firstArgument none text))).Sublist (firstArgument none text) :=
    (cleanArgument_sublist _).trans (((List.rdropWhile_prefix _ _).sublist).trans (dropWhile_sublist _))
  rw [trimmed]
  exact lt_of_le_of_lt kept.countP_le lighter

end Objects

theorem parse_string (value type : List Char) (string : type = "string".toList) :
    parseDefaultValue N (some value) type = some (.json (.string value)) := by
  rw [parseDefaultValue, Option.map_some, if_pos string]

theorem parse_number (value : JsNumber ν) :
    parseDefaultValue N (some (value.text N.toNumerals)) "number".toList = some value.value ↔ value ≠ .nan := by
  rw [parseDefaultValue, Option.map_some, if_neg (by decide), if_neg (by simp), if_pos rfl, N.number_text]
  cases value with
  | nan =>
    refine iff_of_false ?_ (fun other => other rfl)
    cases parseJson N.toNumerals (JsNumber.nan.text N.toNumerals) <;> simp [JsNumber.value]
  | infinity negative => simp
  | finite value => simp

theorem parse_boolean (value : Bool) :
    parseDefaultValue N (some (if value then "true".toList else "false".toList)) "boolean".toList =
      some (.json (.boolean value)) := by
  have lower : lowerCase ['t', 'r', 'u', 'e'] = ['t', 'r', 'u', 'e'] ∧
      lowerCase ['f', 'a', 'l', 's', 'e'] = ['f', 'a', 'l', 's', 'e'] := by decide
  rw [parseDefaultValue, Option.map_some, if_neg (by decide)]
  cases value <;> simp [lower]

theorem parse_json (text : List Char) : parseDefaultValue N (some text) "json".toList =
      some (match parseJson N.toNumerals text with
        | some parsed => .json parsed
        | none => .json (.string text)) := by
  cases parsed : parseJson N.toNumerals text <;> simp [parseDefaultValue, parsed]

theorem parseDefaultValue_kept (value : DefaultValue ν) :
    parseDefaultValue N (readDefault N value) value.type.name = some value.value ↔
      Kept N value := by
  cases value with
  | string value =>
    have read : readDefault N (.string value) = some (unescape value) := by
      rw [readDefault, serializeDefaultValue, split_last blank_space, List.head?_cons,
        Option.map_some, cleanArgument_quoted]
    have string : (DefaultValue.string (ν := ν) value).type.name = "string".toList := rfl
    rw [read, string, parse_string N _ _ rfl, Kept, ← unescape_eq_self]
    simp [DefaultValue.value]
  | number value =>
    obtain ⟨filled, word⟩ := number_word N value
    rw [readDefault, serializeDefaultValue, head_split_word filled word]
    exact parse_number N value
  | boolean value =>
    have word : (if value then "true".toList else "false".toList) ≠ [] ∧
        ∀ char ∈ if value then "true".toList else "false".toList, isNumberChar char = true := by
      cases value <;> simp [isNumberChar]
    rw [readDefault, serializeDefaultValue, head_split_word word.1 word.2]
    exact iff_of_true (parse_boolean N value) trivial
  | object members proper =>
    rw [readDefault, serializeDefaultValue, Kept]
    cases whole : isWhole none ((Json.object members).text N.toNumerals) with
    | true =>
      have plain : ∀ char ∈ ((Json.object members).text N.toNumerals).head?, isQuote char = false := by
        intro char first
        obtain rfl := Option.some.inj first
        rfl
      rw [head_split_whole (solid_object N members) plain whole]
      refine iff_of_true ?_ rfl
      exact (parse_json N _).trans (by rw [parseJson_text proper]; rfl)
    | false =>
      obtain ⟨left, read, lighter⟩ := weight_readDefault whole
      rw [read]
      refine iff_of_false (fun same => ?_) Bool.false_ne_true
      have parsed := (parse_json N left).symm.trans same
      cases found : parseJson N.toNumerals left with
      | none => simp [found, DefaultValue.value] at parsed
      | some json =>
        rw [found] at parsed
        simp only [DefaultValue.value, Option.some.injEq, Value.json.injEq] at parsed
        have bound := weight_parseJson proper (parsed ▸ found)
        omega

/-- The condition for reading back: a description that is given where more follows it and has no
backslash before a quote or a backslash, no `$fromAI(` in it or in the text of the default, and,
where the default is of the type, one that is kept. -/
def Transparent (spec : CallSpec ν) : Prop :=
  (spec.description = none → spec.type = .string ∧ spec.defaultValue = none) ∧
    (∀ str, spec.description = some str → Unescaped str ∧ ¬ HasCall str) ∧
    ∀ value, spec.defaultValue = some value → ¬ HasCall (value.text N) ∧ (value.type = spec.type → Kept N value)

theorem extractCall_written (spec : CallSpec ν) :
    extractCall N ([',', ' '].intercalate (callArguments N spec) ++ ") \x7d\x7d".toList) =
      .ok (writtenCall N spec) := by
  have closing : ") \x7d\x7d".toList = ')' :: [' ', '\x7d', '\x7d'] := rfl
  rw [extractCall, closing, scanCall_written]
  simp only
  rw [parseArguments_written]
  rfl

theorem extractFromAICalls_written (spec : CallSpec ν) (call : FromAIArgument ν) :
    extractFromAICalls N (createFromAIExpression N spec) = .ok [call] ↔
      ¬ HasCall ([',', ' '].intercalate (callArguments N spec) ++ ") \x7d\x7d".toList) ∧ call = writtenCall N spec := by
  rw [extractFromAICalls, callTexts_written, mapM_cons, extractCall_written, ← callTexts_eq_nil]
  cases callTexts ([',', ' '].intercalate (callArguments N spec) ++ ") \x7d\x7d".toList) with
  | nil =>
    change Except.ok [writtenCall N spec] = Except.ok [call] ↔ _
    simp [eq_comm]
  | cons text texts =>
    refine iff_of_false ?_ (by simp)
    rw [mapM_cons]
    cases extractCall N text with
    | error _ => rintro ⟨⟩
    | ok _ =>
      cases texts.mapM (extractCall N) with
      | error _ => rintro ⟨⟩
      | ok _ => rintro ⟨⟩

theorem description_written (spec : CallSpec ν) : (writtenCall N spec).description = spec.description ↔
      (spec.description = none → spec.type = .string ∧ spec.defaultValue = none) ∧
        ∀ str, spec.description = some str → Unescaped str := by
  rw [writtenCall]
  cases spec.description with
  | none =>
    cases spec.defaultValue <;> by_cases typed : spec.type = .string <;> simp [typed]
  | some str => simp [← unescape_eq_self]

/-- What is written is read back exactly under the condition. -/
theorem extractFromAICalls_createFromAIExpression (spec : CallSpec ν) : ReadsBack N spec ↔ Transparent N spec := by
  have default : (∀ value, spec.defaultValue = some value → value.type = spec.type →
      (writtenCall N spec).defaultValue = some value.value) ↔
      ∀ value, spec.defaultValue = some value → value.type = spec.type → Kept N value := by
    refine forall_congr' fun value => forall_congr' fun given => forall_congr' fun same => ?_
    rw [← parseDefaultValue_kept, writtenCall, given, same]
    rfl
  have calls := hasCall_written N spec
  simp only [ReadsBack, extractFromAICalls_written]
  constructor
  · rintro ⟨_, ⟨free, rfl⟩, -, description, -, kept⟩
    rw [calls, not_or] at free
    obtain ⟨named, escaped⟩ := (description_written N spec).mp description
    refine ⟨named, fun str given => ⟨escaped str given, fun call => free.1 ⟨str, given, call⟩⟩,
      fun value given => ⟨fun call => free.2 ⟨value, given, call⟩, default.mp kept value given⟩⟩
  · rintro ⟨named, described, kept⟩
    refine ⟨_, ⟨?_, rfl⟩, rfl, (description_written N spec).mpr ⟨named, fun str given =>
      (described str given).1⟩, rfl, default.mpr fun value given => (kept value given).2⟩
    rw [calls]
    rintro (⟨str, given, call⟩ | ⟨value, given, call⟩)
    · exact (described str given).2 call
    · exact (kept value given).1 call

def safeNumber (text : List Char) : JsNumber {x // IsSafeInteger x} :=
  if text = "NaN".toList then .nan
  else if text = "Infinity".toList then .infinity false
  else if text = "-Infinity".toList then .infinity true
  else
    match safeIntegers.ofText text with
    | some (.finite value) => .finite value
    | _ => .nan

theorem safeNumber_text (n : JsNumber {x // IsSafeInteger x}) : safeNumber (n.text safeIntegers) = n := by
  have apart : "Infinity".toList ≠ "NaN".toList ∧ "-Infinity".toList ≠ "NaN".toList ∧
      "-Infinity".toList ≠ "Infinity".toList := by decide
  cases n with
  | nan => exact if_pos rfl
  | infinity negative =>
    cases negative
    · exact (if_neg apart.1).trans (if_pos rfl)
    · exact (if_neg apart.2.1).trans ((if_neg apart.2.2).trans (if_pos rfl))
  | finite value =>
    have word : ∀ char text, isNumeral char = false → char ∈ text → safeIntegers.toText value ≠ text := by
      rintro char text other member rfl
      exact absurd ((safeIntegers.numeral value char member).symm.trans other) (by decide)
    have known := safeIntegers.ofText_toText value
    have text : (JsNumber.finite value).text safeIntegers = safeIntegers.toText value := rfl
    rw [text, safeNumber, if_neg (word 'N' _ rfl (by decide)), if_neg (word 'I' _ rfl (by decide)),
      if_neg (word 'I' _ rfl (by decide)), known]

def safeNumbers : Numbers {x // IsSafeInteger x} where
  toNumerals := safeIntegers
  number := safeNumber
  number_text := safeNumber_text

/-- The backslash before an apostrophe is lost. -/
theorem escaped_description_lost :
    ¬ ReadsBack safeNumbers { key := "k".toList, description := some "a\\'b".toList } := by
  rintro ⟨_, read, -, description, -, -⟩
  obtain ⟨-, rfl⟩ := (extractFromAICalls_written _ _ _).mp read
  obtain ⟨-, escaped⟩ := (description_written _ _).mp description
  exact escaped _ rfl '\'' mem_cons_self ⟨['a'], ['b'], rfl⟩

end RoundTrip

end N8n.FromAI
