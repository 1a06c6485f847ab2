import N8n.PythonIndent
import N8n.PythonNesting

/-! The Python runner checks the code of a user as it is and runs it as the body of a function. -/

namespace N8n.WrapCode

open Python List

def EXECUTOR_USER_OUTPUT_KEY : String := "__n8n_internal_user_output__"

/-- `TaskExecutor._wrap_code` -/
def wrapCode (rawCode : List Char) : List Char :=
  let indentedCode := indent rawCode "    ".toList
  "def _user_function():\n".toList ++ indentedCode ++ "\n\n".toList ++ EXECUTOR_USER_OUTPUT_KEY.toList ++
    " = _user_function()".toList

def itemsOf (text : String) : List Item := text.toList.map fun char => if char = ' ' then .blank else .char char

def header : LogicalLine := { depth := 0, items := itemsOf "def _user_function():" }

def trailer : LogicalLine := { depth := 0, items := itemsOf "__n8n_internal_user_output__ = _user_function()" }

def deeper (line : LogicalLine) : LogicalLine := { line with depth := line.depth + 1 }

section Lines

variable {rawCode : List Char} {lines : List RawLine}

/-- In a line without open brackets or literals. -/
def inLine (items : List Item) (lines : List RawLine) : State := { start with items, lines }

def wordChar (char : Char) : Bool := identifierChar char && !isSpace char

theorem step_word {char : Char} (word : wordChar char = true) (items : List Item) (lines : List RawLine) :
    step (inLine items lines) char = some (inLine (.char char :: items) lines) := by
  have other : ∀ special, wordChar special = false → char ≠ special := by
    rintro special not rfl
    rw [word] at not
    cases not
  have filled : isSpace char = false := by
    rw [wordChar, Bool.and_eq_true, Bool.not_eq_true'] at word
    exact word.2
  rw [step, State.record, if_neg (by simp [inLine, start]), modeStep]
  simp only [inLine, start, map_nil, codeStep, filled, other '\n' (by decide), other ' ' (by decide),
    other '\t' (by decide), other '\x0c' (by decide), other '#' (by decide), other '\\' (by decide),
    other '"' (by decide), other '\'' (by decide), other '(' (by decide), other '[' (by decide), other '{' (by decide),
    other ')' (by decide), other ']' (by decide), other '}' (by decide), other ':' (by decide), other '!' (by decide),
    or_self, if_false, State.push, Bool.false_eq_true]

theorem run_word {word : List Char} (letters : word.all wordChar = true) (items : List Item) (lines : List RawLine) :
    run (inLine items lines) word = some (inLine ((word.map Item.char).reverse ++ items) lines) := by
  induction word generalizing items with
  | nil => rfl
  | cons char word ih =>
    rw [all_cons, Bool.and_eq_true] at letters
    rw [run_cons, step_word letters.1, Option.bind_some, ih letters.2, map_cons, reverse_cons,
      append_assoc]
    rfl

theorem run_header : run start "def _user_function():\n".toList = some (inLine [] [⟨[], header.items⟩]) := by
  rfl

theorem run_call {name function : List Char} {last : Char} (named : (name ++ [last]).all wordChar = true)
    (called : function.all wordChar = true) (lines : List RawLine) :
    run (inLine [] lines) (name ++ [last] ++ [' ', '=', ' '] ++ function ++ ['(', ')', '\n']) =
      some (inLine [] (⟨[], (name ++ [last]).map Item.char ++ [.blank, .char '=', .blank] ++ function.map Item.char ++
          [.char '(', .char ')']⟩ :: lines)) := by
  have left : run (inLine [] lines) (name ++ [last]) =
      some (inLine (.char last :: (name.map Item.char).reverse) lines) := by
    rw [run_word named, map_append, reverse_append, append_nil]
    rfl
  have middle : ∀ items, run (inLine (.char last :: items) lines) [' ', '=', ' '] =
      some (inLine (.blank :: .char '=' :: .blank :: .char last :: items) lines) := fun _ => rfl
  have right : ∀ items, run (inLine items lines) ['(', ')', '\n'] =
      some (inLine [] (⟨[], (.char ')' :: .char '(' :: items).reverse⟩ :: lines)) := fun _ => rfl
  rw [run_append, run_append, run_append, left, Option.bind_some, middle, Option.bind_some, run_word called,
    Option.bind_some, right]
  simp

theorem run_trailer (lines : List RawLine) :
    run (inLine [] lines) ("__n8n_internal_user_output__ = _user_function()".toList ++ ['\n']) =
      some (inLine [] (⟨[], trailer.items⟩ :: lines)) :=
  have named : ("__n8n_internal_user_output_".toList ++ ['_']).all wordChar = true := by decide
  have called : "_user_function".toList.all wordChar = true := by decide
  run_call named called lines

theorem translate_wrapCode (rawCode : List Char) : terminated (wrapCode rawCode) = "def _user_function():\n".toList ++
      (translateNewlines (indent rawCode "    ".toList ++ ['\n']) ++ ['\n'] ++
        ("__n8n_internal_user_output__ = _user_function()".toList ++ ['\n'])) := by
  have shape : ∀ {head inner feeds key call trailing : List Char}, feeds = ['\n', '\n'] → key ++ call = trailing →
      head ++ inner ++ feeds ++ key ++ call = head ++ ((inner ++ ['\n']) ++ ('\n' :: trailing)) := by
    rintro head inner _ key call _ rfl rfl
    simp
  have whole : wrapCode rawCode = "def _user_function():\n".toList ++ ((indent rawCode "    ".toList ++ ['\n']) ++
      ('\n' :: "__n8n_internal_user_output__ = _user_function()".toList)) :=
    shape (by decide) (by decide)
  have trailing : translateNewlines ('\n' :: "__n8n_internal_user_output__ = _user_function()".toList) =
      ['\n'] ++ "__n8n_internal_user_output__ = _user_function()".toList := by decide
  have translated : translateNewlines (wrapCode rawCode) = "def _user_function():\n".toList ++
      translateNewlines (indent rawCode "    ".toList ++ ['\n']) ++ ['\n'] ++
        "__n8n_internal_user_output__ = _user_function()".toList := by
    rw [whole, translateNewlines_plain (by decide), translateNewlines_append, trailing]
    · simp only [append_assoc]
    · intro last
      rw [List.getLast?_concat] at last
      exact absurd (Option.some.inj last) (by decide)
  have unended : ¬((translateNewlines (wrapCode rawCode)).getLast? = some '\n' ∧ ¬['\r', '\n'] <:+ wrapCode rawCode) := by
    rintro ⟨last, -⟩
    rw [translated, List.getLast?_append_of_ne_nil _ (by decide)] at last
    exact absurd last (by decide)
  refine (if_neg unended).trans ?_
  rw [translated]
  simp only [append_assoc]

theorem logicalLines_wrapCode (read : logicalLines rawCode = some lines) :
    ∃ lines', List.Forall₂ (LineRelated 4) lines lines' ∧
      logicalLines (wrapCode rawCode) = some (⟨[], header.items⟩ :: (lines' ++ [⟨[], trailer.items⟩])) := by
  obtain ⟨lines', related, inner⟩ := run_indent (show 0 < 4 by decide) read [⟨[], header.items⟩]
  refine ⟨lines', related, ?_⟩
  have text : '\x00' ∉ wrapCode rawCode := by
    have raw : '\x00' ∉ rawCode := by
      intro member
      rw [logicalLines, if_pos member] at read
      cases read
    have apart : ∀ {head inner feeds key call : List Char}, '\x00' ∉ head → '\x00' ∉ inner →
        '\x00' ∉ feeds ++ (key ++ call) → '\x00' ∉ head ++ inner ++ feeds ++ key ++ call := by
      intro head inner feeds key call first second third
      simp only [mem_append, not_or] at third ⊢
      exact ⟨⟨⟨⟨first, second⟩, third.1⟩, third.2.1⟩, third.2.2⟩
    refine apart (by decide) (fun member => ?_) (by decide)
    rcases mem_indent member with member | member
    · exact raw member
    · exact absurd member (by decide)
  have margin : "    ".toList = List.replicate 4 ' ' := by decide
  rw [logicalLines, if_neg text, translate_wrapCode, run_append, run_header, Option.bind_some, run_append, margin]
  have inner : run (inLine [] [⟨[], header.items⟩]) _ = some (inLine [] _) := inner
  rw [inner, Option.bind_some, run_trailer, Option.bind_some, finish, if_pos (by simp [inLine, start])]
  simp [inLine]

theorem tokens_wrapCode (read : logicalLines rawCode = some lines) :
    ∃ lines', List.Forall₂ (LineRelated 4) lines lines' ∧
      tokens (wrapCode rawCode) = (nesting [(0, 0)] (levels 4 lines)).map fun depths =>
        header :: (List.zipWith LogicalLine.mk depths (lines'.map RawLine.items) ++ [trailer]) := by
  obtain ⟨lines', related, wrapped⟩ := logicalLines_wrapCode read
  refine ⟨lines', related, ?_⟩
  have margin := levels_related related
  have outer : levels 0 (⟨[], header.items⟩ :: (lines' ++ [⟨[], trailer.items⟩])) =
      (0, 0) :: (levels 4 lines ++ [(0, 0)]) := by
    rw [← margin, levels, levels, map_cons, map_append]
    rfl
  rw [tokens, wrapped, Option.bind_some, outer, nesting, rooted_root.nest_root, Option.bind_some,
    nesting_snoc rooted_root, Option.map_map, Option.map_map]
  cases found : nesting [(0, 0)] (levels 4 lines) with
  | none => rfl
  | some depths =>
    have lengths : depths.length = (lines'.map RawLine.items).length := by
      rw [length_nesting found, ← margin, levels, length_map, length_map]
    simp only [Option.map_some, Function.comp, map_cons, map_append, map_nil, zipWith_cons_cons,
      zipWith_append lengths]
    rfl

end Lines

/-- Python's grammar. The statements of a text follow from its tokens. -/
structure Grammar (Statement : Type) where
  parse : List LogicalLine → Option (List Statement)
  functionDef : List Statement → Statement
  call : Statement

/-- The same lines, apart from their nesting and from spaces in the texts of literals. -/
def SameLines (lines lines' : List LogicalLine) : Prop :=
  List.Forall₂ (fun line line' : LogicalLine => List.Forall₂ (Item.Related Spaced) line.items line'.items) lines lines'

/-- What the parser does with a function definition, and that what it makes of a text shows how
the lines are nested and what the texts of the literals are. -/
structure Grammar.Documented {Statement : Type} (grammar : Grammar Statement) : Prop where
  block (body : List LogicalLine) (statements : List Statement) (nonempty : body ≠ [])
    (parsed : grammar.parse body = some statements) :
    grammar.parse (header :: (body.map deeper ++ [trailer])) = some [grammar.functionDef statements, grammar.call]
  expectedBlock : grammar.parse [header, trailer] = none
  faithful (lines lines' : List LogicalLine) (statements : List Statement)
    (parsed : grammar.parse lines = some statements) (parsed' : grammar.parse lines' = some statements)
    (same : SameLines lines lines') : lines = lines'

variable {Statement : Type} {grammar : Grammar Statement} {rawCode : List Char} {statements : List Statement}

/-- `ast.parse` -/
def astParse (grammar : Grammar Statement) (text : List Char) : Option (List Statement) :=
  (tokens text).bind grammar.parse

/-- There is a line, no literal goes on over a line break, and the lines nest in the margin as
they do without it. -/
structure Unharmed (lines : List RawLine) : Prop where
  nonempty : lines ≠ []
  unbroken : ∀ line ∈ lines, ∀ text, Item.text text ∈ line.items → hasBreak text = false
  nested : nesting [(0, 0)] (levels 4 lines) = (nesting [(0, 0)] (levels 0 lines)).map (List.map (· + 1))

section Blocks

theorem deeper_zipWith (depths : List ℕ) (items : List (List Item)) :
    (List.zipWith LogicalLine.mk depths items).map deeper = List.zipWith LogicalLine.mk (depths.map (· + 1)) items := by
  rw [map_zipWith, zipWith_map_left]
  rfl

theorem unzip_zipWith {depths : List ℕ} {items : List (List Item)} (lengths : depths.length = items.length) :
    (List.zipWith LogicalLine.mk depths items).map LogicalLine.depth = depths ∧
      (List.zipWith LogicalLine.mk depths items).map LogicalLine.items = items := by
  induction depths generalizing items with
  | nil =>
    obtain rfl := List.length_eq_zero_iff.mp lengths.symm
    exact ⟨rfl, rfl⟩
  | cons depth depths ih =>
    cases items with
    | nil => cases lengths
    | cons first items =>
      obtain ⟨left, right⟩ := ih (Nat.succ.inj lengths)
      exact ⟨congrArg _ left, congrArg _ right⟩

theorem sameLines_zipWith {depths depths' : List ℕ} {lines lines' : List RawLine}
    (related : List.Forall₂ (LineRelated 4) lines lines') (lengths : depths.length = depths'.length) :
    SameLines (List.zipWith LogicalLine.mk depths (lines.map RawLine.items))
      (List.zipWith LogicalLine.mk depths' (lines'.map RawLine.items)) := by
  induction related generalizing depths depths' with
  | nil =>
    rw [map_nil, zipWith_nil_right, zipWith_nil_right]
    exact .nil
  | cons first _ ih =>
    match depths, depths' with
    | [], [] => exact .nil
    | depth :: depths, depth' :: depths' =>
      refine .cons (first.items.imp fun item item' related => ?_) (ih (Nat.succ.inj lengths))
      cases related with
      | blank => exact .blank
      | char char => exact .char char
      | text stretched => exact .text stretched.1

theorem SameLines.framed {lines lines' : List LogicalLine} (same : SameLines lines lines') :
    SameLines (header :: (lines ++ [trailer])) (header :: (lines' ++ [trailer])) := by
  have refl : ∀ items, List.Forall₂ (Item.Related Spaced) items items := fun items =>
    List.forall₂_same.mpr fun item _ => .refl Spaced.refl item
  exact .cons (refl _) (rel_append same (.cons (refl _) .nil))

end Blocks

theorem astParse_eq_some : astParse grammar rawCode = some statements ↔ ∃ lines depths,
    logicalLines rawCode = some lines ∧ nesting [(0, 0)] (levels 0 lines) = some depths ∧
      grammar.parse (List.zipWith LogicalLine.mk depths (lines.map RawLine.items)) = some statements := by
  simp only [astParse, tokens, Option.bind_eq_some_iff, Option.map_eq_some_iff]
  constructor
  · rintro ⟨_, ⟨lines, read, depths, nested, rfl⟩, parsed⟩
    exact ⟨lines, depths, read, nested, parsed⟩
  · rintro ⟨lines, depths, read, nested, parsed⟩
    exact ⟨_, ⟨lines, read, depths, nested, rfl⟩, parsed⟩

theorem wrapCode_body_iff (documented : grammar.Documented) (accepted : astParse grammar rawCode = some statements) :
    astParse grammar (wrapCode rawCode) = some [grammar.functionDef statements, grammar.call] ↔
      ∃ lines, logicalLines rawCode = some lines ∧ Unharmed lines := by
  obtain ⟨lines, depths, read, nested, parsed⟩ := astParse_eq_some.mp accepted
  obtain ⟨lines', related, wrapped⟩ := tokens_wrapCode read
  have lengths : depths.length = lines.length := by rw [length_nesting nested, levels, length_map]
  have body : lines ≠ [] → List.zipWith LogicalLine.mk depths (lines.map RawLine.items) ≠ [] := by
    intro nonempty empty
    have whole := congrArg List.length (unzip_zipWith
      (show depths.length = (lines.map RawLine.items).length by rw [lengths, length_map])).2
    rw [empty, map_nil, length_nil, length_map] at whole
    exact nonempty (List.length_eq_zero_iff.mp whole.symm)
  rw [astParse, wrapped]
  constructor
  · intro same
    refine ⟨lines, read, ?_⟩
    rw [Option.bind_eq_some_iff] at same
    obtain ⟨_, found, same⟩ := same
    rw [Option.map_eq_some_iff] at found
    obtain ⟨depths', nested', rfl⟩ := found
    have lengths' : depths'.length = lines.length := by rw [length_nesting nested', levels, length_map]
    have nonempty : lines ≠ [] := by
      rintro rfl
      cases related
      rw [map_nil, zipWith_nil_right, nil_append, documented.expectedBlock] at same
      cases same
    have block := documented.block _ _ (body nonempty) parsed
    rw [deeper_zipWith] at block
    have equal := documented.faithful _ _ _ block same (sameLines_zipWith related (by simp [lengths, lengths'])).framed
    have inner := append_cancel_right (List.cons.inj equal).2
    obtain ⟨shifted, items⟩ := unzip_zipWith
      (show (depths.map (· + 1)).length = (lines.map RawLine.items).length by simp [lengths])
    obtain ⟨shifted', items'⟩ := unzip_zipWith
      (show depths'.length = (lines'.map RawLine.items).length by rw [lengths', length_map, related.length_eq])
    rw [inner] at shifted items
    refine ⟨nonempty, (lines_eq_iff related).mp (items'.symm.trans items), ?_⟩
    rw [nested', nested, Option.map_some, ← shifted, shifted']
  · rintro ⟨_, again, unharmed⟩
    obtain rfl := Option.some.inj (read.symm.trans again)
    rw [unharmed.nested, nested, Option.map_some, Option.map_some, Option.bind_some,
      (lines_eq_iff related).mpr unharmed.unbroken, ← deeper_zipWith]
    exact documented.block _ _ (body unharmed.nonempty) parsed

section Example

def statementsOf : List LogicalLine → List LogicalLine × List (List LogicalLine)
  | [] => ([], [])
  | line :: lines =>
    let (inner, statements) := statementsOf lines
    if line.depth = 0 then ([], (line :: inner) :: statements) else (line :: inner, statements)

def expectsBlock : List LogicalLine → Bool
  | [line] => line.items.getLast? == some (.char ':')
  | _ => false

def lineGrammar : Grammar (List LogicalLine) where
  parse lines :=
    let (inner, statements) := statementsOf lines
    if inner = [] ∧ statements.any expectsBlock = false then some statements else none
  functionDef statements := header :: statements.flatten.map deeper
  call := [trailer]

theorem statementsOf_flatten (lines : List LogicalLine) :
    (statementsOf lines).1 ++ (statementsOf lines).2.flatten = lines := by
  induction lines with
  | nil => rfl
  | cons line lines ih =>
    simp only [statementsOf]
    split <;> simp [ih]

theorem statementsOf_deeper (body : List LogicalLine) :
    statementsOf (body.map deeper ++ [trailer]) = (body.map deeper, [[trailer]]) := by
  induction body with
  | nil => rfl
  | cons line body ih =>
    rw [map_cons, cons_append, statementsOf, ih]
    rfl

theorem flatten_of_parse {lines : List LogicalLine} {statements : List (List LogicalLine)}
    (parsed : lineGrammar.parse lines = some statements) : statements.flatten = lines := by
  have whole := statementsOf_flatten lines
  simp only [lineGrammar] at parsed
  split at parsed
  · rename_i closed
    cases parsed
    rwa [closed.1, nil_append] at whole
  · cases parsed

theorem lineGrammar_documented : lineGrammar.Documented where
  block body statements nonempty parsed := by
    have whole := flatten_of_parse parsed
    have several : expectsBlock (header :: body.map deeper) = false := by
      cases body with
      | nil => exact absurd rfl nonempty
      | cons => rfl
    have last : expectsBlock [trailer] = false := by decide
    have found : statementsOf (header :: (body.map deeper ++ [trailer])) =
        ([], [header :: body.map deeper, [trailer]]) := by
      rw [statementsOf, statementsOf_deeper]
      rfl
    simp only [lineGrammar, found, any_cons, several, last, any_nil, Bool.or_self, and_self, if_true, whole]
  expectedBlock := by decide
  faithful lines lines' statements parsed parsed' _ := (flatten_of_parse parsed).symm.trans (flatten_of_parse parsed')

/-- One line without a literal. -/
theorem returnOne_kept : ∃ statements, astParse lineGrammar "return 1".toList = some statements ∧
    (astParse lineGrammar (wrapCode "return 1".toList) = some [lineGrammar.functionDef statements, lineGrammar.call] ↔
      ∃ lines, logicalLines "return 1".toList = some lines ∧ Unharmed lines) :=
  have accepted : astParse lineGrammar "return 1".toList = some [[⟨0, itemsOf "return 1"⟩]] := by decide
  ⟨_, accepted, wrapCode_body_iff lineGrammar_documented accepted⟩

/-- The second line of the literal gets the margin, and with it the text. -/
theorem twoLines_changed : ∃ statements, astParse lineGrammar "x = \"\"\"a\nb\"\"\"".toList = some statements ∧
    astParse lineGrammar (wrapCode "x = \"\"\"a\nb\"\"\"".toList) ≠
      some [lineGrammar.functionDef statements, lineGrammar.call] := by
  have accepted : astParse lineGrammar "x = \"\"\"a\nb\"\"\"".toList =
      some [[⟨0, itemsOf "x = \"\"\"" ++ .text ['a', '\n', 'b'] :: itemsOf "\"\"\""⟩]] := by decide
  exact ⟨_, accepted, by decide⟩

end Example

end N8n.WrapCode
