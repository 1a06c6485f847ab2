import N8n.ExpressionChunks

/-! The splitter of the expression extensions. A bracket is escaped when a backslash stands in
front of it. Text that was collected is left behind where the expression ends right after an
escaped bracket, and so is an opening bracket at the end. -/

namespace N8n.Expressions.ExpressionParser

open DoubledBrackets List

/-- The first match of `(?<escape>\|)(?<brackets>bb)`: its index and whether the escape is there. -/
def exec (b : Char) : (expr : List Char) → Option (ℕ × Bool)
  | [] => none
  | c :: rest =>
    if ['\\', b, b].isPrefixOf (c :: rest) then some (0, true)
    else if [b, b].isPrefixOf (c :: rest) then some (0, false)
    else (exec b rest).map fun found => (found.1 + 1, found.2)

def chunk : (searchingFor : Side) → (hasClosingBrackets : Bool) → (buffer : List Char) → ExpressionChunk
  | .opening, _, buffer => .text buffer
  | .closing, hasClosingBrackets, buffer => .code (escapeCode buffer) hasClosingBrackets

theorem exec_length {b : Char} {expr : List Char} {index : ℕ} {escape : Bool}
    (found : exec b expr = some (index, escape)) : index < expr.length := by
  induction expr generalizing index with
  | nil => cases found
  | cons c rest ih =>
    rw [exec] at found
    split_ifs at found
    · cases found
      exact Nat.succ_pos _
    · cases found
      exact Nat.succ_pos _
    · obtain ⟨⟨i, e⟩, later, same⟩ := Option.map_eq_some_iff.mp found
      cases same
      exact Nat.succ_lt_succ (ih later)

def splitFrom (searchingFor : Side) (buffer expr : List Char) : List ExpressionChunk :=
  if expr = [] then []
  else
    match _found : exec (bracket searchingFor) expr with
    | none => [chunk searchingFor false (buffer ++ expr)]
    | some (index, true) =>
      splitFrom searchingFor (buffer ++ expr.take (index + 3)) (expr.drop (index + 3))
    | some (index, false) =>
      chunk searchingFor true (buffer ++ expr.take index) ::
        splitFrom searchingFor.other [] (expr.drop (index + 2))
termination_by expr.length
decreasing_by
  all_goals
    have := exec_length _found
    simp only [length_drop]
    omega

def splitExpression (expression : List Char) : List ExpressionChunk :=
  if expression = [] then [.text []] else splitFrom .opening [] expression

/-! ## The sections that it reads -/

def endsInBackslash (before : List Char) : Bool := before.getLast? = some '\\'

section Read

variable {b : Char} {expr before after buffer : List Char} {side : Side} {c : Char} {escape : Bool} {index : ℕ}
  {rest : List Char}

theorem exec_none (clean : cutPair b expr = none) : exec b expr = none := by
  rw [cutPair_none_iff] at clean
  induction expr with
  | nil => rfl
  | cons c rest ih =>
    have escaped : ¬['\\', b, b].isPrefixOf (c :: rest) := fun here => by
      obtain ⟨after, split⟩ := isPrefixOf_iff_prefix.mp here
      exact clean ['\\'] after split.symm
    have plain : ¬[b, b].isPrefixOf (c :: rest) := fun here =>
      (isPrefixOf_pair here).elim (clean [])
    have later := ih fun x y split => clean (c :: x) y (by rw [split]; rfl)
    rw [exec, if_neg escaped, if_neg plain, later]
    rfl

/-- A match goes on past a character when neither pattern starts there. -/
theorem exec_skip (escaped : ¬['\\', b, b].isPrefixOf (c :: rest)) (plain : ¬[b, b].isPrefixOf (c :: rest))
    (found : exec b rest = some (index, escape)) : exec b (c :: rest) = some (index + 1, escape) := by
  rw [exec, if_neg escaped, if_neg plain, found]
  rfl

theorem exec_cons (clean : Clean b (c :: rest)) (apart : rest = [] → c ≠ '\\')
    (found : exec b (rest ++ b :: b :: after) = some (index, escape)) :
    exec b (c :: rest ++ b :: b :: after) = some (index + 1, escape) := by
  refine exec_skip (fun here => ?_) (fun here => ?_) found
  · obtain ⟨tail, split⟩ := isPrefixOf_iff_prefix.mp here
    have first : '\\' = c := (List.cons.inj split).1
    exact apart (nil_of_pair (clean.tail) ⟨tail, (List.cons.inj split).2⟩) first.symm
  · exact absurd (nil_of_pair clean (List.isPrefixOf_iff_prefix.mp here)) (cons_ne_nil _ _)

theorem exec_free (other : b ≠ '\\') (clean : Clean b before)
    (free : endsInBackslash before = false) (after : List Char) :
    exec b (before ++ b :: b :: after) = some (before.length, false) := by
  induction before with
  | nil => simp [exec, other.symm]
  | cons c rest ih =>
    refine exec_cons clean ?_ (ih (clean.tail) ?_)
    · rintro rfl
      simpa [endsInBackslash] using free
    · cases rest with
      | nil => rfl
      | cons y rest => simpa [endsInBackslash] using free

theorem exec_escaped (clean : Clean b (before ++ ['\\'])) (after : List Char) :
    exec b (before ++ ['\\'] ++ b :: b :: after) = some (before.length, true) := by
  induction before with
  | nil => simp [exec]
  | cons c rest ih => exact exec_cons clean (by simp) (ih (clean.tail))

theorem bracket_ne_backslash (side : Side) : bracket side ≠ '\\' := by cases side <;> decide

theorem splitFrom_last (some_ : expr ≠ []) (clean : cutPair (bracket side) expr = none) :
    splitFrom side buffer expr = [chunk side false (buffer ++ expr)] := by
  rw [splitFrom, if_neg some_]
  split <;> simp_all [exec_none clean]

theorem splitFrom_escape (cut : cutPair (bracket side) expr = some (before, after))
    (guarded : endsInBackslash before = true) : splitFrom side buffer expr =
      splitFrom side (buffer ++ before ++ [bracket side, bracket side]) after := by
  have clean := cutPair_before cut
  obtain rfl := cutPair_some cut
  obtain ⟨start, rfl⟩ := getLast?_eq_some_iff.mp (of_decide_eq_true guarded)
  have found := exec_escaped clean after
  rw [splitFrom, if_neg (by simp)]
  split
  · simp_all
  · rename_i index same
    cases found.symm.trans same
    have shape : start ++ ['\\'] ++ bracket side :: bracket side :: after =
        (start ++ ['\\', bracket side, bracket side]) ++ after := by simp
    rw [shape, take_left' (by simp), drop_left' (by simp)]
    simp
  · simp_all

theorem splitFrom_close (cut : cutPair (bracket side) expr = some (before, after))
    (free : endsInBackslash before = false) : splitFrom side buffer expr =
      chunk side true (buffer ++ before) :: splitFrom side.other [] after := by
  have clean := cutPair_before cut
  obtain rfl := cutPair_some cut
  have found := exec_free (bracket_ne_backslash side) clean free after
  rw [splitFrom, if_neg (by simp)]
  split
  · simp_all
  · simp_all
  · rename_i index same
    cases found.symm.trans same
    have shape : before ++ bracket side :: bracket side :: after =
        (before ++ [bracket side, bracket side]) ++ after := by simp
    rw [take_left' rfl, shape, drop_left' (by simp)]

theorem splitFrom_eq (side : Side) (expr : List Char) :
    splitFrom side [] expr = (readSections bracket endsInBackslash side expr).filterMap fun s =>
      if s.Cut then none else some (chunk s.side s.closed (s.text bracket)) :=
  loop_eq_readSections chunk splitFrom (fun side buffer => by rw [splitFrom, if_pos rfl]) (fun _ _ _ => splitFrom_last)
    (fun _ _ _ _ _ => splitFrom_escape) (fun _ _ _ _ _ => splitFrom_close) side expr

end Read

/-! ## Splitting and joining -/

section RoundTrip

variable {s : Section Char} {expression : List Char}

def sections (expression : List Char) : List (Section Char) :=
  readSections bracket endsInBackslash .opening expression

def BraceBefore (s : Section Char) : Prop := ∃ piece ∈ s.escaped.head?, ['}', '\\'] <:+ piece

/-- No brackets stand open or escaped at the end, and no brace before the first escaped brackets of
a piece of code. -/
def RoundTrips (expression : List Char) : Prop := ∀ s ∈ sections expression,
  (s.Cut → s.side = .opening ∧ s.escaped = []) ∧ (s.side = .closing → ¬BraceBefore s)

theorem join_split (expression : List Char) :
    joinExpression (splitExpression expression) = (sections expression).flatMap (joined chunk) := by
  rw [splitExpression, sections]
  split_ifs with empty
  · rw [empty, flatMap_joined_nil]
    rfl
  · rw [splitFrom_eq, joinExpression_filterMap]

theorem cutPair_text (member : s ∈ sections expression) {piece : List Char} (first : s.escaped.head? = some piece) :
    ∃ before after, piece = before ++ ['\\'] ∧
      cutPair (bracket s.side) (s.text bracket) = some (piece, after) := by
  obtain ⟨later, split⟩ := head?_eq_some_iff.mp first
  obtain ⟨guarded, clean⟩ := (mem_readSections .opening expression member).1 piece (by simp [split])
  obtain ⟨before, rfl⟩ := getLast?_eq_some_iff.mp (of_decide_eq_true guarded)
  refine ⟨before, content (bracket s.side) later s.tail, rfl, ?_⟩
  rw [Section.text, split, content, flatMap_cons, append_assoc, append_assoc]
  exact cutPair_append clean _

theorem escape_text (member : s ∈ sections expression) (code : s.side = .closing) :
    (escapeTmplExpression (escapeCode (s.text bracket))).length = (s.text bracket).length ∧
      (escapeTmplExpression (escapeCode (s.text bracket)) = s.text bracket ↔ ¬BraceBefore s) := by
  cases first : s.escaped.head? with
  | none =>
    have clean : cutPair '}' (s.text bracket) = none := by
      have tail := (mem_readSections .opening expression member).2.1
      simp only [code, bracket] at tail
      simpa [Section.text, content, head?_eq_none_iff.mp first] using tail
    rw [escape_escapeCode_clean clean]
    simp [BraceBefore, first]
  | some piece =>
    obtain ⟨before, after, rfl, cut⟩ := cutPair_text member first
    simp only [code, bracket] at cut
    have whole := cutPair_some cut
    rw [escape_escapeCode cut]
    split
    · rename_i brace
      obtain ⟨start, rfl⟩ := getLast?_eq_some_iff.mp brace
      have there : BraceBefore s := ⟨_, first, start, by simp⟩
      simp only [there, not_true_eq_false, iff_false]
      rw [whole]
      constructor
      · simp
      · simp
    · rename_i brace
      refine ⟨rfl, iff_of_true rfl ?_⟩
      rintro ⟨_, same, start, split⟩
      obtain rfl := Option.some.inj (first.symm.trans same)
      have same : start ++ ['}'] ++ ['\\'] = before ++ ['\\'] := by simpa using split
      rw [← append_cancel_right same] at brace
      exact brace getLast?_concat

theorem joined_iff (member : s ∈ sections expression) :
    (joined chunk s).length ≤ (s.source bracket).length ∧ (joined chunk s = s.source bracket ↔
        (s.Cut → s.side = .opening ∧ s.escaped = []) ∧ (s.side = .closing → ¬BraceBefore s)) := by
  by_cases cut : s.Cut
  · have nothing := cut.source_eq_nil bracket
    have lost : joined chunk s = [] := by simp [joined, cut]
    rw [lost, eq_comm, nothing]
    refine ⟨Nat.zero_le _, ⟨fun kept => ⟨fun _ => kept, fun code => ?_⟩, fun good => good.1 cut⟩⟩
    exact absurd (kept.1.symm.trans code) (by decide)
  · cases side : s.side with
    | opening => simp [joined, cut, chunk, joinChunk, Section.source, side]
    | closing =>
      obtain ⟨length, same⟩ := escape_text member side
      constructor
      · simp only [joined, cut, chunk, joinChunk, Section.source, side, bracket, if_false, length_append,
          length_cons, length]
        simp only [length_nil]
        omega
      · simp only [joined, cut, chunk, joinChunk, Section.source, side, bracket, if_false, ← same, false_imp_iff,
          true_and, true_imp_iff]
        simp

/-- An expression comes back from splitting and joining unless its end stands right behind opening
or escaped brackets, or a brace stands before the first escaped closing brackets of its code. -/
theorem joinExpression_splitExpression_iff (expression : List Char) :
    joinExpression (splitExpression expression) = expression ↔ RoundTrips expression := by
  have whole : (sections expression).flatMap (Section.source bracket) = expression :=
    readSections_source .opening expression
  conv_lhs => rhs; rw [← whole]
  rw [join_split, flatMap_eq_iff fun s member => (joined_iff member).1]
  exact forall₂_congr fun s member => (joined_iff member).2

/-- An expression that is one escaped pair of brackets is lost. -/
theorem escapedEnd_lost : splitExpression ['\\', '{', '{'] = [] ∧
    joinExpression (splitExpression ['\\', '{', '{']) ≠ ['\\', '{', '{'] := by
  have lost : splitExpression ['\\', '{', '{'] = [] := by
    simp [splitExpression, splitFrom, exec, bracket]
  exact ⟨lost, by rw [lost]; simp [joinExpression]⟩

end RoundTrip

end N8n.Expressions.ExpressionParser
