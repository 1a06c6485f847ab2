import N8n.ExpressionChunks

/-! The splitter of the expression evaluator. Brackets are escaped by an odd number of backslashes
in front of them, and a text in front of code has its doubled backslashes reduced. Apart from
backslashes nothing is lost, unless the end of the expression stands right behind brackets that
open a piece of code or are escaped. -/

namespace N8n.Expressions.ExpressionSplitter

open DoubledBrackets List

/-- `text.replace(/\\\\/g, '\\')`: the pairs from the left. -/
def normalizeBackslashes : List Char → List Char
  | '\\' :: '\\' :: rest => '\\' :: normalizeBackslashes rest
  | c :: rest => c :: normalizeBackslashes rest
  | [] => []

def exec (b : Char) : (expr : List Char) → Option ℕ
  | [] => none
  | c :: rest => if [b, b].isPrefixOf (c :: rest) then some 0 else (exec b rest).map (· + 1)

def backslashCount (beforeMatch : List Char) : ℕ := (beforeMatch.reverse.takeWhile (· = '\\')).length

def isEscaped (beforeMatch : List Char) : Bool := backslashCount beforeMatch % 2 = 1

def chunk : (searchingFor : Side) → (hasClosingBrackets : Bool) → (buffer : List Char) → ExpressionChunk
  | .opening, true, buffer => .text (normalizeBackslashes buffer)
  | .opening, false, buffer => .text buffer
  | .closing, hasClosingBrackets, buffer => .code (escapeCode buffer) hasClosingBrackets

theorem exec_length {b : Char} {expr : List Char} {index : ℕ} (found : exec b expr = some index) :
    index < expr.length := by
  induction expr generalizing index with
  | nil => cases found
  | cons c rest ih =>
    rw [exec] at found
    split_ifs at found
    · cases found
      exact Nat.succ_pos _
    · obtain ⟨i, later, rfl⟩ := Option.map_eq_some_iff.mp found
      exact Nat.succ_lt_succ (ih later)

def splitFrom (searchingFor : Side) (buffer expr : List Char) : List ExpressionChunk :=
  if expr = [] then []
  else
    match _found : exec (bracket searchingFor) expr with
    | none => [chunk searchingFor false (buffer ++ expr)]
    | some index =>
      if isEscaped (expr.take index) then
        splitFrom searchingFor (buffer ++ expr.take (index + 2)) (expr.drop (index + 2))
      else
        chunk searchingFor true (buffer ++ expr.take index) ::
          splitFrom searchingFor.other [] (expr.drop (index + 2))
termination_by expr.length
decreasing_by
  all_goals
    have := exec_length _found
    simp only [length_drop]
    omega

def splitExpression (expression : List Char) : List ExpressionChunk :=
  if expression = [] then [.text []] else splitFrom .opening [] expression

/-! ## The sections that it reads -/

section Read

variable {b : Char} {expr before after buffer : List Char} {side : Side}

theorem exec_none (clean : cutPair b expr = none) : exec b expr = none := by
  rw [cutPair_none_iff] at clean
  induction expr with
  | nil => rfl
  | cons c rest ih =>
    have plain : ¬[b, b].isPrefixOf (c :: rest) := fun here =>
      (isPrefixOf_pair here).elim (clean [])
    have later := ih fun x y split => clean (c :: x) y (by rw [split]; rfl)
    rw [exec, if_neg plain, later]
    rfl

theorem exec_some (clean : Clean b before) (after : List Char) :
    exec b (before ++ b :: b :: after) = some before.length := by
  induction before with
  | nil => simp [exec]
  | cons c rest ih =>
    have plain : ¬[b, b].isPrefixOf (c :: (rest ++ b :: b :: after)) := fun here =>
      absurd (nil_of_pair clean (List.isPrefixOf_iff_prefix.mp here)) (cons_ne_nil _ _)
    rw [cons_append, exec, if_neg plain, ih clean.tail]
    rfl

theorem splitFrom_last (some_ : expr ≠ []) (clean : cutPair (bracket side) expr = none) :
    splitFrom side buffer expr = [chunk side false (buffer ++ expr)] := by
  rw [splitFrom, if_neg some_]
  split
  · rfl
  · simp_all [exec_none clean]

theorem splitFrom_some (cut : cutPair (bracket side) expr = some (before, after)) :
    splitFrom side buffer expr =
      if isEscaped before then splitFrom side (buffer ++ before ++ [bracket side, bracket side]) after
      else chunk side true (buffer ++ before) :: splitFrom side.other [] after := by
  have clean := cutPair_before cut
  obtain rfl := cutPair_some cut
  have found := exec_some clean after
  have shape : before ++ bracket side :: bracket side :: after =
      (before ++ [bracket side, bracket side]) ++ after := by simp
  rw [splitFrom, if_neg (by simp)]
  split
  · rename_i missed
    rw [found] at missed
    cases missed
  · rename_i index same
    obtain rfl := Option.some.inj (found.symm.trans same)
    rw [take_left' rfl, shape, take_left' (by simp), drop_left' (by simp), append_assoc]

theorem splitFrom_eq (side : Side) (expr : List Char) :
    splitFrom side [] expr = (readSections bracket isEscaped side expr).filterMap fun s =>
      if s.Cut then none else some (chunk s.side s.closed (s.text bracket)) := by
  refine loop_eq_readSections chunk splitFrom (fun side buffer => by rw [splitFrom, if_pos rfl])
    (fun _ _ _ => splitFrom_last) (fun side buffer l before after cut guarded => ?_)
    (fun side buffer l before after cut free => ?_) side expr
  · rw [splitFrom_some cut, if_pos guarded]
  · rw [splitFrom_some cut, if_neg (by simp [free])]

end Read

/-! ## Nothing is lost -/

section Kept

variable {s : Section Char} {l : List Char}

def sections (expression : List Char) : List (Section Char) :=
  readSections bracket isEscaped .opening expression

def deleteBackslashes (l : List Char) : List Char := l.filter (· ≠ '\\')

def Alternate : Side → List ExpressionChunk → Prop
  | _, [] => True
  | .opening, .text _ :: rest => Alternate .closing rest
  | .closing, .code _ _ :: rest => Alternate .opening rest
  | .opening, .code _ _ :: _ => False
  | .closing, .text _ :: _ => False

structure Keeps (expression : List Char) (chunks : List ExpressionChunk) : Prop where
  nonempty : chunks ≠ []
  alternate : Alternate .opening chunks
  lastOnly : ∀ before text after, chunks = before ++ .code text false :: after → after = []
  joined : deleteBackslashes (joinExpression chunks) = deleteBackslashes expression

/-- No brackets stand open or escaped at the end. -/
def Finished (expression : List Char) : Prop :=
  ∀ s ∈ sections expression, s.Cut → s.side = .opening ∧ s.escaped = []

theorem deleteBackslashes_normalize : deleteBackslashes (normalizeBackslashes l) = deleteBackslashes l := by
  induction l using normalizeBackslashes.induct with
  | case1 rest ih => simpa [normalizeBackslashes, deleteBackslashes] using ih
  | case2 c rest apart ih =>
    rw [normalizeBackslashes.eq_2 c rest apart]
    simp only [deleteBackslashes, filter_cons] at ih ⊢
    rw [ih]
  | case3 => rfl

theorem deleteBackslashes_escape : deleteBackslashes (escapeTmplExpression (escapeCode l)) = deleteBackslashes l := by
  rw [deleteBackslashes, escapeTmplExpression, filter_replaceFirst (by simp) (by decide), escapeCode,
    filter_replaceFirst (by simp) (by decide)]
  rfl

theorem deleteBackslashes_append (a b : List Char) :
    deleteBackslashes (a ++ b) = deleteBackslashes a ++ deleteBackslashes b := filter_append ..

theorem deleteBackslashes_source (cut : s.Cut) :
    deleteBackslashes (s.source bracket) = [] ↔ s.side = .opening ∧ s.escaped = [] := by
  constructor
  · intro none
    have only : ∀ c ∈ s.source bracket, c = '\\' := by
      simpa [deleteBackslashes, filter_eq_nil_iff] using none
    cases side : s.side with
    | closing => exact absurd (only '{' (by simp [Section.source, side, bracket])) (by decide)
    | opening =>
      refine ⟨rfl, ?_⟩
      by_contra some_
      obtain ⟨piece, later, split⟩ := exists_cons_of_ne_nil some_
      have there : '{' ∈ s.source bracket := by
        simp [Section.source, side, Section.text, content, split, bracket]
      exact absurd (only '{' there) (by decide)
  · intro kept
    rw [(cut.source_eq_nil bracket).mpr kept]
    rfl

theorem deleteBackslashes_joined (whole : ¬s.Cut) :
    deleteBackslashes (joined chunk s) = deleteBackslashes (s.source bracket) := by
  cases side : s.side with
  | opening =>
    cases closed : s.closed with
    | true => simp [joined, whole, chunk, joinChunk, Section.source, side, closed, deleteBackslashes_normalize]
    | false => simp [joined, whole, chunk, joinChunk, Section.source, side, closed]
  | closing =>
    have code : deleteBackslashes (escapeTmplExpression (escapeCode (s.text bracket)) ++
        if s.closed then ['}', '}'] else []) =
        deleteBackslashes (s.text bracket ++ if s.closed then ['}', '}'] else []) := by
      rw [deleteBackslashes_append, deleteBackslashes_escape, deleteBackslashes_append]
    simpa [joined, whole, chunk, joinChunk, Section.source, side, bracket, deleteBackslashes] using code

theorem joined_iff (s : Section Char) :
    (deleteBackslashes (joined chunk s)).length ≤ (deleteBackslashes (s.source bracket)).length ∧
      (deleteBackslashes (joined chunk s) = deleteBackslashes (s.source bracket) ↔
        (s.Cut → s.side = .opening ∧ s.escaped = [])) := by
  by_cases cut : s.Cut
  · have lost : deleteBackslashes (joined chunk s) = [] := by simp [joined, cut, deleteBackslashes]
    rw [lost, eq_comm, deleteBackslashes_source cut]
    exact ⟨Nat.zero_le _, fun kept _ => kept, fun kept => kept cut⟩
  · have same := deleteBackslashes_joined cut
    exact ⟨Nat.le_of_eq (by rw [same]), iff_of_true same fun there => absurd there cut⟩

theorem join_split (expression : List Char) :
    joinExpression (splitExpression expression) = (sections expression).flatMap (joined chunk) := by
  rw [splitExpression, sections]
  split_ifs with empty
  · rw [empty, flatMap_joined_nil]
    rfl
  · rw [splitFrom_eq, joinExpression_filterMap]

theorem deleteBackslashes_flatMap (f : Section Char → List Char) (l : List (Section Char)) :
    deleteBackslashes (l.flatMap f) = l.flatMap fun s => deleteBackslashes (f s) := by
  simp [deleteBackslashes, filter_flatMap]

theorem joined_split_iff (expression : List Char) :
    deleteBackslashes (joinExpression (splitExpression expression)) = deleteBackslashes expression ↔
      Finished expression := by
  have whole : (sections expression).flatMap (Section.source bracket) = expression :=
    readSections_source .opening expression
  conv_lhs => rhs; rw [← whole]
  rw [join_split, deleteBackslashes_flatMap, deleteBackslashes_flatMap, flatMap_eq_iff fun s _ => (joined_iff s).1]
  exact forall₂_congr fun s _ => (joined_iff s).2

theorem splitFrom_alternate (side : Side) (l : List Char) : Alternate side (splitFrom side [] l) := by
  rw [splitFrom_eq]
  induction side, l using readSections_induction bracket isEscaped with
  | last side l unclosed =>
    rw [readSections_last unclosed]
    by_cases cut : (readSection isEscaped (bracket side) l).2.1 = []
    · simp [Section.Cut, cut, Alternate]
    · cases side <;> simp [Section.Cut, cut, chunk, Alternate]
  | more side l rest closed ih =>
    rw [readSections_more closed]
    cases side <;> simpa [Section.Cut, chunk, Alternate, Side.other] using ih

theorem splitFrom_lastOnly (side : Side) (l : List Char) {before after : List ExpressionChunk} {text : List Char}
    (split : splitFrom side [] l = before ++ .code text false :: after) : after = [] := by
  rw [splitFrom_eq] at split
  induction side, l using readSections_induction bracket isEscaped generalizing before with
  | last side l unclosed =>
    rw [readSections_last unclosed] at split
    have length := congrArg List.length split
    have short := length_filterMap_le (fun s : Section Char =>
      if s.Cut then none else some (chunk s.side s.closed (s.text bracket)))
      [⟨side, (readSection isEscaped (bracket side) l).1, (readSection isEscaped (bracket side) l).2.1, false⟩]
    simp only [length_append, length_cons, length_nil] at length short
    exact length_eq_zero_iff.mp (by omega)
  | more side l rest closed ih =>
    rw [readSections_more closed] at split
    simp only [Section.Cut, Bool.true_eq_false, and_false, if_false, filterMap_cons] at split
    cases before with
    | nil => cases side <;> simp [chunk] at split
    | cons first before => exact ih (List.cons.inj split).2

theorem splitExpression_ne_nil {expression : List Char} (finished : Finished expression) :
    splitExpression expression ≠ [] := by
  unfold splitExpression
  split
  · simp
  · rename_i some_
    rw [splitFrom_eq]
    intro none
    have whole : (sections expression).flatMap (Section.source bracket) = expression :=
      readSections_source .opening expression
    -- every section is cut, and what is cut has no text
    have cut : ∀ s ∈ sections expression, s.source bracket = [] := fun s member => by
      have lost := filterMap_eq_nil_iff.mp none s member
      have cut : s.Cut := by simpa using lost
      exact (cut.source_eq_nil bracket).mpr (finished s member cut)
    exact some_ (whole.symm.trans (flatMap_eq_nil_iff.mpr cut))

/-- The chunks of an expression keep its text, apart from backslashes, exactly when its end does
not stand right behind brackets that open a piece of code or are escaped. -/
theorem splitExpression_keeps_iff (expression : List Char) :
    Keeps expression (splitExpression expression) ↔ Finished expression := by
  refine ⟨fun kept => (joined_split_iff expression).mp kept.joined, fun finished => ?_⟩
  refine ⟨splitExpression_ne_nil finished, ?_, ?_, (joined_split_iff expression).mpr finished⟩
  · unfold splitExpression
    split
    · trivial
    · exact splitFrom_alternate .opening expression
  · intro before text after split
    unfold splitExpression at split
    split at split
    · cases before with
      | nil => cases split
      | cons first before => simp at split
    · exact splitFrom_lastOnly .opening expression split

/-- Nothing is left of an escaped pair of brackets. -/
theorem escapedBrackets_lost : splitExpression ['\\', '{', '{'] = [] ∧
    ¬Keeps ['\\', '{', '{'] (splitExpression ['\\', '{', '{']) := by
  have lost : splitExpression ['\\', '{', '{'] = [] := by
    simp [splitExpression, splitFrom, exec, bracket, isEscaped, backslashCount]
  exact ⟨lost, fun kept => kept.nonempty lost⟩

end Kept

end N8n.Expressions.ExpressionSplitter
