import N8n.ExpressionParser
import N8n.ExpressionSplitter

/-! The two splitters side by side. They take the same brackets for escaped where an even number
of backslashes in front of brackets is none, and emit the same texts where no text in front of
code has two backslashes in a row. -/

namespace N8n.Expressions

open DoubledBrackets List
open ExpressionParser (endsInBackslash)
open ExpressionSplitter (isEscaped normalizeBackslashes backslashCount)

def ExpressionChunk.typeAndText : ExpressionChunk → Bool × List Char
  | .text content => (true, content)
  | .code content _ => (false, content)

def Agree (one two : List ExpressionChunk) : Prop :=
  one.map ExpressionChunk.typeAndText = two.map ExpressionChunk.typeAndText

/-- Every escape is one for both splitters, and a text in front of code has no doubled backslash. -/
def Plain (s : Section Char) : Prop :=
  (∀ piece ∈ s.escaped, isEscaped piece = true) ∧
    (s.side = .opening → s.closed = true → ¬['\\', '\\'] <:+: s.text bracket)

section Backslashes

variable {l before : List Char}

theorem isEscaped_ends (escaped : isEscaped before = true) : endsInBackslash before = true := by
  cases last : before.getLast? with
  | none =>
    rw [getLast?_eq_none_iff.mp last] at escaped
    simp [isEscaped, backslashCount] at escaped
  | some c =>
    obtain ⟨start, rfl⟩ := getLast?_eq_some_iff.mp last
    by_cases backslash : c = '\\'
    · simp [endsInBackslash, backslash]
    · simp [isEscaped, backslashCount, backslash] at escaped

theorem normalizeBackslashes_length_le (l : List Char) : (normalizeBackslashes l).length ≤ l.length := by
  induction l using N8n.Expressions.ExpressionSplitter.normalizeBackslashes.induct with
  | case1 rest ih =>
    simp only [normalizeBackslashes, length_cons]
    omega
  | case2 c rest apart ih =>
    rw [normalizeBackslashes.eq_2 c rest apart]
    simpa using ih
  | case3 => exact Nat.le_refl _

theorem normalizeBackslashes_eq_iff (l : List Char) : normalizeBackslashes l = l ↔ ¬['\\', '\\'] <:+: l := by
  induction l using N8n.Expressions.ExpressionSplitter.normalizeBackslashes.induct with
  | case1 rest ih =>
    have there : ['\\', '\\'] <:+: '\\' :: '\\' :: rest := IsPrefix.isInfix ⟨rest, rfl⟩
    refine iff_of_false (fun same => ?_) (not_not.mpr there)
    have lengths := congrArg List.length same
    have := normalizeBackslashes_length_le rest
    simp only [normalizeBackslashes, length_cons] at lengths
    omega
  | case2 c rest apart ih =>
    rw [normalizeBackslashes.eq_2 c rest apart, cons_inj_right, ih, infix_cons_iff, not_or]
    refine ⟨fun clean => ⟨fun here => ?_, clean⟩, And.right⟩
    obtain ⟨tail, split⟩ := here
    have first : '\\' = c := (cons.inj split).1
    have second : '\\' :: tail = rest := (cons.inj split).2
    exact apart tail first.symm second.symm
  | case3 => simp [normalizeBackslashes]

theorem escapeCode_length (l : List Char) :
    (escapeCode l).length ≤ l.length ∧ l.length ≤ (escapeCode l).length + 1 := by
  rcases replaceFirst_cases ['\\', '}', '}'] ['}', '}'] l (by simp) with same | ⟨before, after, split, replaced⟩
  · rw [escapeCode, same]
    omega
  · rw [escapeCode, replaced, split]
    simp only [length_append, length_cons, length_nil]
    omega

end Backslashes

section Readings

variable {b : Char} {l : List Char} {side : Side}

theorem readSection_agree (plain : ∀ piece ∈ (readSection endsInBackslash b l).1, isEscaped piece = true) :
    readSection isEscaped b l = readSection endsInBackslash b l := by
  induction l using readSection_induction endsInBackslash b with
  | last l clean => exact readSection_last clean
  | close l before after cut free =>
    refine readSection_close cut (Bool.eq_false_iff.mpr fun escaped => ?_)
    exact absurd (isEscaped_ends escaped) (by simp [free])
  | escape l before after cut guarded ih =>
    obtain ⟨here, later⟩ := forall_mem_cons.mp plain
    rw [readSection_escape cut here, ih later]

theorem readSection_apart (apart : ¬∀ piece ∈ (readSection endsInBackslash b l).1, isEscaped piece = true) :
    (readSection isEscaped b l).2.2.isSome ∧
      (content b (readSection isEscaped b l).1 (readSection isEscaped b l).2.1).length + 2 ≤
        (content b (readSection endsInBackslash b l).1 (readSection endsInBackslash b l).2.1).length := by
  induction l using readSection_induction endsInBackslash b with
  | last l clean => exact absurd (by simp) apart
  | close l before after cut free => exact absurd (by simp) apart
  | escape l before after cut guarded ih =>
    cases here : isEscaped before with
    | true =>
      rw [readSection_escape cut here]
      have later := ih fun plain => apart (forall_mem_cons.mpr ⟨here, plain⟩)
      refine ⟨later.1, ?_⟩
      have := later.2
      simp only [content, flatMap_cons, append_assoc, length_append, length_cons,
        length_nil] at this ⊢
      omega
    | false =>
      rw [readSection_close cut here]
      refine ⟨rfl, ?_⟩
      simp only [content, flatMap_cons, append_assoc, length_append, length_cons,
        length_nil, flatMap_nil]
      omega

end Readings

section Agreement

variable {side : Side} {l : List Char} {rest : List Char}

def parsed (side : Side) (l : List Char) : List ExpressionChunk := ExpressionParser.splitFrom side [] l

def split (side : Side) (l : List Char) : List ExpressionChunk := ExpressionSplitter.splitFrom side [] l

theorem parsed_more (closed : (readSection endsInBackslash (bracket side) l).2.2 = some rest) : parsed side l =
      ExpressionParser.chunk side true (content (bracket side)
        (readSection endsInBackslash (bracket side) l).1 (readSection endsInBackslash (bracket side) l).2.1) ::
        parsed side.other rest := by
  rw [parsed, ExpressionParser.splitFrom_eq, readSections_more closed, parsed, ExpressionParser.splitFrom_eq]
  simp [Section.Cut, Section.text]

theorem split_more (closed : (readSection isEscaped (bracket side) l).2.2 = some rest) :
    split side l = ExpressionSplitter.chunk side true (content (bracket side)
        (readSection isEscaped (bracket side) l).1 (readSection isEscaped (bracket side) l).2.1) ::
        split side.other rest := by
  rw [split, ExpressionSplitter.splitFrom_eq, readSections_more closed, split, ExpressionSplitter.splitFrom_eq]
  simp [Section.Cut, Section.text]

theorem chunk_false (side : Side) (text : List Char) :
    ExpressionParser.chunk side false text = ExpressionSplitter.chunk side false text := by
  cases side <;> rfl

theorem chunk_true_iff (side : Side) (text : List Char) :
    (ExpressionParser.chunk side true text).typeAndText = (ExpressionSplitter.chunk side true text).typeAndText ↔
      (side = .opening → ¬['\\', '\\'] <:+: text) := by
  cases side with
  | opening =>
    rw [← normalizeBackslashes_eq_iff]
    simp [ExpressionParser.chunk, ExpressionSplitter.chunk, ExpressionChunk.typeAndText, eq_comm]
  | closing => simp [ExpressionParser.chunk, ExpressionSplitter.chunk]

theorem chunk_ne {closed : Bool} {one two : List Char} (longer : two.length + 2 ≤ one.length) :
    (ExpressionParser.chunk side closed one).typeAndText ≠ (ExpressionSplitter.chunk side true two).typeAndText := by
  intro same
  have lengths := congrArg (fun pair => pair.2.length) same
  cases side with
  | opening =>
    have := normalizeBackslashes_length_le two
    simp only [ExpressionParser.chunk, ExpressionSplitter.chunk, ExpressionChunk.typeAndText] at lengths
    omega
  | closing =>
    have := escapeCode_length one
    have := escapeCode_length two
    simp only [ExpressionParser.chunk, ExpressionSplitter.chunk, ExpressionChunk.typeAndText] at lengths
    omega

theorem parsed_last (unclosed : (readSection endsInBackslash (bracket side) l).2.2 = none) : parsed side l =
      if (readSection endsInBackslash (bracket side) l).2.1 = [] then []
      else [ExpressionParser.chunk side false (content (bracket side)
        (readSection endsInBackslash (bracket side) l).1 (readSection endsInBackslash (bracket side) l).2.1)] := by
  rw [parsed, ExpressionParser.splitFrom_eq, readSections_last unclosed]
  by_cases empty : (readSection endsInBackslash (bracket side) l).2.1 = []
  · simp [Section.Cut, empty]
  · simp [Section.Cut, Section.text, empty]

theorem split_last (unclosed : (readSection isEscaped (bracket side) l).2.2 = none) :
    split side l =
      if (readSection isEscaped (bracket side) l).2.1 = [] then []
      else [ExpressionSplitter.chunk side false (content (bracket side)
        (readSection isEscaped (bracket side) l).1 (readSection isEscaped (bracket side) l).2.1)] := by
  rw [split, ExpressionSplitter.splitFrom_eq, readSections_last unclosed]
  by_cases empty : (readSection isEscaped (bracket side) l).2.1 = []
  · simp [Section.Cut, empty]
  · simp [Section.Cut, Section.text, empty]

theorem parsed_head {c : ExpressionChunk} (first : (parsed side l).head? = some c) :
    ∃ closed, c = ExpressionParser.chunk side closed (content (bracket side)
      (readSection endsInBackslash (bracket side) l).1 (readSection endsInBackslash (bracket side) l).2.1) := by
  cases closed : (readSection endsInBackslash (bracket side) l).2.2 with
  | some rest =>
    rw [parsed_more closed] at first
    exact ⟨true, (Option.some.inj first).symm⟩
  | none =>
    rw [parsed_last closed] at first
    split_ifs at first
    · cases first
    · exact ⟨false, (Option.some.inj first).symm⟩

theorem not_agree_of_apart
    (apart : ¬∀ piece ∈ (readSection endsInBackslash (bracket side) l).1, isEscaped piece = true) :
    ¬Agree (parsed side l) (split side l) := by
  intro agree
  obtain ⟨closes, longer⟩ := readSection_apart apart
  obtain ⟨rest, closed⟩ := Option.isSome_iff_exists.mp closes
  rw [Agree, split_more closed, map_cons] at agree
  obtain ⟨c, others, whole⟩ := exists_cons_of_ne_nil (l := parsed side l) (by
    rintro none
    rw [none] at agree
    cases agree)
  rw [whole, map_cons] at agree
  obtain ⟨closed, rfl⟩ := parsed_head (c := c) (by rw [whole]; rfl)
  exact chunk_ne longer (cons.inj agree).1

theorem agree_iff (side : Side) (l : List Char) : Agree (parsed side l) (split side l) ↔
    ∀ s ∈ readSections bracket endsInBackslash side l, Plain s := by
  induction side, l using readSections_induction bracket endsInBackslash with
  | last side l unclosed =>
    rw [readSections_last unclosed, forall_mem_singleton]
    by_cases plain : ∀ piece ∈ (readSection endsInBackslash (bracket side) l).1, isEscaped piece = true
    · have same := readSection_agree plain
      refine iff_of_true ?_ ⟨plain, by simp⟩
      rw [parsed_last unclosed, split_last (by rw [same, unclosed]), same, chunk_false, Agree]
    · exact iff_of_false (not_agree_of_apart plain) fun good => plain good.1
  | more side l rest closed ih =>
    rw [readSections_more closed, forall_mem_cons]
    by_cases plain : ∀ piece ∈ (readSection endsInBackslash (bracket side) l).1, isEscaped piece = true
    · have same := readSection_agree plain
      rw [parsed_more closed, split_more (same ▸ closed), ← ih, same]
      simp only [Agree, map_cons, cons.injEq, chunk_true_iff]
      exact and_congr_left fun _ => ⟨fun clean => ⟨plain, fun opening _ => clean opening⟩, fun good opening =>
        good.2 opening rfl⟩
    · exact iff_of_false (not_agree_of_apart plain) fun good => plain good.1.1

/-- The two splitters emit the same types and texts exactly when every section that the splitter
of the extensions reads is plain: no brackets have a positive even number of backslashes in front
of them, and no text in front of code has two backslashes in a row. -/
theorem splitExpression_agree_iff (expression : List Char) :
    Agree (ExpressionParser.splitExpression expression) (ExpressionSplitter.splitExpression expression) ↔
      ∀ s ∈ ExpressionParser.sections expression, Plain s := by
  unfold ExpressionParser.splitExpression ExpressionSplitter.splitExpression
  by_cases empty : expression = []
  · subst empty
    refine iff_of_true rfl ?_
    rw [ExpressionParser.sections, readSections_nil]
    exact forall_mem_singleton.mpr ⟨by simp, by simp⟩
  · rw [if_neg empty, if_neg empty]
    exact agree_iff .opening expression

/-- Two backslashes in front of code: the one splitter takes the brackets for escaped. -/
theorem doubledBackslash_disagree :
    ExpressionParser.splitExpression ['\\', '\\', '{', '{', 'x'] = [.text ['\\', '\\', '{', '{', 'x']] ∧
      ExpressionSplitter.splitExpression ['\\', '\\', '{', '{', 'x'] = [.text ['\\'], .code ['x'] false] ∧
      ¬Agree (ExpressionParser.splitExpression ['\\', '\\', '{', '{', 'x'])
        (ExpressionSplitter.splitExpression ['\\', '\\', '{', '{', 'x']) := by
  have one : ExpressionParser.splitExpression ['\\', '\\', '{', '{', 'x'] = [.text ['\\', '\\', '{', '{', 'x']] := by
    simp [ExpressionParser.splitExpression, ExpressionParser.splitFrom, ExpressionParser.exec, bracket,
      ExpressionParser.chunk]
  have two : ExpressionSplitter.splitExpression ['\\', '\\', '{', '{', 'x'] = [.text ['\\'], .code ['x'] false] := by
    simp [ExpressionSplitter.splitExpression, ExpressionSplitter.splitFrom, ExpressionSplitter.exec, bracket,
      ExpressionSplitter.chunk, isEscaped, backslashCount, normalizeBackslashes, Side.other, escapeCode,
      replaceFirst]
  refine ⟨one, two, ?_⟩
  rw [one, two]
  simp [Agree]

end Agreement

end N8n.Expressions
