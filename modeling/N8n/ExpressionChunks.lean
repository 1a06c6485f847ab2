import N8n.DoubledBrackets

/-! The chunks of an expression and how they are joined. Texts are lists of characters. The two
splitters of the source share these definitions word for word. -/

namespace N8n.Expressions

open DoubledBrackets List

inductive ExpressionChunk
  | text (text : List Char)
  | code (text : List Char) (hasClosingBrackets : Bool)
  deriving DecidableEq

/-- `text.replace(pattern, replacement)` for a pattern that is a string. -/
def replaceFirst (pattern replacement : List Char) : List Char → List Char
  | [] => if pattern = [] then replacement else []
  | c :: rest =>
    if pattern.isPrefixOf (c :: rest) then replacement ++ (c :: rest).drop pattern.length
    else c :: replaceFirst pattern replacement rest

def escapeCode (text : List Char) : List Char := replaceFirst ['\\', '}', '}'] ['}', '}'] text

def escapeTmplExpression (part : List Char) : List Char := replaceFirst ['}', '}'] ['\\', '}', '}'] part

def joinChunk : ExpressionChunk → List Char
  | .text text => text
  | .code text hasClosingBrackets =>
    ['{', '{'] ++ escapeTmplExpression text ++ if hasClosingBrackets then ['}', '}'] else []

def joinExpression (parts : List ExpressionChunk) : List Char := parts.flatMap joinChunk

def bracket : Side → Char
  | .opening => '{'
  | .closing => '}'

/-! ## Joining sections -/

section Join

variable (emit : Side → Bool → List Char → ExpressionChunk)

def joined (s : Section Char) : List Char :=
  if s.Cut then [] else joinChunk (emit s.side s.closed (s.text bracket))

theorem joinExpression_filterMap (l : List (Section Char)) : joinExpression (l.filterMap fun s =>
      if s.Cut then none else some (emit s.side s.closed (s.text bracket))) = l.flatMap (joined emit) := by
  induction l with
  | nil => rfl
  | cons s l ih =>
    by_cases cut : s.Cut
    · simpa [joinExpression, joined, cut] using ih
    · simpa [joinExpression, joined, cut] using ih

theorem flatMap_joined_nil (escapes : List Char → Bool) :
    (readSections bracket escapes .opening []).flatMap (joined emit) = [] := by
  simp [readSections_nil, joined, Section.Cut]

end Join

/-! ## Replacing brackets -/

section Replace

variable {pattern replacement l before after : List Char} {b : Char}

theorem replaceFirst_here (pattern replacement after : List Char) (some_ : pattern ≠ []) :
    replaceFirst pattern replacement (pattern ++ after) = replacement ++ after := by
  obtain ⟨c, rest, rfl⟩ := exists_cons_of_ne_nil some_
  rw [cons_append, replaceFirst, if_pos (by simp), length_cons, drop_succ_cons, drop_left]

theorem replaceFirst_cases (pattern replacement l : List Char) (some_ : pattern ≠ []) :
    replaceFirst pattern replacement l = l ∨
    ∃ before after, l = before ++ pattern ++ after ∧
      replaceFirst pattern replacement l = before ++ replacement ++ after := by
  induction l with
  | nil => exact .inl (by rw [replaceFirst, if_neg some_])
  | cons c rest ih =>
    rw [replaceFirst]
    split
    · rename_i here
      obtain ⟨after, split⟩ := isPrefixOf_iff_prefix.mp here
      refine .inr ⟨[], after, split.symm, ?_⟩
      rw [← split, drop_left, nil_append]
    · rcases ih with same | ⟨before, after, split, replaced⟩
      · exact .inl (by rw [same])
      · exact .inr ⟨c :: before, after, by rw [split]; rfl, by rw [replaced]; rfl⟩

theorem filter_replaceFirst {keep : Char → Bool} (some_ : pattern ≠ [])
    (same : pattern.filter keep = replacement.filter keep) :
    (replaceFirst pattern replacement l).filter keep = l.filter keep := by
  rcases replaceFirst_cases pattern replacement l some_ with
    unchanged | ⟨before, after, split, replaced⟩
  · rw [unchanged]
  · rw [replaced, split]
    simp [same]

theorem isPrefixOf_pair {c : Char} {rest : List Char} (here : [b, b].isPrefixOf (c :: rest)) :
    ∃ after, c :: rest = b :: b :: after := by
  obtain ⟨after, split⟩ := isPrefixOf_iff_prefix.mp here
  exact ⟨after, split.symm⟩

theorem replaceFirst_clean (clean : cutPair b l = none) :
    replaceFirst [b, b] replacement l = l ∧ replaceFirst ['\\', b, b] replacement l = l := by
  rw [cutPair_none_iff] at clean
  constructor
  · rcases replaceFirst_cases [b, b] replacement l (by simp) with
      same | ⟨before, after, split, _⟩
    · exact same
    · exact absurd split (by simpa using clean before after)
  · rcases replaceFirst_cases ['\\', b, b] replacement l (by simp) with same | ⟨before, after, split, _⟩
    · exact same
    · exact absurd split (by simpa using clean (before ++ ['\\']) after)

theorem replaceFirst_pair (cut : cutPair b l = some (before, after)) :
    replaceFirst [b, b] replacement l = before ++ replacement ++ after := by
  fun_induction cutPair b l generalizing before with
  | case1 x y rest here =>
    cases cut
    rw [here.1, here.2]
    exact replaceFirst_here [b, b] replacement after (by simp)
  | case2 x y rest apart ih =>
    obtain ⟨⟨before, after⟩, later, same⟩ := Option.map_eq_some_iff.mp cut
    cases same
    have elsewhere : ¬[b, b].isPrefixOf (x :: y :: rest) := fun here => by
      obtain ⟨after, split⟩ := isPrefixOf_pair here
      cases split
      exact apart ⟨rfl, rfl⟩
    rw [replaceFirst, if_neg elsewhere, ih later]
    rfl
  | case3 => cases cut

/-- The first brackets are escaped, so the pattern with the backslash stands there. -/
theorem replaceFirst_escaped (other : b ≠ '\\') (cut : cutPair b l = some (before ++ ['\\'], after)) :
    replaceFirst ['\\', b, b] replacement l = before ++ replacement ++ after := by
  obtain rfl := cutPair_some cut
  have clean := (cutPair_before cut).1
  rw [cutPair_none_iff] at clean
  clear cut
  induction before with
  | nil => exact replaceFirst_here ['\\', b, b] replacement after (by simp)
  | cons x before ih =>
    have later := ih fun y z split => clean (x :: y) z (by rw [cons_append, split]; rfl)
    have elsewhere : ¬['\\', b, b].isPrefixOf (x :: (before ++ ['\\'] ++ b :: b :: after)) := by
      intro here
      obtain ⟨rest, split⟩ := isPrefixOf_iff_prefix.mp here
      have split := (List.cons.inj split).2
      match before with
      | [] => exact other (List.cons.inj split).1
      | [_] => exact other (List.cons.inj (List.cons.inj split).2).1
      | y :: z :: before =>
        have first : b = y := (List.cons.inj split).1
        have second : b = z := (List.cons.inj (List.cons.inj split).2).1
        exact clean [x] (before ++ ['\\']) (by simp [← first, ← second])
    rw [cons_append, cons_append, replaceFirst, if_neg elsewhere, later]
    rfl

theorem escape_escapeCode (cut : cutPair '}' l = some (before ++ ['\\'], after)) : escapeTmplExpression (escapeCode l) =
      if before.getLast? = some '}' then before.dropLast ++ ['\\', '}', '}', '}'] ++ after else l := by
  have clean := cutPair_none_iff.mp (cutPair_before cut).1
  have unescaped : escapeCode l = before ++ '}' :: '}' :: after := by
    rw [escapeCode, replaceFirst_escaped (by decide) cut, append_assoc]
    rfl
  rw [unescaped, escapeTmplExpression]
  split
  · rename_i brace
    obtain ⟨start, rfl⟩ := getLast?_eq_some_iff.mp brace
    have half : cutPair '}' (start ++ ['}']) = none :=
      cutPair_none_iff.mpr fun x y split => clean x (y ++ ['\\']) (by simp [split])
    rw [replaceFirst_pair (cutPair_append_half half after)]
    simp
  · rename_i brace
    have whole : Clean '}' before :=
      ⟨cutPair_none_iff.mpr fun x y split => clean x (y ++ ['\\']) (by simp [split]), brace⟩
    rw [replaceFirst_pair (cutPair_append whole after), cutPair_some cut]
    simp

theorem escape_escapeCode_clean (clean : cutPair '}' l = none) : escapeTmplExpression (escapeCode l) = l := by
  rw [escapeCode, (replaceFirst_clean clean).2, escapeTmplExpression, (replaceFirst_clean clean).1]

end Replace

end N8n.Expressions
