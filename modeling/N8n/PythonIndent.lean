import N8n.PythonIndentSteps

/-! What the tokenizer sees of an indented text. -/

namespace N8n.Python

open List Option

section Settling

variable {state next : State} {char : Char}

theorem ne_of_isSpace {other : Char} (space : isSpace char = true) (filled : isSpace other = false) : char ≠ other := by
  rintro rfl
  rw [space] at filled
  cases filled

theorem space_settled (code : state.mode = .code) (char : Char) : (state.space char).Settled := by
  obtain ⟨mode, stack, lead, items, lines⟩ := state
  obtain rfl : mode = .code := code
  cases items with
  | nil => exact .inl rfl
  | cons first rest => cases first <;> exact .inr ⟨_, rfl⟩

theorem newline_settled (code : state.mode = .code) : state.newline.Settled := by
  obtain ⟨mode, stack, lead, items, lines⟩ := state
  obtain rfl : mode = .code := code
  cases items with
  | nil => exact .inl rfl
  | cons first rest =>
    cases stack with
    | nil => exact .inl rfl
    | cons frame frames => cases first <;> exact .inr ⟨_, rfl⟩

section

variable (space : isSpace char = true) {chars : List Char} {literal : Literal}
include space

theorem codeStep_settled (code : state.mode = .code) (taken : codeStep state char = some next) : next.Settled := by
  unfold codeStep at taken
  by_cases feed : char = '\n'
  · rw [if_pos feed] at taken
    cases taken
    exact newline_settled code
  rw [if_neg feed] at taken
  by_cases blank : char = ' ' ∨ char = '\t' ∨ char = '\x0c'
  · rw [if_pos blank] at taken
    cases taken
    exact space_settled code char
  · rw [if_neg blank, if_pos space] at taken
    cases taken

theorem plainStep_space (taken : plainStep state literal chars char = some next) :
    next = { state with mode := .text literal .plain (chars ++ [char]) } := by
  rw [plainStep, if_neg (ne_of_isSpace space literal.quote.filled)] at taken
  by_cases feed : char = '\n' ∧ literal.triple = false
  · rw [if_pos feed] at taken
    cases taken
  rw [if_neg feed, if_neg (ne_of_isSpace space (by decide)),
    if_neg (fun braces => ne_of_isSpace space (by decide) braces.2),
    if_neg (fun braces => ne_of_isSpace space (by decide) braces.2)] at taken
  exact (some.inj taken).symm

theorem textStep_settled {scan : Scan} (taken : textStep state literal scan chars char = some next) : next.Settled := by
  cases scan with
  | plain => rw [plainStep_space space taken]; exact .inl rfl
  | closing quotes =>
    simp only [textStep, if_neg (ne_of_isSpace space literal.quote.filled)] at taken
    rw [plainStep_space space taken]
    exact .inl rfl
  | escaped =>
    have brace : ¬(literal.formatted = true ∧ (char = '{' ∨ char = '}')) := by
      rintro ⟨-, same | same⟩
      · exact ne_of_isSpace space (by decide) same
      · exact ne_of_isSpace space (by decide) same
    have name : ¬(literal.formatted = true ∧ literal.raw = false ∧ char = 'N') := fun same =>
      ne_of_isSpace space (by decide) same.2.2
    simp only [textStep, if_neg brace, if_neg name] at taken
    cases taken
    exact .inl rfl
  | named =>
    simp only [textStep, if_neg (ne_of_isSpace space (by decide : isSpace '{' = false))] at taken
    rw [plainStep_space space taken]
    exact .inl rfl
  | name =>
    simp only [textStep, if_neg (ne_of_isSpace space (by decide : isSpace '}' = false))] at taken
    split at taken
    · cases taken
    · cases taken
      exact .inr rfl
  | opened =>
    have brace : ¬(char = '{' ∧ literal.spec = false) := fun same => ne_of_isSpace space (by decide) same.1
    simp only [textStep, if_neg brace] at taken
    exact codeStep_settled space rfl taken
  | closed =>
    simp only [textStep, if_neg (ne_of_isSpace space (by decide : isSpace '}' = false))] at taken
    cases taken

theorem step_settled (taken : step state char = some next)
    (read : ¬(state.mode = .comment ∧ char ≠ '\n')) : next.Settled := by
  have mode_ : (state.record char).mode = state.mode := by rw [State.record, if_neg read]
  rw [step, modeStep] at taken
  rw [← mode_] at read
  generalize state.record char = state at taken read
  cases mode : state.mode with
  | code =>
    rw [mode] at taken
    exact codeStep_settled space mode taken
  | joining =>
    simp only [mode] at taken
    split at taken
    · cases taken
      exact space_settled rfl char
    · cases taken
  | comment =>
    obtain rfl : char = '\n' := by
      by_contra feed
      exact read ⟨mode, feed⟩
    simp only [mode, if_true] at taken
    cases taken
    exact newline_settled rfl
  | quoted literal twice =>
    simp only [mode, if_neg (ne_of_isSpace space literal.quote.filled)] at taken
    split at taken
    · exact codeStep_settled space rfl taken
    · rw [plainStep_space space taken]
      exact .inl rfl
  | text literal scan chars =>
    simp only [mode] at taken
    exact textStep_settled space taken

end

end Settling

section Margin

variable {width : ℕ} {header : List RawLine} {state state' : State}

def State.spaced (state : State) (width : ℕ) : State :=
  let spaces := List.replicate width ' '
  { state with
    mode := match state.mode with
      | .text literal scan chars => .text literal scan (chars ++ spaces)
      | mode => mode
    stack := state.stack.map (Frame.record spaces)
    lead := if state.leading then state.lead ++ spaces else state.lead }

theorem Frame.record_record (text more : List Char) (frame : Frame) :
    (frame.record text).record more = frame.record (text ++ more) := by
  cases frame with
  | bracket opening => rfl
  | field literal source => rw [record, record, record, append_assoc]

theorem State.spaced_zero (state : State) : state.spaced 0 = state := by
  have frames : Frame.record [] = id := by
    funext frame
    cases frame with
    | bracket opening => rfl
    | field literal source => rw [Frame.record, append_nil, id]
  obtain ⟨mode, stack, lead, items, lines⟩ := state
  cases mode <;> simp [spaced, frames]

theorem step_spaced (settled : state.Settled) (width : ℕ) :
    step (state.spaced width) ' ' = some (state.spaced (width + 1)) := by
  have frames : (Frame.record [' ']) ∘ (Frame.record (List.replicate width ' ')) =
      Frame.record (List.replicate (width + 1) ' ') := by
    funext frame
    rw [Function.comp, Frame.record_record, ← replicate_succ']
  obtain ⟨mode, stack, lead, items, lines⟩ := state
  cases mode with
  | code =>
    rcases settled with empty | ⟨rest, blank⟩
    · obtain rfl : items = [] := empty
      simp [State.spaced, State.leading, step, State.record, modeStep, codeStep, State.space, frames,
        replicate_succ']
    · obtain rfl : items = .blank :: rest := blank
      simp [State.spaced, State.leading, step, State.record, modeStep, codeStep, State.space, frames]
  | text literal scan chars =>
    have quote := ne_of_isSpace (by decide : isSpace ' ' = true) literal.quote.filled
    rcases settled with same | same
    · obtain rfl : scan = .plain := same
      simp [State.spaced, State.leading, step, State.record, modeStep, textStep, plainStep, quote, frames,
        replicate_succ']
    · obtain rfl : scan = .name := same
      simp [State.spaced, State.leading, step, State.record, modeStep, textStep, quote, frames, replicate_succ']
  | joining => cases settled
  | comment => cases settled
  | quoted literal twice => cases settled

theorem run_spaces (settled : state.Settled) (width : ℕ) :
    run state (List.replicate width ' ') = some (state.spaced width) := by
  induction width with
  | zero => rw [state.spaced_zero]; rfl
  | succ width ih =>
    rw [run, replicate_succ', foldlM_append, ← run, ih]
    simp [step_spaced settled]

theorem Sim.settled (sim : Sim width header .ended .ended state state') (settled : state.Settled) : state'.Settled := by
  obtain ⟨mode, stack, lead, items, lines⟩ := state
  obtain ⟨mode', stack', lead', items', lines'⟩ := state'
  obtain ⟨sameMode, -, sameItems, -, -⟩ := sim
  cases sameMode with
  | code =>
    rcases settled with empty | ⟨rest, blank⟩
    · obtain rfl : items = [] := empty
      cases sameItems
      exact .inl rfl
    · obtain rfl : items = .blank :: rest := blank
      cases sameItems with
      | cons first rest =>
        cases first
        exact .inr ⟨_, rfl⟩
  | text literal scan texts => exact settled
  | joining => cases settled
  | comment => cases settled
  | quoted literal twice => cases settled

theorem Sim.spaced (positive : 0 < width) (sim : Sim width header .ended .ended state state')
    (settled : state.Settled) : Sim width header .filled .filled state (state'.spaced width) := by
  obtain ⟨mode, stack, lead, items, lines⟩ := state
  obtain ⟨mode', stack', lead', items', lines'⟩ := state'
  obtain ⟨sameMode, sameStack, sameItems, sameLead, sameLines⟩ := sim
  have frames : Forall₂ (Frame.Related Stretched) stack (stack'.map (Frame.record (List.replicate width ' '))) := by
    rw [forall₂_map_right_iff]
    refine sameStack.imp fun frame frame' related => ?_
    cases related with
    | bracket opening => exact .bracket opening
    | field literal source => exact .field literal (source.spaces positive)
  cases sameMode with
  | code =>
    cases sameItems with
    | nil => exact .filled .code frames .nil sameLead sameLines
    | cons first rest => exact .filled .code frames (.cons first rest) sameLead sameLines
  | text literal scan texts =>
    exact .filled (.text literal scan (texts.spaces positive)) frames sameItems sameLead sameLines
  | joining => cases settled
  | comment => cases settled
  | quoted literal twice => cases settled

end Margin

section Lines

variable {width : ℕ} {header : List RawLine} {phase : Phase} {state state' next : State} {char : Char}
  {inner : List Char} {text code : List Char}

def Between (width : ℕ) (header : List RawLine) (state state' : State) : Prop :=
  (state.mode = .comment ∧ Sim width header .filled .filled state state') ∨
    (state.Settled ∧ Sim width header .ended .ended state state')

theorem run_cons : run state (char :: text) = (step state char).bind (run · text) := by
  rw [run, foldlM_cons]
  rfl

theorem run_append (state : State) (text more : List Char) :
    run state (text ++ more) = (run state text).bind (run · more) := by
  rw [run, foldlM_append]
  rfl

theorem Sim.body (sim : Sim width header .filled .filled state state')
    (unbroken : ∀ char ∈ inner, breaksLine char = false) (taken : run state inner = some next) :
    ∃ next', run state' inner = some next' ∧ Sim width header .filled .filled next next' := by
  induction inner generalizing state state' with
  | nil =>
    cases taken
    exact ⟨state', rfl, sim⟩
  | cons char inner ih =>
    rw [run_cons, bind_eq_some_iff] at taken
    obtain ⟨mid, first, rest⟩ := taken
    obtain ⟨mid', first', same⟩ := sim.step (.inl rfl) _ first
    have stays : Phase.filled.following state char = .filled := by
      rw [Phase.following, Phase.after_unbroken (unbroken char mem_cons_self), ite_self]
    rw [stays] at same
    obtain ⟨next', rest', last⟩ := ih same (fun char member => unbroken char (mem_cons_of_mem _ member)) rest
    exact ⟨next', by rw [run_cons, first', bind_some, rest'], last⟩

theorem Sim.blank (sim : Sim width header .blank .blank state state') (settled : state.Settled)
    (blank : ∀ char ∈ inner, isSpace char = true ∧ breaksLine char = false) (taken : run state inner = some next) :
    ∃ next', run state' inner = some next' ∧ Sim width header .blank .blank next next' ∧ next.Settled := by
  induction inner generalizing state state' with
  | nil =>
    cases taken
    exact ⟨state', rfl, sim, settled⟩
  | cons char inner ih =>
    obtain ⟨space, unbroken⟩ := blank char mem_cons_self
    have read : ¬(state.mode = .comment ∧ char ≠ '\n') := by
      rintro ⟨comment, -⟩
      rw [State.Settled, comment] at settled
      exact settled
    rw [run_cons, bind_eq_some_iff] at taken
    obtain ⟨mid, first, rest⟩ := taken
    obtain ⟨mid', first', same⟩ := sim.step (.inr ⟨rfl, space, settled⟩) _ first
    rw [Phase.following, if_neg read, Phase.after_unbroken unbroken] at same
    obtain ⟨next', rest', last⟩ := ih same (step_settled space first read)
      (fun char member => blank char (mem_cons_of_mem _ member)) rest
    exact ⟨next', by rw [run_cons, first', bind_some, rest'], last⟩

theorem between_of_ends (sim : Sim width header phase phase state state') (breaks : breaksLine char = true)
    (quiet : phase = .filled ∨ phase = .blank ∧ state.Settled) (taken : step state char = some next) :
    ∃ next', step state' char = some next' ∧ Between width header next next' := by
  have space := isSpace_of_breaksLine breaks
  obtain ⟨next', taken', same⟩ := sim.step (quiet.imp_right fun blank => ⟨blank.1, space, blank.2⟩) _ taken
  refine ⟨next', taken', ?_⟩
  rw [Phase.following] at same
  by_cases comment : state.mode = .comment ∧ char ≠ '\n'
  · rw [if_pos comment] at same
    rw [step_comment comment.1 comment.2] at taken
    cases taken
    rcases quiet with rfl | ⟨-, settled⟩
    · exact .inl ⟨comment.1, same⟩
    · rw [State.Settled, comment.1] at settled
      exact settled.elim
  · rw [if_neg comment, Phase.after, if_pos breaks] at same
    exact .inr ⟨step_settled space taken comment, same⟩

theorem run_comment (comment : state.mode = .comment) (unended : '\n' ∉ text) : run state text = some state := by
  induction text with
  | nil => rfl
  | cons char text ih =>
    rw [run_cons, step_comment comment (fun same => unended (same ▸ mem_cons_self)), bind_some,
      ih fun member => unended (mem_cons_of_mem _ member)]

theorem Between.line (positive : 0 < width) (between : Between width header state state')
    (unbroken : ∀ char ∈ inner, breaksLine char = false) (breaks : breaksLine char = true)
    (taken : run state (inner ++ [char]) = some next) :
    ∃ next', run state' ((if isBlank inner then [] else List.replicate width ' ') ++ (inner ++ [char])) = some next' ∧
      Between width header next next' := by
  rw [run_append, bind_eq_some_iff] at taken
  obtain ⟨mid, first, last⟩ := taken
  rw [run_cons, bind_eq_some_iff] at last
  obtain ⟨_, last, same⟩ := last
  cases same
  have whole : ∀ {start' : State} {margin : List Char}, run state' margin = some start' →
      Sim width header .filled .filled state start' →
        ∃ next', run state' (margin ++ (inner ++ [char])) = some next' ∧ Between width header next next' := by
    intro start' margin before sim
    obtain ⟨mid', first', sim⟩ := sim.body unbroken first
    obtain ⟨next', last', after⟩ := between_of_ends sim breaks (.inl rfl) last
    refine ⟨next', ?_, after⟩
    rw [run_append, before, bind_some, run_append, first', bind_some, run_cons, last']
    rfl
  rcases between with ⟨comment, sim⟩ | ⟨settled, sim⟩
  · refine whole (run_comment (sim.comment comment) ?_) sim
    split
    · exact not_mem_nil
    · intro member
      exact absurd (eq_of_mem_replicate member) (by decide)
  · by_cases blank : isBlank inner = true
    · rw [if_pos blank, nil_append]
      have spaces : ∀ char ∈ inner, isSpace char = true ∧ breaksLine char = false := fun char member =>
        ⟨List.all_eq_true.mp blank char member, unbroken char member⟩
      have sim : Sim width header .blank .blank state state' := by
        refine ⟨sim.mode, sim.stack, sim.items, ?_, sim.lines⟩
        have lead := sim.lead
        split
        · rename_i leading
          rw [if_pos leading] at lead
          exact lead.blank
        · rename_i inside
          rwa [if_neg inside] at lead
      obtain ⟨mid', first', sim, settled⟩ := sim.blank settled spaces first
      obtain ⟨next', last', after⟩ := between_of_ends sim breaks (.inr ⟨rfl, settled⟩) last
      refine ⟨next', ?_, after⟩
      rw [run_append, first', bind_some, run_cons, last']
      rfl
    · rw [if_neg blank]
      exact whole (run_spaces (sim.settled settled) width) (sim.spaced positive settled)

theorem Between.lines (positive : 0 < width) {lines : List (List Char)} (whole : ∀ line ∈ lines, IsLine line)
    (between : Between width header state state') (taken : run state (lines.flatMap translateNewlines) = some next) :
    ∃ next', run state' (lines.flatMap fun line => translateNewlines (indentLine (List.replicate width ' ') line)) =
      some next' ∧ Between width header next next' := by
  induction lines generalizing state state' with
  | nil =>
    cases taken
    exact ⟨state', rfl, between⟩
  | cons line lines ih =>
    obtain ⟨inner, char, unbroken, breaks, same, indented⟩ := (whole line mem_cons_self).translated
      (List.replicate width ' ') (fun member => absurd (eq_of_mem_replicate member) (by decide))
    rw [flatMap_cons, run_append, bind_eq_some_iff, same] at taken
    obtain ⟨mid, first, rest⟩ := taken
    obtain ⟨mid', first', between⟩ := between.line positive unbroken breaks first
    obtain ⟨next', rest', last⟩ := ih (fun line member => whole line (mem_cons_of_mem _ member)) between rest
    refine ⟨next', ?_, last⟩
    rw [flatMap_cons, run_append, indented, first', bind_some, rest']

theorem run_newline {lines : List RawLine} (read : logicalLines code = some lines) :
    run start (translateNewlines (code ++ ['\n'])) = some { start with lines := lines.reverse } := by
  rw [logicalLines] at read
  split at read
  · cases read
  rw [bind_eq_some_iff] at read
  obtain ⟨⟨mode, stack, lead, items, done⟩, taken, ended⟩ := read
  rw [finish] at ended
  split at ended
  · rename_i ends
    obtain ⟨rfl, rfl, rfl, rfl⟩ := ends
    cases ended
    rw [reverse_reverse]
    rcases translateNewlines_newline code with same | same
    · rw [same, taken]
      rfl
    · rw [same, run_append, taken]
      rfl
  · cases ended

theorem LinesRelated.split {lines lines' : List RawLine} (related : LinesRelated width header lines lines') :
    ∃ front, lines' = front ++ header ∧ Forall₂ (LineRelated width) lines front := by
  induction related with
  | header => exact ⟨[], rfl, .nil⟩
  | cons first _ ih =>
    obtain ⟨front, same, rest⟩ := ih
    exact ⟨_ :: front, congrArg _ same, .cons first rest⟩

theorem between_start (header : List RawLine) : Between width header start { start with lines := header } :=
  .inr ⟨.inl rfl, .code, .nil, .nil, .nil, .header⟩

theorem run_indent (positive : 0 < width) {lines : List RawLine}
    (read : logicalLines code = some lines) (header : List RawLine) :
    ∃ lines', Forall₂ (LineRelated width) lines lines' ∧ run { start with lines := header }
          (translateNewlines (indent code (List.replicate width ' ') ++ ['\n']) ++ ['\n']) =
        some { start with lines := lines'.reverse ++ header } := by
  have taken := run_newline read
  rw [translateNewlines_lines] at taken
  obtain ⟨next, taken, between⟩ := (between_start header).lines positive (isLine_of_mem code) taken
  obtain ⟨mode, stack, lead, items, done⟩ := next
  rcases between with ⟨comment, -⟩ | ⟨-, sameMode, sameStack, sameItems, -, sameLines⟩
  · cases comment
  cases sameMode
  cases sameStack
  cases sameItems
  obtain ⟨front, same, related⟩ := sameLines.split
  obtain rfl : done = front ++ header := same
  refine ⟨front.reverse, ?_, ?_⟩
  · rw [← forall₂_reverse_iff, reverse_reverse]
    exact related
  · rw [← indent_newline, translateNewlines_indent _ fun member => absurd (eq_of_mem_replicate member) (by decide),
      run_append, taken, reverse_reverse]
    rfl

theorem levels_related {lines lines' : List RawLine} (related : Forall₂ (LineRelated width) lines lines') :
    levels 0 lines' = levels width lines := by
  induction related with
  | nil => rfl
  | cons first _ ih =>
    rw [levels, map_cons, first.lead, ← levels, ih]
    rfl

theorem items_eq_iff {items items' : List Item} (related : Forall₂ (Item.Related Stretched) items items') :
    items' = items ↔ ∀ text, Item.text text ∈ items → hasBreak text = false := by
  induction related with
  | nil => simp
  | cons first _ ih =>
    cases first with
    | blank => simp [ih]
    | char char => simp [ih]
    | text stretched =>
      simp only [List.cons.injEq, Item.text.injEq, ih, mem_cons, forall_eq_or_imp]
      refine and_congr_left fun _ => ?_
      rw [← Bool.not_eq_true, stretched.2, ne_eq, not_not, eq_comm]

theorem lines_eq_iff {lines lines' : List RawLine} (related : Forall₂ (LineRelated width) lines lines') :
    lines'.map RawLine.items = lines.map RawLine.items ↔
      ∀ line ∈ lines, ∀ text, Item.text text ∈ line.items → hasBreak text = false := by
  induction related with
  | nil => simp
  | cons first _ ih =>
    simp only [map_cons, List.cons.injEq, mem_cons, forall_eq_or_imp, ih, items_eq_iff first.items]

end Lines

end N8n.Python
