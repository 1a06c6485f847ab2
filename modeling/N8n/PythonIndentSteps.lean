import Mathlib.Data.List.Forall2
import N8n.PythonLexer

/-! One character of a text and of the indented one: what is in the two states of the lexer
is the same, but for the texts of the literals that go on over a line break. -/

namespace N8n.Python

open List

section Texts

inductive Spaced : List Char → List Char → Prop
  | nil : Spaced [] []
  | snoc {text text' : List Char} (char : Char) (spaced : Spaced text text') : Spaced (text ++ [char]) (text' ++ [char])
  | space {text text' : List Char} (spaced : Spaced text text') : Spaced text (text' ++ [' '])

variable {text text' : List Char} {char : Char}

theorem Spaced.refl (text : List Char) : Spaced text text := by
  induction text using List.reverseRecOn with
  | nil => exact .nil
  | append_singleton text char ih => exact ih.snoc char

theorem Spaced.length_le (spaced : Spaced text text') : text.length ≤ text'.length := by
  induction spaced with
  | nil => exact le_rfl
  | snoc char _ ih => simpa using ih
  | space _ ih => exact ih.trans (by simp)

theorem Spaced.spaces (spaced : Spaced text text') (width : ℕ) : Spaced text (text' ++ List.replicate width ' ') := by
  induction width with
  | zero => simpa using spaced
  | succ width ih =>
    rw [replicate_succ', ← append_assoc]
    exact ih.space

def hasBreak (text : List Char) : Bool := text.any breaksLine

theorem hasBreak_snoc : hasBreak (text ++ [char]) = (hasBreak text || breaksLine char) := by
  simp [hasBreak]

def Stretched (text text' : List Char) : Prop := Spaced text text' ∧ (hasBreak text = true ↔ text ≠ text')

def Pending (text text' : List Char) : Prop := Spaced text text' ∧ hasBreak text = true

theorem Stretched.nil : Stretched [] [] := ⟨.nil, by simp [hasBreak]⟩

theorem Stretched.snoc (unbroken : breaksLine char = false) (stretched : Stretched text text') :
    Stretched (text ++ [char]) (text' ++ [char]) := by
  refine ⟨stretched.1.snoc char, ?_⟩
  rw [hasBreak_snoc, unbroken, Bool.or_false, stretched.2, ne_eq, ne_eq, append_left_inj]

theorem Stretched.replicate (unbroken : breaksLine char = false) (count : ℕ) (stretched : Stretched text text') :
    Stretched (text ++ List.replicate count char) (text' ++ List.replicate count char) := by
  induction count with
  | zero => simpa using stretched
  | succ count ih =>
    rw [replicate_succ', ← append_assoc, ← append_assoc]
    exact ih.snoc unbroken

theorem Spaced.broken (breaks : breaksLine char = true) (spaced : Spaced text text') :
    Pending (text ++ [char]) (text' ++ [char]) :=
  ⟨spaced.snoc char, by rw [hasBreak_snoc, breaks, Bool.or_true]⟩

theorem Pending.snoc (char : Char) (pending : Pending text text') : Pending (text ++ [char]) (text' ++ [char]) :=
  ⟨pending.1.snoc char, by rw [hasBreak_snoc, pending.2, Bool.true_or]⟩

theorem Pending.spaces {width : ℕ} (positive : 0 < width) (pending : Pending text text') :
    Stretched text (text' ++ List.replicate width ' ') := by
  refine ⟨pending.1.spaces width, fun _ same => ?_, fun _ => pending.2⟩
  have longer := pending.1.length_le
  have lengths := congrArg List.length same
  rw [length_append, length_replicate] at lengths
  omega

end Texts

section Leads

variable {width : ℕ} {lead lead' : List Char} {char : Char}

theorem measure_snoc (margin : ℕ) (lead : List Char) (char : Char) :
    measure margin (lead ++ [char]) = (measure margin lead).advance margin char := by
  rw [measure, foldl_append]
  rfl

theorem measure_spaces (margin : ℕ) (lead : List Char) (width : ℕ) : measure margin (lead ++ List.replicate width ' ') =
      { measure margin lead with
        column := (measure margin lead).column + width, alternate := (measure margin lead).alternate + width } := by
  induction width with
  | zero => simp
  | succ width ih =>
    rw [replicate_succ', ← append_assoc, measure_snoc, ih]
    rfl

end Leads

/-- Where in a line the lexer is: in one that gets indented, behind a line break, in a blank one. -/
inductive Phase where
  | filled
  | ended
  | blank
  deriving DecidableEq

namespace Phase

def after (phase : Phase) (char : Char) : Phase := if breaksLine char then .ended else phase

def Texts : Phase → List Char → List Char → Prop
  | .filled => Stretched
  | _ => Pending

/-- The margin stands at the start of each physical line, the one that follows included. -/
def Lead (width : ℕ) : Phase → List Char → List Char → Prop
  | .filled => fun lead lead' => measure 0 lead' = measure width lead
  | .ended => fun lead lead' => measure 0 (lead' ++ List.replicate width ' ') = measure width lead
  | .blank => fun lead lead' => (measure 0 lead').joined = (measure width lead).joined

variable {phase : Phase} {text text' lead lead' : List Char} {char : Char} {width : ℕ}

theorem Texts.snoc (texts : phase.Texts text text') : (phase.after char).Texts (text ++ [char]) (text' ++ [char]) := by
  rw [after]
  by_cases breaks : breaksLine char = true
  · rw [if_pos breaks]
    cases phase with
    | filled => exact texts.1.broken breaks
    | ended => exact texts.snoc char
    | blank => exact texts.snoc char
  · rw [if_neg breaks]
    cases phase with
    | filled => exact texts.snoc (eq_false_of_ne_true breaks)
    | ended => exact texts.snoc char
    | blank => exact texts.snoc char

theorem after_unbroken (unbroken : breaksLine char = false) : phase.after char = phase := by
  rw [after, unbroken]
  rfl

/-- A space, a tab or a form feed in front of a line. -/
theorem Lead.snoc (before : phase ≠ .ended) (space : char = ' ' ∨ char = '\t' ∨ char = '\x0c')
    (same : phase.Lead width lead lead') : (phase.after char).Lead width (lead ++ [char]) (lead' ++ [char]) := by
  rcases space with rfl | rfl | rfl
  · rw [after_unbroken (by decide)]
    cases phase with
    | filled => simp only [Lead, measure_snoc] at same ⊢; rw [same]; rfl
    | ended => exact absurd rfl before
    | blank => simp only [Lead, measure_snoc] at same ⊢; exact same
  · rw [after_unbroken (by decide)]
    cases phase with
    | filled => simp only [Lead, measure_snoc] at same ⊢; rw [same]; rfl
    | ended => exact absurd rfl before
    | blank => simp only [Lead, measure_snoc] at same ⊢; exact same
  · have joined : (measure 0 lead').joined = (measure width lead).joined := by
      cases phase with
      | filled => exact congrArg Width.joined same
      | ended => exact absurd rfl before
      | blank => exact same
    show measure 0 (lead' ++ ['\x0c'] ++ List.replicate width ' ') = measure width (lead ++ ['\x0c'])
    rw [measure_spaces, measure_snoc, measure_snoc]
    simp [Width.advance, joined]

theorem Lead.join (same : Phase.filled.Lead width lead lead') :
    Phase.ended.Lead width (lead ++ ['\n']) (lead' ++ ['\n']) := by
  show measure 0 (lead' ++ ['\n'] ++ List.replicate width ' ') = measure width (lead ++ ['\n'])
  have same : measure 0 lead' = measure width lead := same
  rw [measure_spaces, measure_snoc, measure_snoc, same]
  rfl

theorem Lead.nil : Phase.ended.Lead width [] [] := by
  show measure 0 ([] ++ List.replicate width ' ') = measure width []
  rw [measure_spaces]
  simp [measure]

theorem Lead.blank (same : Phase.ended.Lead width lead lead') : Phase.blank.Lead width lead lead' := by
  have same : measure 0 (lead' ++ List.replicate width ' ') = measure width lead := same
  rw [measure_spaces] at same
  have joined := congrArg Width.joined same
  exact joined

end Phase

section Follows

variable {α β : Type} {R : α → β → Prop} {run run' : Option α} {other other' : Option β}

/-- Whatever the first run comes to, the other comes to something related. -/
def Follows (R : α → β → Prop) (run : Option α) (other : Option β) : Prop :=
  ∀ next, run = some next → ∃ next', other = some next' ∧ R next next'

theorem Follows.some {next : α} {next' : β} (related : R next next') : Follows R (.some next) (.some next') := by
  rintro _ ⟨⟩
  exact ⟨next', rfl, related⟩

theorem Follows.none : Follows R .none other := nofun

theorem Follows.ite {c : Prop} [Decidable c] (pos : c → Follows R run other) (neg : ¬c → Follows R run' other') :
    Follows R (if c then run else run') (if c then other else other') := by
  split_ifs with holds
  · exact pos holds
  · exact neg holds

end Follows

section Simulation

/-- Between two lines, or in a literal's text and outside of its escapes. -/
def State.Settled (state : State) : Prop :=
  match state.mode with
  | .code => state.items = [] ∨ ∃ items, state.items = .blank :: items
  | .text _ scan _ => scan = .plain ∨ scan = .name
  | _ => False

/-- In a comment nothing is read but its end. -/
def Phase.following (phase : Phase) (state : State) (char : Char) : Phase :=
  if state.mode = .comment ∧ char ≠ '\n' then phase else phase.after char

inductive Item.Related (R : List Char → List Char → Prop) : Item → Item → Prop
  | blank : Item.Related R .blank .blank
  | char (char : Char) : Item.Related R (.char char) (.char char)
  | text {text text' : List Char} (related : R text text') : Item.Related R (.text text) (.text text')

theorem Item.Related.refl {R : List Char → List Char → Prop} (reflexive : ∀ text, R text text) (item : Item) :
    item.Related R item := by
  cases item with
  | blank => exact .blank
  | char char => exact .char char
  | text text => exact .text (reflexive text)

inductive Frame.Related (R : List Char → List Char → Prop) : Frame → Frame → Prop
  | bracket (opening : Char) : Frame.Related R (.bracket opening) (.bracket opening)
  | field (literal : Literal) {source source' : List Char} (related : R source source') :
      Frame.Related R (.field literal source) (.field literal source')

inductive Mode.Related (R : List Char → List Char → Prop) : Mode → Mode → Prop
  | code : Mode.Related R .code .code
  | joining : Mode.Related R .joining .joining
  | comment : Mode.Related R .comment .comment
  | quoted (literal : Literal) (twice : Bool) : Mode.Related R (.quoted literal twice) (.quoted literal twice)
  | text (literal : Literal) (scan : Scan) {chars chars' : List Char} (related : R chars chars') :
      Mode.Related R (.text literal scan chars) (.text literal scan chars')

structure LineRelated (width : ℕ) (line line' : RawLine) : Prop where
  lead : measure 0 line'.lead = measure width line.lead
  items : Forall₂ (Item.Related Stretched) line.items line'.items

/-- The lines so far, last first, with those of the text in front of the indented one. -/
inductive LinesRelated (width : ℕ) (header : List RawLine) : List RawLine → List RawLine → Prop
  | header : LinesRelated width header [] header
  | cons {line line' : RawLine} {lines lines' : List RawLine}
      (first : LineRelated width line line') (rest : LinesRelated width header lines lines') :
      LinesRelated width header (line :: lines) (line' :: lines')

/-- Whether what comes next still belongs to the indentation. -/
def State.leading (state : State) : Bool :=
  match state.mode, state.items with
  | .quoted _ _, _ => false
  | .text _ _ _, _ => false
  | _, items => items.isEmpty

/-- The lexer on a text and on the indented one. The sources of the open fields go ahead of
the text of a literal by the character that is being read. -/
structure Sim (width : ℕ) (header : List RawLine) (phase sources : Phase) (state state' : State) : Prop where
  mode : state.mode.Related phase.Texts state'.mode
  stack : Forall₂ (Frame.Related sources.Texts) state.stack state'.stack
  items : Forall₂ (Item.Related Stretched) state.items state'.items
  lead : (if state.leading then phase else .filled).Lead width state.lead state'.lead
  lines : LinesRelated width header state.lines state'.lines

variable {width : ℕ} {header : List RawLine} {phase sources : Phase} {state state' next : State} {char : Char}

variable {items items' : List Item}

section

variable (related : Forall₂ (Item.Related Stretched) items items')
include related

theorem prefixOf_eq : prefixOf items' = prefixOf items := by
  induction related with
  | nil => rfl
  | cons first _ ih =>
    cases first with
    | blank => rfl
    | char char => rw [prefixOf, prefixOf, ih]
    | text related => rfl

theorem endsInEquals_eq : endsInEquals items' = endsInEquals items := by
  cases related with
  | nil => rfl
  | cons first rest =>
    cases first with
    | char char => rfl
    | text related => rfl
    | blank =>
      cases rest with
      | nil => rfl
      | cons second rest => cases second <;> rfl

theorem debug_related {source source' : List Char} (stretched : Stretched source source') :
    Forall₂ (Item.Related Stretched) (debug items source) (debug items' source') := by
  rw [debug, debug, endsInEquals_eq related]
  split
  · exact .cons (.text stretched) related
  · exact related

end

theorem Sim.lead_filled (sim : Sim width header .filled sources state state') :
    Phase.filled.Lead width state.lead state'.lead := by
  have lead := sim.lead
  rwa [ite_self] at lead

theorem Sim.filled (mode : state.mode.Related Stretched state'.mode)
    (stack : Forall₂ (Frame.Related sources.Texts) state.stack state'.stack)
    (items : Forall₂ (Item.Related Stretched) state.items state'.items)
    (lead : Phase.filled.Lead width state.lead state'.lead)
    (lines : LinesRelated width header state.lines state'.lines) : Sim width header .filled sources state state' :=
  ⟨mode, stack, items, by rwa [ite_self], lines⟩

theorem Sim.push (sim : Sim width header .filled sources state state') {item item' : Item}
    (related : item.Related Stretched item') : Sim width header .filled sources (state.push item) (state'.push item') :=
  .filled sim.mode sim.stack (.cons related sim.items) sim.lead_filled sim.lines

theorem Sim.space (sim : Sim width header phase sources state state') (before : phase ≠ .ended)
    (space : char = ' ' ∨ char = '\t' ∨ char = '\x0c') (code : state.mode = .code) :
    Sim width header (phase.after char) sources (state.space char) (state'.space char) := by
  obtain ⟨mode, stack, lead, items, lines⟩ := state
  obtain ⟨mode', stack', lead', items', lines'⟩ := state'
  obtain ⟨sameMode, sameStack, sameItems, sameLead, sameLines⟩ := sim
  obtain rfl : mode = .code := code
  cases sameMode
  cases sameItems with
  | nil => exact ⟨.code, sameStack, .nil, sameLead.snoc before space, sameLines⟩
  | cons first rest =>
    cases first with
    | blank => exact ⟨.code, sameStack, .cons .blank rest, sameLead, sameLines⟩
    | char char => exact ⟨.code, sameStack, .cons .blank (.cons (.char char) rest), sameLead, sameLines⟩
    | text related => exact ⟨.code, sameStack, .cons .blank (.cons (.text related) rest), sameLead, sameLines⟩

theorem Sim.newline (sim : Sim width header phase sources state state') (code : state.mode = .code) :
    Sim width header .ended sources state.newline state'.newline := by
  obtain ⟨mode, stack, lead, items, lines⟩ := state
  obtain ⟨mode', stack', lead', items', lines'⟩ := state'
  obtain ⟨sameMode, sameStack, sameItems, sameLead, sameLines⟩ := sim
  obtain rfl : mode = .code := code
  cases sameMode
  cases sameItems with
  | nil => exact ⟨.code, sameStack, .nil, .nil, sameLines⟩
  | cons first rest =>
    have sameItems := Forall₂.cons first rest
    cases sameStack with
    | nil => exact ⟨.code, .nil, .nil, .nil, .cons ⟨sameLead, rel_reverse sameItems⟩ sameLines⟩
    | cons frame frames =>
      cases first with
      | blank => exact ⟨.code, .cons frame frames, .cons .blank rest, sameLead, sameLines⟩
      | char char => exact ⟨.code, .cons frame frames, .cons .blank (.cons (.char char) rest), sameLead, sameLines⟩
      | text related => exact ⟨.code, .cons frame frames, .cons .blank (.cons (.text related) rest), sameLead, sameLines⟩

theorem unbroken_of_filled (filled : isSpace char = false) : breaksLine char = false := by
  by_contra breaks
  rw [isSpace_of_breaksLine (eq_true_of_ne_false breaks)] at filled
  cases filled

theorem literalAt_eq (related : Forall₂ (Item.Related Stretched) items items')
    (quote : Quote) : literalAt items' quote = literalAt items quote := by
  rw [literalAt, prefixOf_eq related, ← literalAt]

theorem Sim.codeStep (sim : Sim width header phase (phase.after char) state state') (code : state.mode = .code)
    (quiet : phase = .filled ∨ phase = .blank ∧ isSpace char = true) :
    Follows (Sim width header (phase.after char) (phase.after char)) (codeStep state char) (codeStep state' char) := by
  have before : phase ≠ .ended := by rcases quiet with rfl | ⟨rfl, -⟩ <;> decide
  unfold N8n.Python.codeStep
  refine .ite (fun feed => .some ?_) fun _ => .ite (fun space => .some (sim.space before space code)) fun _ =>
    .ite (fun _ => .none) fun other => ?_
  · subst feed
    exact sim.newline code
  have filled : phase = .filled := by
    rcases quiet with filled | ⟨-, blank⟩
    · exact filled
    · exact absurd blank other
  subst filled
  rw [Phase.after_unbroken (unbroken_of_filled (eq_false_of_ne_true other))] at sim ⊢
  have lead := sim.lead_filled
  rw [literalAt_eq sim.items, literalAt_eq sim.items]
  refine .ite (fun _ => .some (.filled .comment sim.stack sim.items lead sim.lines)) fun _ =>
    .ite (fun _ => .some (.filled .joining sim.stack sim.items lead sim.lines)) fun _ =>
    .ite (fun _ => .some (.filled (.quoted _ _) sim.stack (.cons (.char char) sim.items) lead sim.lines)) fun _ =>
    .ite (fun _ => .some (.filled (.quoted _ _) sim.stack (.cons (.char char) sim.items) lead sim.lines)) fun _ =>
    .ite (fun _ => .some (.filled sim.mode (.cons (.bracket char) sim.stack) (.cons (.char char) sim.items) lead
      sim.lines)) fun _ =>
    .ite (fun _ => ?_) fun _ => .ite (fun _ => ?_) fun _ => .some (sim.push (.char char))
  · obtain ⟨mode, stack, _, items, lines⟩ := state
    obtain ⟨mode', stack', _, items', lines'⟩ := state'
    obtain ⟨sameMode, frames, sameItems, -, sameLines⟩ := sim
    cases frames with
    | nil => exact .none
    | cons frame frames =>
      cases frame with
      | bracket opening =>
        exact .ite (fun _ => .some (.filled sameMode frames (.cons (.char char) sameItems) lead sameLines)) fun _ => .none
      | field literal source =>
        exact .ite (fun _ => .some (.filled (.text literal .plain .nil) frames
          (.cons (.char char) (debug_related sameItems source)) lead sameLines)) fun _ => .none
  · obtain ⟨mode, stack, _, items, lines⟩ := state
    obtain ⟨mode', stack', _, items', lines'⟩ := state'
    obtain ⟨sameMode, frames, sameItems, -, sameLines⟩ := sim
    cases frames with
    | nil => exact .some (.filled sameMode .nil (.cons (.char char) sameItems) lead sameLines)
    | cons frame frames =>
      cases frame with
      | bracket opening =>
        exact .some (.filled sameMode (.cons (.bracket opening) frames) (.cons (.char char) sameItems) lead sameLines)
      | field literal source =>
        refine .some (.filled ?_ (.cons (.field literal source) frames)
          (.cons (.char char) (debug_related sameItems source)) lead sameLines)
        split
        · exact .text _ .plain .nil
        · exact .code

theorem Quote.filled (quote : Quote) : isSpace quote.char = false := by
  cases quote <;> decide

variable {chars chars' : List Char}

theorem Sim.text (sim : Sim width header phase sources state state') (inside : state.leading = false)
    (literal : Literal) (scan : Scan) (texts : sources.Texts chars chars') :
    Sim width header sources sources { state with mode := .text literal scan chars }
      { state' with mode := .text literal scan chars' } where
  mode := .text literal scan texts
  stack := sim.stack
  items := sim.items
  lead := by
    have lead := sim.lead
    rw [inside] at lead
    exact lead
  lines := sim.lines

theorem Sim.close (sim : Sim width header .filled .filled state state') (literal : Literal)
    (texts : Stretched chars chars') :
    Follows (Sim width header .filled .filled) (close state literal chars) (close state' literal chars') := by
  refine .ite (fun _ => .none) fun _ => .some (.filled .code sim.stack ?_ sim.lead_filled sim.lines)
  generalize (if literal.triple = true then 3 else 1) = count
  induction count with
  | zero => exact .cons (.text texts) sim.items
  | succ count ih => exact .cons (.char _) ih

theorem Sim.plainStep (sim : Sim width header phase (phase.after char) state state') (inside : state.leading = false)
    (quiet : phase = .filled ∨ phase = .blank ∧ isSpace char = true) (literal : Literal)
    (texts : phase.Texts chars chars') : Follows (Sim width header (phase.after char) (phase.after char))
      (plainStep state literal chars char) (plainStep state' literal chars' char) := by
  have filled : isSpace char = false → phase = .filled ∧ phase.after char = .filled := by
    intro other
    rcases quiet with rfl | ⟨-, blank⟩
    · exact ⟨rfl, Phase.after_unbroken (unbroken_of_filled other)⟩
    · rw [other] at blank
      cases blank
  refine .ite (fun quote => ?_) fun _ => .ite (fun _ => .none) fun _ =>
    .ite (fun _ => .some (sim.text inside literal _ texts.snoc)) fun _ => .ite (fun opens => ?_) fun _ =>
    .ite (fun ends => ?_) fun _ => .some (sim.text inside literal _ texts.snoc)
  · obtain ⟨rfl, after⟩ := filled (quote ▸ literal.quote.filled)
    rw [after] at sim ⊢
    exact .ite (fun _ => .some (sim.text inside literal _ texts)) fun _ => sim.close literal texts
  · obtain ⟨rfl, after⟩ := filled (opens.2 ▸ by decide)
    rw [after] at sim ⊢
    exact .some (sim.text inside literal _ texts)
  · obtain ⟨rfl, after⟩ := filled (ends.2 ▸ by decide)
    rw [after] at sim ⊢
    refine .ite (fun _ => ?_) fun _ => .some (sim.text inside literal _ texts)
    have lead := sim.lead_filled
    obtain ⟨mode, stack, _, items, lines⟩ := state
    obtain ⟨mode', stack', _, items', lines'⟩ := state'
    obtain ⟨-, frames, sameItems, -, sameLines⟩ := sim
    cases frames with
    | nil => exact .none
    | cons frame frames =>
      cases frame with
      | bracket opening => exact .none
      | field outer source =>
        exact .some (.filled (.text outer .plain .nil) frames (.cons (.char char) (.cons (.text texts) sameItems))
          lead sameLines)

theorem Sim.textStep (sim : Sim width header phase (phase.after char) state state') (inside : state.leading = false)
    (literal : Literal) {scan : Scan}
    (quiet : phase = .filled ∨ phase = .blank ∧ isSpace char = true ∧ (scan = .plain ∨ scan = .name))
    (texts : phase.Texts chars chars') : Follows (Sim width header (phase.after char) (phase.after char))
      (textStep state literal scan chars char) (textStep state' literal scan chars' char) := by
  have filled : scan ≠ .plain → scan ≠ .name → phase = .filled := by
    intro plain name
    rcases quiet with filled | ⟨-, -, same | same⟩
    · exact filled
    · exact absurd same plain
    · exact absurd same name
  have further : ∀ scan, Follows (Sim width header (phase.after char) (phase.after char))
      (some { state with mode := .text literal scan (chars ++ [char]) })
      (some { state' with mode := .text literal scan (chars' ++ [char]) }) :=
    fun scan => .some (sim.text inside literal scan texts.snoc)
  cases scan with
  | plain => exact sim.plainStep inside (quiet.imp_right fun blank => ⟨blank.1, blank.2.1⟩) literal texts
  | closing quotes =>
    obtain rfl := filled (by simp) (by simp)
    refine .ite (fun quote => ?_) fun _ => sim.plainStep inside (.inl rfl) literal
      (texts.replicate (unbroken_of_filled literal.quote.filled) quotes)
    rw [Phase.after_unbroken (unbroken_of_filled (quote ▸ literal.quote.filled))] at sim ⊢
    exact .ite (fun _ => sim.close literal texts) fun _ => .some (sim.text inside literal _ texts)
  | escaped =>
    obtain rfl := filled (by simp) (by simp)
    exact .ite (fun _ => sim.plainStep inside (.inl rfl) literal texts) fun _ => further _
  | named =>
    obtain rfl := filled (by simp) (by simp)
    exact .ite (fun _ => further _) fun _ => sim.plainStep inside (.inl rfl) literal texts
  | name => exact .ite (fun _ => further _) fun _ => .ite (fun _ => .none) fun _ => further _
  | opened =>
    obtain rfl := filled (by simp) (by simp)
    refine .ite (fun _ => further _) fun _ => ?_
    have empty : Phase.filled.Texts [] [] := Stretched.nil
    have source : (Phase.filled.after char).Texts [char] [char] := empty.snoc
    have opened : Sim width header .filled (Phase.filled.after char) { state with
          mode := .code
          stack := .field literal [char] :: state.stack
          items := .char '{' :: .text chars :: state.items }
        { state' with
          mode := .code
          stack := .field literal [char] :: state'.stack
          items := .char '{' :: .text chars' :: state'.items } :=
      .filled .code (.cons (.field literal source) sim.stack) (.cons (.char '{') (.cons (.text texts) sim.items))
        sim.lead_filled sim.lines
    exact opened.codeStep rfl (.inl rfl)
  | closed =>
    obtain rfl := filled (by simp) (by simp)
    exact .ite (fun _ => further _) fun _ => .none

theorem Sim.record (sim : Sim width header phase phase state state') (read : ¬(state.mode = .comment ∧ char ≠ '\n')) :
    Sim width header phase (phase.after char) (state.record char) (state'.record char) := by
  have read' : ¬(state'.mode = .comment ∧ char ≠ '\n') := by
    rintro ⟨comment, other⟩
    have same := sim.mode
    rw [comment] at same
    refine read ⟨?_, other⟩
    generalize state.mode = mode at same
    cases same
    rfl
  rw [State.record, if_neg read, State.record, if_neg read']
  refine ⟨sim.mode, ?_, sim.items, sim.lead, sim.lines⟩
  refine rel_map ?_ sim.stack
  intro frame frame' related
  cases related with
  | bracket opening => exact .bracket opening
  | field literal texts => exact .field literal texts.snoc

theorem Sim.code (sim : Sim width header phase sources state state')
    (outside : state.mode = .joining ∨ state.mode = .comment) :
    Sim width header phase sources { state with mode := .code } { state' with mode := .code } := by
  refine ⟨.code, sim.stack, sim.items, ?_, sim.lines⟩
  have lead := sim.lead
  rw [State.leading] at lead ⊢
  rcases outside with same | same <;> simpa only [same] using lead

theorem Sim.join (sim : Sim width header .filled sources state state') (code : state.mode = .code) :
    Sim width header .ended sources (state.space '\n') (state'.space '\n') := by
  have lead := sim.lead_filled
  obtain ⟨mode, stack, _, items, lines⟩ := state
  obtain ⟨mode', stack', _, items', lines'⟩ := state'
  obtain ⟨sameMode, sameStack, sameItems, -, sameLines⟩ := sim
  obtain rfl : mode = .code := code
  cases sameMode
  cases sameItems with
  | nil => exact ⟨.code, sameStack, .nil, lead.join, sameLines⟩
  | cons first rest =>
    cases first with
    | blank => exact ⟨.code, sameStack, .cons .blank rest, lead, sameLines⟩
    | char char => exact ⟨.code, sameStack, .cons .blank (.cons (.char char) rest), lead, sameLines⟩
    | text related => exact ⟨.code, sameStack, .cons .blank (.cons (.text related) rest), lead, sameLines⟩

theorem Sim.modeStep (sim : Sim width header phase (phase.after char) state state')
    (quiet : phase = .filled ∨ phase = .blank ∧ isSpace char = true ∧ state.Settled)
    (read : ¬(state.mode = .comment ∧ char ≠ '\n')) :
    Follows (Sim width header (phase.after char) (phase.after char)) (modeStep state char) (modeStep state' char) := by
  have same := sim.mode
  rw [N8n.Python.modeStep, N8n.Python.modeStep]
  generalize mode : state.mode = before at same
  generalize mode' : state'.mode = before' at same ⊢
  cases same with
  | code => exact sim.codeStep mode (quiet.imp_right fun blank => ⟨blank.1, blank.2.1⟩)
  | joining =>
    obtain rfl : phase = .filled := quiet.resolve_right fun blank => by simp [State.Settled, mode] at blank
    refine .ite (fun feed => .some ?_) fun _ => .none
    subst feed
    exact (sim.code (.inl mode)).join rfl
  | comment =>
    obtain rfl : phase = .filled := quiet.resolve_right fun blank => by simp [State.Settled, mode] at blank
    refine .ite (fun feed => .some ?_) fun other => absurd ⟨mode, other⟩ read
    subst feed
    exact (sim.code (.inr mode)).newline rfl
  | quoted literal twice =>
    obtain rfl : phase = .filled := quiet.resolve_right fun blank => by simp [State.Settled, mode] at blank
    have inside : state.leading = false := by rw [State.leading, mode]
    refine .ite (fun quote => ?_) fun _ => ?_
    · rw [Phase.after_unbroken (unbroken_of_filled (quote ▸ literal.quote.filled))] at sim ⊢
      refine .some (.filled ?_ sim.stack (.cons (.char char) sim.items) sim.lead_filled sim.lines)
      cases twice with
      | false => exact .quoted literal true
      | true => exact .text _ .plain .nil
    cases twice with
    | false => exact sim.plainStep inside (.inl rfl) literal Stretched.nil
    | true =>
      have code : Sim width header .filled (Phase.filled.after char) { state with mode := .code }
          { state' with mode := .code } :=
        .filled .code sim.stack sim.items sim.lead_filled sim.lines
      exact code.codeStep rfl (.inl rfl)
  | text literal scan texts =>
    have inside : state.leading = false := by rw [State.leading, mode]
    refine sim.textStep inside literal (quiet.imp_right fun blank => ⟨blank.1, blank.2.1, ?_⟩) texts
    simpa only [State.Settled, mode] using blank.2.2

theorem Sim.comment (sim : Sim width header phase sources state state') (comment : state.mode = .comment) :
    state'.mode = .comment := by
  have same := sim.mode
  rw [comment] at same
  generalize state'.mode = mode' at same
  cases same
  rfl

theorem step_comment (comment : state.mode = .comment) (other : char ≠ '\n') : step state char = some state := by
  rw [step, State.record, if_pos ⟨comment, other⟩, modeStep, comment]
  exact if_neg other

theorem Sim.step (sim : Sim width header phase phase state state')
    (quiet : phase = .filled ∨ phase = .blank ∧ isSpace char = true ∧ state.Settled) :
    Follows (Sim width header (phase.following state char) (phase.following state char)) (step state char)
      (step state' char) := by
  rw [Phase.following]
  by_cases comment : state.mode = .comment ∧ char ≠ '\n'
  · rw [if_pos comment, step_comment comment.1 comment.2, step_comment (sim.comment comment.1) comment.2]
    exact .some sim
  · rw [if_neg comment, N8n.Python.step, N8n.Python.step]
    have read : (state.record char).mode = state.mode := by rw [State.record, if_neg comment]
    refine (sim.record comment).modeStep (quiet.imp_right fun blank => ⟨blank.1, blank.2.1, ?_⟩) (read ▸ comment)
    rw [State.record, if_neg comment]
    exact blank.2.2

end Simulation

end N8n.Python
